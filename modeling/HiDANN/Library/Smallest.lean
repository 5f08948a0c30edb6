import Mathlib.Data.List.Basic
import Mathlib.Data.List.Perm.Subperm
import Mathlib.Data.List.Sort
import Mathlib.Data.Set.Insert
import Mathlib.Order.Basic

/-! Sorted lists of the smallest elements of a set. `Smallest L V l` says that
`l` holds, in increasing order, the `L` smallest elements of `V`, or all of `V`
when there are fewer. Inserting an element at its place and cutting at `L` keeps this. -/

namespace HiDANN

variable {κ : Type*} [LinearOrder κ]

omit [LinearOrder κ] in
theorem setOf_concat {α : Type*} (f : α → κ) (xs : List α) (x : α) :
    {k | ∃ a ∈ xs ++ [x], f a = k} = insert (f x) {k | ∃ a ∈ xs, f a = k} := by
  ext k
  rw [Set.mem_insert_iff]
  constructor
  · rintro ⟨a, ha, rfl⟩
    rcases List.mem_append.mp ha with ha | ha
    · exact .inr ⟨a, ha, rfl⟩
    · exact .inl (by rw [List.mem_singleton.mp ha])
  · rintro (rfl | ⟨a, ha, rfl⟩)
    · exact ⟨x, List.mem_append_right _ (List.mem_singleton.mpr rfl), rfl⟩
    · exact ⟨a, List.mem_append_left _ ha, rfl⟩

structure Smallest (L : ℕ) (V : Set κ) (l : List κ) : Prop where
  sorted : l.Pairwise (· < ·)
  mem : ∀ x ∈ l, x ∈ V
  length_le : l.length ≤ L
  out : ∀ v ∈ V, v ∉ l → l.length = L ∧ ∀ x ∈ l, x < v

namespace Smallest

variable {L p : ℕ} {V : Set κ} {l l' : List κ} {x : κ}

theorem nil (L : ℕ) : Smallest L (∅ : Set κ) [] where
  sorted := List.Pairwise.nil
  mem := by simp
  length_le := by simp
  out := by simp

theorem insert_of_mem (h : Smallest L V l) (hx : x ∈ l) : Smallest L (insert x V) l := by
  rwa [Set.insert_eq_of_mem (h.mem x hx)]

theorem insert_of_full (h : Smallest L V l) (hfull : l.length = L) (hx : ∀ y ∈ l, y < x) :
    Smallest L (insert x V) l where
  sorted := h.sorted
  mem y hy := Set.mem_insert_of_mem _ (h.mem y hy)
  length_le := h.length_le
  out v hv hvl := by
    rcases Set.mem_insert_iff.mp hv with rfl | hv
    · exact ⟨hfull, hx⟩
    · exact h.out v hv hvl

/-- Putting an element between the smaller and the larger ones keeps the order. -/
theorem sorted_insertAt (hs : l.Pairwise (· < ·)) (hlo : ∀ y ∈ l.take p, y < x)
    (hhi : ∀ y ∈ l.drop p, x < y) : (l.take p ++ x :: l.drop p).Pairwise (· < ·) := by
  rw [List.pairwise_append, List.pairwise_cons]
  refine ⟨hs.take, ⟨hhi, hs.drop⟩, fun a ha b hb => ?_⟩
  rcases List.mem_cons.mp hb with rfl | hb
  · exact hlo a ha
  · exact (hlo a ha).trans (hhi b hb)

/-- In a sorted list what is cut off is above what stays. -/
theorem lt_of_mem_drop (hs : l.Pairwise (· < ·)) {n : ℕ} {a b : κ} (ha : a ∈ l.take n)
    (hb : b ∈ l.drop n) : a < b := by
  rw [← List.take_append_drop n l, List.pairwise_append] at hs
  exact hs.2.2 a ha b hb

/-- Inserting at the right place and cutting at `L`. -/
theorem insertAt (h : Smallest L V l) (hlo : ∀ y ∈ l.take p, y < x)
    (hhi : ∀ y ∈ l.drop p, x < y) :
    Smallest L (insert x V) ((l.take p ++ x :: l.drop p).take L) := by
  have hs := sorted_insertAt h.sorted hlo hhi
  have hmem : ∀ y, y ∈ l.take p ++ x :: l.drop p ↔ y = x ∨ y ∈ l := by
    intro y
    have : y ∈ l ↔ y ∈ l.take p ∨ y ∈ l.drop p := by
      rw [← List.mem_append, List.take_append_drop]
    rw [List.mem_append, List.mem_cons, this]
    tauto
  have hlen : (l.take p ++ x :: l.drop p).length = l.length + 1 := by
    have : (l.take p ++ l.drop p).length = l.length := by rw [List.take_append_drop]
    simp only [List.length_append, List.length_cons] at this ⊢
    omega
  refine ⟨hs.take, fun y hy => ?_, by simp, fun v hv hvl => ?_⟩
  · rcases (hmem y).mp (List.mem_of_mem_take hy) with rfl | hy
    · exact Set.mem_insert _ _
    · exact Set.mem_insert_of_mem _ (h.mem y hy)
  · by_cases hvm : v ∈ l.take p ++ x :: l.drop p
    · -- cut off by the bound
      have hdrop : v ∈ (l.take p ++ x :: l.drop p).drop L := by
        rw [← List.take_append_drop L (l.take p ++ x :: l.drop p), List.mem_append] at hvm
        exact hvm.resolve_left hvl
      have hlong : L < (l.take p ++ x :: l.drop p).length := by
        by_contra hle
        rw [List.drop_eq_nil_of_le (by omega)] at hdrop
        cases hdrop
      exact ⟨by rw [List.length_take]; omega, fun y hy => lt_of_mem_drop hs hy hdrop⟩
    · -- missing before already
      have hv' : v ∈ V ∧ v ∉ l := by
        rw [hmem, not_or] at hvm
        exact ⟨(Set.mem_insert_iff.mp hv).resolve_left hvm.1, hvm.2⟩
      obtain ⟨hfull, hlt⟩ := h.out v hv'.1 hv'.2
      refine ⟨by rw [List.length_take, hlen]; omega, fun y hy => ?_⟩
      rcases (hmem y).mp (List.mem_of_mem_take hy) with rfl | hyl
      · -- the new element stays only if an old one is above it
        have hdrop : l.drop p ≠ [] := by
          intro hnil
          have hp : l.length ≤ p := by simpa using hnil
          rw [hnil, List.take_of_length_le hp, List.take_append_of_le_length (by omega),
            List.take_of_length_le (by omega)] at hy
          exact absurd (hlo y (by rwa [List.take_of_length_le hp])) (lt_irrefl y)
        obtain ⟨z, hz⟩ := List.exists_mem_of_ne_nil _ hdrop
        exact (hhi z hz).trans (hlt z (List.mem_of_mem_drop hz))
      · exact hlt y hyl

/-- When the set is listed, the length is that of the list or the bound. -/
theorem length_eq (h : Smallest L V l) {all : List κ} (hnd : all.Nodup) (hall : ∀ x, x ∈ all ↔ x ∈ V) :
    l.length = min L all.length := by
  have hlnd : l.Nodup := h.sorted.imp fun hlt => hlt.ne
  have hle : l.length ≤ all.length :=
    (List.subperm_of_subset hlnd fun x hx => (hall x).mpr (h.mem x hx)).length_le
  have hbound := h.length_le
  by_cases hmissing : ∃ v ∈ V, v ∉ l
  · obtain ⟨v, hv, hvl⟩ := hmissing
    have := (h.out v hv hvl).1
    omega
  · have hge : all.length ≤ l.length :=
      (List.subperm_of_subset hnd fun x hx =>
        by_contra fun hxl => hmissing ⟨x, (hall x).mp hx, hxl⟩).length_le
    omega

end Smallest

end HiDANN
