import HiDANN.Library.Smallest
import Mathlib.Data.List.TakeWhile
import Mathlib.Data.Prod.Lex
import Mathlib.Tactic.Tauto

/-! `NeighborPriorityQueue`: a bounded list sorted by (distance, id) with a cursor
at its first unexpanded element. The place of a new element is found by
bisection; an element beyond a full list or with an id already there is dropped.
The list holds the smallest elements of everything ever inserted. -/

namespace HiDANN.Search

structure Neighbor (δ : Type*) where
  id : ℕ
  distance : δ
  expanded : Bool

/-- The first `_size` slots of `_data`, the capacity and the cursor. -/
structure NeighborPriorityQueue (δ : Type*) where
  data : List (Neighbor δ)
  capacity : ℕ
  cur : ℕ

variable {δ : Type*} [LinearOrder δ]

namespace Neighbor

/-- `operator<`: by distance, then by id. -/
def lt (a b : Neighbor δ) : Prop := a.distance < b.distance ∨ a.distance = b.distance ∧ a.id < b.id

instance : DecidableRel (lt (δ := δ)) := fun _ _ => instDecidableOr

/-- The pair `operator<` compares. -/
def key (a : Neighbor δ) : δ ×ₗ ℕ := toLex (a.distance, a.id)

theorem lt_iff (a b : Neighbor δ) : a.lt b ↔ a.key < b.key := by
  rw [lt, key, key, Prod.Lex.toLex_lt_toLex]

omit [LinearOrder δ] in
theorem key_inj {a b : Neighbor δ} : a.key = b.key ↔ a.distance = b.distance ∧ a.id = b.id := by
  rw [key, key, toLex_inj, Prod.mk.injEq]

omit [LinearOrder δ] in
@[simp] theorem key_expand (a : Neighbor δ) (e : Bool) :
    ({ a with expanded := e } : Neighbor δ).key = a.key := rfl

end Neighbor

namespace NeighborPriorityQueue

def empty (capacity : ℕ) : NeighborPriorityQueue δ := ⟨[], capacity, 0⟩

def size (q : NeighborPriorityQueue δ) : ℕ := q.data.length

/-- The bisection of `insert`; `none` when the id is met on the way. -/
def bisect (data : List (Neighbor δ)) (nbr : Neighbor δ) : ℕ → ℕ → ℕ → Option ℕ
  | 0, lo, _ => some lo
  | fuel + 1, lo, hi =>
    if lo < hi then
      match data[(lo + hi) / 2]? with
      | none => some lo
      | some m =>
        if nbr.lt m then bisect data nbr fuel lo ((lo + hi) / 2)
        else if m.id = nbr.id then none
        else bisect data nbr fuel ((lo + hi) / 2 + 1) hi
    else some lo

/-- The first test of `insert`: the list is full and ends below the new element. -/
def rejects (q : NeighborPriorityQueue δ) (nbr : Neighbor δ) : Bool :=
  q.size = q.capacity && q.data.getLast?.any fun last => last.lt nbr

/-- The slots from the insertion point on move up by one; the one that leaves
the capacity is no longer part of the list. -/
def insert (q : NeighborPriorityQueue δ) (nbr : Neighbor δ) : NeighborPriorityQueue δ :=
  if q.rejects nbr then q
  else match bisect q.data nbr q.size 0 q.size with
    | none => q
    | some lo =>
      { q with
        data := (q.data.take lo ++ { nbr with expanded := false } :: q.data.drop lo).take q.capacity
        cur := if lo < q.cur then lo else q.cur }

def hasUnexpandedNode (q : NeighborPriorityQueue δ) : Bool := q.cur < q.size

/-- Mark the element at the cursor, move the cursor to the next unexpanded one,
and return the marked element. -/
def closestUnexpanded (q : NeighborPriorityQueue δ) :
    Option (Neighbor δ) × NeighborPriorityQueue δ :=
  match q.data[q.cur]? with
  | none => (none, q)
  | some m =>
    let data := q.data.set q.cur { m with expanded := true }
    (some { m with expanded := true },
      { q with
        data := data
        cur := q.cur + ((data.drop q.cur).takeWhile Neighbor.expanded).length })

def keys (q : NeighborPriorityQueue δ) : List (δ ×ₗ ℕ) := q.data.map Neighbor.key

/-- The cursor is at the first unexpanded element, or behind the last one. -/
structure Cursor (data : List (Neighbor δ)) (cur : ℕ) : Prop where
  le : cur ≤ data.length
  before : ∀ m ∈ data.take cur, m.expanded = true
  at_cur : ∀ m, data[cur]? = some m → m.expanded = false

/-- The representation invariant. -/
structure Valid (q : NeighborPriorityQueue δ) : Prop where
  capacity_pos : 0 < q.capacity
  sorted : q.keys.Pairwise (· < ·)
  length_le : q.data.length ≤ q.capacity
  cur_le : q.cur ≤ q.data.length
  before : ∀ m ∈ q.data.take q.cur, m.expanded = true
  at_cur : ∀ m, q.data[q.cur]? = some m → m.expanded = false

theorem empty_valid {capacity : ℕ} (h : 0 < capacity) :
    (empty capacity : NeighborPriorityQueue δ).Valid where
  capacity_pos := h
  sorted := List.Pairwise.nil
  length_le := Nat.zero_le _
  cur_le := Nat.le_refl _
  before := by simp [empty]
  at_cur := by simp [empty]

/-! ### The cursor -/

section Cursor

variable {data : List (Neighbor δ)} {cur : ℕ}

theorem Valid.cursor {q : NeighborPriorityQueue δ} (h : q.Valid) : Cursor q.data q.cur :=
  ⟨h.cur_le, h.before, h.at_cur⟩

omit [LinearOrder δ] in
/-- A new element takes the cursor back to its own place. -/
theorem Cursor.insertAt (h : Cursor data cur) {nbr : Neighbor δ} (hnbr : nbr.expanded = false)
    {p capacity : ℕ} (hp : p ≤ data.length) (hlen : data.length ≤ capacity) :
    Cursor ((data.take p ++ nbr :: data.drop p).take capacity) (if p < cur then p else cur) := by
  have hle := h.le
  have hlen' : (data.take p ++ nbr :: data.drop p).length = data.length + 1 := by
    simp only [List.length_append, List.length_take, List.length_cons, List.length_drop]
    omega
  constructor
  · rw [List.length_take, hlen']
    split_ifs <;> omega
  · intro m hm
    rw [List.take_take] at hm
    split_ifs at hm with hpc
    · -- before the new element
      rw [min_eq_left (by omega), List.take_append_of_le_length (by simp; omega),
        List.take_take, min_self] at hm
      exact h.before m (List.mem_of_mem_take (by rwa [List.take_take, min_eq_left hpc.le]))
    · rw [min_eq_left (by omega), List.take_append_of_le_length (by simp; omega),
        List.take_take, min_eq_left (by omega)] at hm
      exact h.before m hm
  · intro m hm
    rw [List.getElem?_take] at hm
    split_ifs at hm with hpc hc hcap
    · rw [List.getElem?_append_right (by simp), List.length_take, min_eq_left hp, Nat.sub_self,
        List.getElem?_cons_zero, Option.some.injEq] at hm
      rwa [← hm]
    · rcases Nat.lt_or_ge cur p with hlt | hge
      · rw [List.getElem?_append_left (by simp; omega), List.getElem?_take, if_pos hlt] at hm
        exact h.at_cur m hm
      · obtain rfl : cur = p := by omega
        rw [List.getElem?_append_right (by simp), List.length_take, min_eq_left hp, Nat.sub_self,
          List.getElem?_cons_zero, Option.some.injEq] at hm
        rwa [← hm]

theorem getElem?_takeWhile_length {α : Type*} (p : α → Bool) (l : List α) {a : α}
    (h : l[(l.takeWhile p).length]? = some a) : p a = false := by
  induction l with
  | nil => simp at h
  | cons b l ih =>
    rw [List.takeWhile_cons] at h
    split_ifs at h with hb
    · exact ih (by simpa using h)
    · simp only [List.length_nil, List.getElem?_cons_zero, Option.some.injEq] at h
      rw [← h]
      simpa using hb

omit [LinearOrder δ] in
theorem Cursor.scan (h : Cursor data cur) (m : Neighbor δ) :
    Cursor (data.set cur m) (cur + (((data.set cur m).drop cur).takeWhile Neighbor.expanded).length) := by
  have htw := (List.takeWhile_prefix Neighbor.expanded (l := (data.set cur m).drop cur)).length_le
  have hle := h.le
  rw [List.length_drop, List.length_set] at htw
  constructor
  · rw [List.length_set]
    omega
  · intro a ha
    rw [List.take_add, List.mem_append] at ha
    rcases ha with ha | ha
    · rw [List.take_set_of_le le_rfl] at ha
      exact h.before a ha
    · rw [← List.prefix_iff_eq_take.mp (List.takeWhile_prefix _)] at ha
      exact List.mem_takeWhile_imp ha
  · intro a ha
    rw [← List.getElem?_drop] at ha
    exact getElem?_takeWhile_length _ _ ha

end Cursor

/-! ### Bisection -/

/-- A place between the smaller and the larger keys. -/
structure Splits (data : List (Neighbor δ)) (nbr : Neighbor δ) (p : ℕ) : Prop where
  le : p ≤ data.length
  below : ∀ y ∈ (data.map Neighbor.key).take p, y < nbr.key
  above : ∀ y ∈ (data.map Neighbor.key).drop p, nbr.key < y

theorem le_of_mem_take {κ : Type*} [LinearOrder κ] {l : List κ} (hs : l.Pairwise (· < ·)) {i : ℕ}
    (hi : i < l.length) : ∀ y ∈ l.take (i + 1), y ≤ l[i] := by
  intro y hy
  rw [List.take_succ_eq_append_getElem hi, List.mem_append, List.mem_singleton] at hy
  rcases hy with hy | rfl
  · refine (Smallest.lt_of_mem_drop hs hy ?_).le
    rw [List.drop_eq_getElem_cons hi]
    exact List.mem_cons_self
  · exact le_rfl

theorem le_of_mem_drop {κ : Type*} [LinearOrder κ] {l : List κ} (hs : l.Pairwise (· < ·)) {i : ℕ}
    (hi : i < l.length) : ∀ y ∈ l.drop i, l[i] ≤ y := by
  intro y hy
  rw [List.drop_eq_getElem_cons hi, List.mem_cons] at hy
  rcases hy with rfl | hy
  · exact le_rfl
  · refine (Smallest.lt_of_mem_drop hs (n := i + 1) ?_ hy).le
    rw [List.take_succ_eq_append_getElem hi]
    exact List.mem_append_right _ (List.mem_singleton.mpr rfl)

/-- Bisection keeps the place between its bounds. -/
theorem bisect_spec {data : List (Neighbor δ)} (nbr : Neighbor δ)
    (hs : (data.map Neighbor.key).Pairwise (· < ·)) (fuel lo hi : ℕ) (hf : hi - lo ≤ fuel)
    (hle : lo ≤ hi) (hhi : hi ≤ data.length)
    (hbelow : ∀ y ∈ (data.map Neighbor.key).take lo, y < nbr.key)
    (habove : ∀ y ∈ (data.map Neighbor.key).drop hi, nbr.key < y) :
    match bisect data nbr fuel lo hi with
    | none => ∃ m ∈ data, m.id = nbr.id
    | some p => Splits data nbr p := by
  induction fuel generalizing lo hi with
  | zero =>
    obtain rfl : lo = hi := by omega
    exact ⟨hhi, hbelow, habove⟩
  | succ fuel ih =>
    rw [bisect]
    split_ifs with hlt
    · have hmid : (lo + hi) / 2 < data.length := by omega
      have hmid' : (lo + hi) / 2 < (data.map Neighbor.key).length := by simpa using hmid
      rw [List.getElem?_eq_getElem hmid]
      simp only
      split_ifs with hnm hid
      · refine ih lo ((lo + hi) / 2) (by omega) (by omega) (by omega) hbelow fun y hy => ?_
        have := le_of_mem_drop hs hmid' y hy
        rw [List.getElem_map] at this
        exact ((Neighbor.lt_iff _ _).mp hnm).trans_le this
      · exact ⟨_, List.getElem_mem hmid, hid⟩
      · refine ih ((lo + hi) / 2 + 1) hi (by omega) (by omega) hhi (fun y hy => ?_) habove
        have := le_of_mem_take hs hmid' y hy
        rw [List.getElem_map] at this
        rw [Neighbor.lt_iff, not_lt] at hnm
        refine this.trans_lt (lt_of_le_of_ne hnm fun he => ?_)
        exact hid (Neighbor.key_inj.mp he).2
    · obtain rfl : lo = hi := by omega
      exact ⟨hhi, hbelow, habove⟩

/-! ### Insertion -/

variable {q : NeighborPriorityQueue δ} {nbr : Neighbor δ}

/-- What `insert` can do: drop the element, because its id is there or because
the list is full of smaller ones, or put it at its place. -/
theorem insert_cases (h : q.Valid) (nbr : Neighbor δ) :
    q.insert nbr = q ∧ (∃ m ∈ q.data, m.id = nbr.id) ∨
    q.insert nbr = q ∧ q.data.length = q.capacity ∧ (∀ y ∈ q.keys, y < nbr.key) ∨
    ∃ p, Splits q.data nbr p ∧ p < q.capacity ∧ q.insert nbr =
      { q with
        data := (q.data.take p ++ { nbr with expanded := false } :: q.data.drop p).take q.capacity
        cur := if p < q.cur then p else q.cur } := by
  unfold insert
  split_ifs with hrej
  · refine .inr (.inl ⟨rfl, ?_⟩)
    rw [rejects, Bool.and_eq_true, Option.any_eq_true] at hrej
    obtain ⟨hfull, last, hlast, hlt⟩ := hrej
    have hfull : q.data.length = q.capacity := of_decide_eq_true hfull
    have hlt : last.lt nbr := of_decide_eq_true hlt
    refine ⟨hfull, fun y hy => ?_⟩
    -- nothing in the list is above its last element
    rw [List.getLast?_eq_getElem?] at hlast
    obtain ⟨hi, hget⟩ := List.getElem?_eq_some_iff.mp hlast
    have hcap := h.capacity_pos
    have hall := le_of_mem_take h.sorted (i := q.data.length - 1) (by simpa [keys] using hi) y
      (by rwa [List.take_of_length_le (by simp only [keys, List.length_map]; omega)])
    simp only [keys, List.getElem_map, hget] at hall
    exact hall.trans_lt ((Neighbor.lt_iff _ _).mp hlt)
  · have hb := bisect_spec nbr h.sorted q.size 0 q.size (by omega) (by omega) le_rfl (by simp)
      (by rw [List.drop_eq_nil_of_le (by simp [size])]; simp)
    cases hres : bisect q.data nbr q.size 0 q.size with
    | none =>
      rw [hres] at hb
      exact .inl ⟨rfl, hb⟩
    | some p =>
      rw [hres] at hb
      simp only at hb ⊢
      by_cases hp : p < q.capacity
      · exact .inr (.inr ⟨p, hb, hp, rfl⟩)
      · -- the place is past a full list, which the first test rules out
        exfalso
        have hle := hb.le
        have hlen := h.length_le
        have hcap := h.capacity_pos
        apply hrej
        have hi : q.data.length - 1 < q.data.length := by omega
        rw [rejects, Bool.and_eq_true, Option.any_eq_true]
        have hfull : q.size = q.capacity := by rw [size]; omega
        refine ⟨decide_eq_true hfull, q.data[q.data.length - 1], ?_, ?_⟩
        · rw [List.getLast?_eq_getElem?, List.getElem?_eq_getElem hi]
        · rw [decide_eq_true_eq, Neighbor.lt_iff]
          apply hb.below
          rw [List.take_of_length_le (by simp only [List.length_map]; omega)]
          exact List.mem_map_of_mem (List.getElem_mem hi)

@[simp] theorem insert_capacity (q : NeighborPriorityQueue δ) (nbr : Neighbor δ) :
    (q.insert nbr).capacity = q.capacity := by
  unfold insert
  split_ifs
  · rfl
  · split <;> rfl

omit [LinearOrder δ] in
theorem keys_insertAt (q : NeighborPriorityQueue δ) (nbr : Neighbor δ) (p cur : ℕ) :
    keys { q with
      data := (q.data.take p ++ { nbr with expanded := false } :: q.data.drop p).take q.capacity
      cur := cur } = (q.keys.take p ++ nbr.key :: q.keys.drop p).take q.capacity := by
  simp [keys]

/-- An element after an insertion was there before, or is the new one. -/
theorem mem_insert {m : Neighbor δ} (hm : m ∈ (q.insert nbr).data) :
    m ∈ q.data ∨ m = { nbr with expanded := false } := by
  unfold insert at hm
  split_ifs at hm
  · exact .inl hm
  · split at hm
    · exact .inl hm
    · have hm := List.mem_of_mem_take hm
      rw [List.mem_append, List.mem_cons] at hm
      rcases hm with hm | hm | hm
      · exact .inl (List.mem_of_mem_take hm)
      · exact .inr hm
      · exact .inl (List.mem_of_mem_drop hm)

theorem insert_valid (h : q.Valid) (nbr : Neighbor δ) : (q.insert nbr).Valid := by
  rcases insert_cases h nbr with ⟨he, -⟩ | ⟨he, -⟩ | ⟨p, hs, hp, he⟩
  · rwa [he]
  · rwa [he]
  have hnew : ({ nbr with expanded := false } : Neighbor δ).expanded = false := rfl
  have hcursor := h.cursor.insertAt hnew hs.le h.length_le
  rw [he]
  refine ⟨h.capacity_pos, ?_, by simp, hcursor.le, hcursor.before, hcursor.at_cur⟩
  rw [keys_insertAt]
  exact (Smallest.sorted_insertAt h.sorted hs.below hs.above).take

/-- Insertion keeps the list the smallest elements of everything inserted. -/
theorem insert_smallest (nbr : Neighbor δ) {V : Set (δ ×ₗ ℕ)} (h : q.Valid)
    (hV : Smallest q.capacity V q.keys)
    (hdist : ∀ m ∈ q.data, m.id = nbr.id → m.distance = nbr.distance) :
    Smallest q.capacity (Insert.insert nbr.key V) (q.insert nbr).keys := by
  rcases insert_cases h nbr with ⟨he, m, hm, hid⟩ | ⟨he, hfull, hlt⟩ | ⟨p, hs, -, he⟩
  · rw [he]
    refine hV.insert_of_mem ?_
    rw [← Neighbor.key_inj.mpr ⟨hdist m hm hid, hid⟩]
    exact List.mem_map_of_mem hm
  · rw [he]
    exact hV.insert_of_full (by simpa [keys] using hfull) hlt
  · rw [he, keys_insertAt]
    exact hV.insertAt hs.below hs.above

/-! ### Expanding -/

omit [LinearOrder δ] in
theorem keys_set {i : ℕ} {m : Neighbor δ} (hget : q.data[i]? = some m) (e : Bool) :
    (q.data.set i { m with expanded := e }).map Neighbor.key = q.keys := by
  obtain ⟨hi, hget⟩ := List.getElem?_eq_some_iff.mp hget
  rw [List.map_set, Neighbor.key_expand, ← hget, keys]
  conv_lhs => rw [← List.getElem_map (f := Neighbor.key) (h := by simpa using hi)]
  exact List.set_getElem_self _

/-- Taking the closest unexpanded element marks it and nothing else. -/
theorem closestUnexpanded_spec (h : q.Valid) (hne : q.hasUnexpandedNode) :
    ∃ m, q.data[q.cur]? = some m ∧ m.expanded = false ∧
      (closestUnexpanded q).1 = some { m with expanded := true } ∧
      (closestUnexpanded q).2.data = q.data.set q.cur { m with expanded := true } ∧
      (closestUnexpanded q).2.capacity = q.capacity ∧
      (closestUnexpanded q).2.keys = q.keys ∧ (closestUnexpanded q).2.Valid := by
  have hcur : q.cur < q.data.length := of_decide_eq_true hne
  have hget := List.getElem?_eq_getElem hcur
  have hkeys := keys_set hget true
  have heq : closestUnexpanded q = (some { q.data[q.cur] with expanded := true },
      { q with
        data := q.data.set q.cur { q.data[q.cur] with expanded := true }
        cur := q.cur + (((q.data.set q.cur { q.data[q.cur] with expanded := true }).drop
          q.cur).takeWhile Neighbor.expanded).length }) := by
    rw [closestUnexpanded, hget]
  have hcursor := h.cursor.scan { q.data[q.cur] with expanded := true }
  rw [heq]
  refine ⟨_, hget, h.at_cur _ hget, rfl, rfl, rfl, hkeys, h.capacity_pos, ?_, ?_, hcursor.le,
    hcursor.before, hcursor.at_cur⟩
  · exact (congrArg (List.Pairwise (· < ·)) hkeys).mpr h.sorted
  · exact (List.length_set ..).trans_le h.length_le

end NeighborPriorityQueue

end HiDANN.Search
