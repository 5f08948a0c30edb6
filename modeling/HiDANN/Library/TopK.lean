import Mathlib.Data.List.Nodup
import Mathlib.Data.List.Perm.Subperm
import Mathlib.Order.Lattice

/-! Selecting the `K` elements of least key with a bounded max-heap, whose front is
replaced by an element of smaller key. Which of several elements of greatest key is at
the front is up to the heap, so the selection is determined by the elements only when
their keys are distinct. Whatever the heap does with ties, an element that is followed
only by elements of at least its key is selected before any of these. -/

namespace HiDANN.TopK

variable {α κ : Type*} [LinearOrder κ]

/-- The heap algorithms of a standard library on a vector, as they are documented:
`push` appends an element and restores the heap, `pop` takes the front away. -/
structure HeapOps (key : α → κ) where
  IsHeap : List α → Prop
  push : List α → α → List α
  pop : List α → List α
  isHeap_nil : IsHeap []
  isHeap_push : ∀ h a, IsHeap h → IsHeap (push h a)
  push_perm : ∀ h a, IsHeap h → (push h a).Perm (a :: h)
  le_front : ∀ a h, IsHeap (a :: h) → ∀ b ∈ h, key b ≤ key a
  isHeap_pop : ∀ a h, IsHeap (a :: h) → IsHeap (pop (a :: h))
  pop_perm : ∀ a h, IsHeap (a :: h) → (pop (a :: h)).Perm h

/-- A heap is one for every coarser key. -/
def HeapOps.coarsen {κ' : Type*} [LinearOrder κ'] {key : α → κ} {key' : α → κ'} (ops : HeapOps key)
    (hle : ∀ a b, key a ≤ key b → key' a ≤ key' b) : HeapOps key' where
  IsHeap := ops.IsHeap
  push := ops.push
  pop := ops.pop
  isHeap_nil := ops.isHeap_nil
  isHeap_push := ops.isHeap_push
  push_perm := ops.push_perm
  le_front a h hh b hb := hle b a (ops.le_front a h hh b hb)
  isHeap_pop := ops.isHeap_pop
  pop_perm := ops.pop_perm

variable {key : α → κ} (ops : HeapOps key) (K : ℕ)

/-- Take the front away until the heap is empty, for as many elements as there are. -/
def drain : ℕ → List α → List α
  | 0, _ => []
  | _ + 1, [] => []
  | n + 1, front :: rest => front :: drain n (ops.pop (front :: rest))

/-- Fill the heap up to `K` elements, then replace its front by smaller ones. -/
def step (heap : List α) (cur : α) : List α :=
  if heap.length < K then ops.push heap cur
  else match heap with
    | [] => []
    | front :: rest =>
      if key cur < key front then ops.push (ops.pop (front :: rest)) cur else front :: rest

def select (xs : List α) : List α := xs.foldl (step ops K) []

/-- The heap after some elements: `min K` of them, and no other one has a smaller key. -/
structure Selected (done heap : List α) : Prop where
  isHeap : ops.IsHeap heap
  length_eq : heap.length = min K done.length
  exists_rest : ∃ rest, (heap ++ rest).Perm done ∧ ∀ a ∈ heap, ∀ b ∈ rest, key a ≤ key b

variable {ops K} {done heap : List α} {cur : α}

theorem Selected.nil : Selected ops K [] [] :=
  ⟨ops.isHeap_nil, by simp, [], List.Perm.refl _, by simp⟩

theorem Selected.push (h : Selected ops K done heap) (hlt : heap.length < K) :
    Selected ops K (done ++ [cur]) (ops.push heap cur) := by
  obtain ⟨rest, hperm, -⟩ := h.exists_rest
  have hlen := h.length_eq
  have hsum : heap.length + rest.length = done.length := by
    rw [← List.length_append]
    exact hperm.length_eq
  obtain rfl : rest = [] := List.length_eq_zero_iff.mp (by omega)
  have hpush := ops.push_perm heap cur h.isHeap
  refine ⟨ops.isHeap_push _ _ h.isHeap, ?_, [], ?_, by simp⟩
  · rw [hpush.length_eq, List.length_cons, List.length_append, List.length_singleton]
    omega
  · rw [List.append_nil] at hperm ⊢
    exact hpush.trans ((hperm.cons cur).trans (List.perm_append_singleton cur done).symm)

/-- A full heap passes over an element that is below no element of the heap. -/
theorem Selected.skip (h : Selected ops K done heap) (hfull : K ≤ heap.length)
    (hle : ∀ a ∈ heap, key a ≤ key cur) : Selected ops K (done ++ [cur]) heap := by
  obtain ⟨rest, hperm, hrest⟩ := h.exists_rest
  have hlen := h.length_eq
  refine ⟨h.isHeap, ?_, rest ++ [cur], ?_, ?_⟩
  · rw [List.length_append, List.length_singleton]
    omega
  · rw [← List.append_assoc]
    exact hperm.append_right [cur]
  · intro a ha b hb
    rcases List.mem_append.mp hb with hb | hb
    · exact hrest a ha b hb
    · rw [List.mem_singleton.mp hb]
      exact hle a ha

/-- A full heap gives its front for a smaller element. -/
theorem Selected.replace {front : α} {tl : List α} (h : Selected ops K done (front :: tl))
    (hfull : K ≤ (front :: tl).length) (hcur : key cur < key front) :
    Selected ops K (done ++ [cur]) (ops.push (ops.pop (front :: tl)) cur) := by
  obtain ⟨rest, hperm, hle⟩ := h.exists_rest
  have hlen := h.length_eq
  have hpush := (ops.push_perm _ cur (ops.isHeap_pop front tl h.isHeap)).trans
    ((ops.pop_perm front tl h.isHeap).cons cur)
  refine ⟨ops.isHeap_push _ _ (ops.isHeap_pop front tl h.isHeap), ?_, front :: rest, ?_, ?_⟩
  · rw [hpush.length_eq, List.length_append, List.length_singleton]
    simp only [List.length_cons] at hlen hfull ⊢
    omega
  · calc (ops.push (ops.pop (front :: tl)) cur ++ front :: rest).Perm
            (cur :: tl ++ front :: rest) := hpush.append_right _
        _ |>.Perm (cur :: (front :: tl ++ rest)) := List.perm_middle.cons cur
        _ |>.Perm (cur :: done) := hperm.cons cur
        _ |>.Perm (done ++ [cur]) := (List.perm_append_singleton cur done).symm
  · intro a ha b hb
    have hfb : key front ≤ key b := by
      rcases List.mem_cons.mp hb with rfl | hb
      · exact le_rfl
      · exact hle front (by simp) b hb
    refine le_trans ?_ hfb
    rcases List.mem_cons.mp (hpush.mem_iff.mp ha) with rfl | ha
    · exact hcur.le
    · exact ops.le_front front tl h.isHeap a ha

theorem Selected.step (h : Selected ops K done heap) (cur : α) :
    Selected ops K (done ++ [cur]) (TopK.step ops K heap cur) := by
  unfold TopK.step
  split_ifs with hlt
  · exact h.push hlt
  · have hfull : K ≤ heap.length := Nat.le_of_not_lt hlt
    cases heap with
    | nil => exact h.skip hfull (by simp)
    | cons front tl =>
      dsimp only
      split_ifs with hcur
      · exact h.replace hfull hcur
      · refine h.skip hfull fun a ha => le_trans ?_ (not_lt.mp hcur)
        rcases List.mem_cons.mp ha with rfl | ha
        · exact le_rfl
        · exact ops.le_front front tl h.isHeap a ha

theorem Selected.foldl (h : Selected ops K done heap) (xs : List α) :
    Selected ops K (done ++ xs) (xs.foldl (TopK.step ops K) heap) := by
  induction xs generalizing done heap with
  | nil => rwa [List.append_nil]
  | cons x xs ih =>
    have hx := ih (h.step x)
    rwa [List.append_assoc, List.singleton_append] at hx

variable (ops K) in
theorem select_selected (xs : List α) : Selected ops K xs (select ops K xs) :=
  Selected.nil.foldl xs

theorem Selected.mem (h : Selected ops K done heap) {a : α} (ha : a ∈ heap) : a ∈ done := by
  obtain ⟨rest, hperm, -⟩ := h.exists_rest
  exact hperm.mem_iff.mp (List.mem_append_left _ ha)

theorem Selected.nodup (h : Selected ops K done heap) (hnd : done.Nodup) : heap.Nodup := by
  obtain ⟨rest, hperm, -⟩ := h.exists_rest
  exact (List.nodup_append.mp (hperm.nodup_iff.mpr hnd)).1

theorem drain_perm {n : ℕ} (hn : heap.length = n) (hheap : ops.IsHeap heap) :
    (drain ops n heap).Perm heap := by
  induction n generalizing heap with
  | zero => rw [List.length_eq_zero_iff.mp hn, drain]
  | succ n ih =>
    cases heap with
    | nil => exact absurd hn (by simp)
    | cons front rest =>
      have hpop := ops.pop_perm front rest hheap
      have hlen : (ops.pop (front :: rest)).length = n := by
        rw [hpop.length_eq]
        exact Nat.succ.inj hn
      rw [drain]
      exact ((ih hlen (ops.isHeap_pop front rest hheap)).trans hpop).cons front

/-- The elements leave a heap with the largest first. -/
theorem drain_decreasing {n : ℕ} (hn : heap.length = n) (hheap : ops.IsHeap heap) :
    (drain ops n heap).Pairwise fun a b => key b ≤ key a := by
  induction n generalizing heap with
  | zero => exact List.Pairwise.nil
  | succ n ih =>
    cases heap with
    | nil => exact List.Pairwise.nil
    | cons front rest =>
      have hpop := ops.pop_perm front rest hheap
      have hrest := ops.isHeap_pop front rest hheap
      have hlen : (ops.pop (front :: rest)).length = n := by
        rw [hpop.length_eq]
        exact Nat.succ.inj hn
      rw [drain]
      refine List.pairwise_cons.mpr ⟨fun b hb => ?_, ih hlen hrest⟩
      have hmem := ((drain_perm hlen hrest).trans hpop).mem_iff.mp hb
      exact ops.le_front front rest hheap b hmem

/-! ### Elements followed by larger ones -/

/-- An element leaves the heap only for one of smaller key. -/
theorem mem_foldl_step (h : Selected ops K done heap) {q : α} (hq : q ∈ heap) (xs : List α)
    (hle : ∀ r ∈ xs, key q ≤ key r) : q ∈ xs.foldl (step ops K) heap := by
  induction xs generalizing done heap with
  | nil => exact hq
  | cons x xs ih =>
    refine ih (h.step x) ?_ fun r hr => hle r (by simp [hr])
    unfold step
    split_ifs
    · rw [(ops.push_perm _ _ h.isHeap).mem_iff]
      exact List.mem_cons_of_mem _ hq
    · cases heap with
      | nil => exact hq
      | cons front tl =>
        dsimp only
        split_ifs with hx
        · have hmem := (ops.push_perm _ x (ops.isHeap_pop front tl h.isHeap)).trans
            ((ops.pop_perm front tl h.isHeap).cons x)
          rw [hmem.mem_iff]
          rcases List.mem_cons.mp hq with rfl | hq
          · exact absurd hx (not_lt.mpr (hle x (by simp)))
          · exact List.mem_cons_of_mem _ hq
        · exact hq

/-- An element enters the heap, or the heap is full and has nothing larger. -/
theorem mem_step_or (h : Selected ops K done heap) (cur : α) : cur ∈ step ops K heap cur ∨
    step ops K heap cur = heap ∧ K ≤ heap.length ∧ ∀ a ∈ heap, key a ≤ key cur := by
  unfold step
  split_ifs with hlt
  · exact .inl ((ops.push_perm _ _ h.isHeap).mem_iff.mpr List.mem_cons_self)
  · cases heap with
    | nil => exact .inr ⟨rfl, Nat.le_of_not_lt hlt, by simp⟩
    | cons front tl =>
      dsimp only
      split_ifs with hcur
      · exact .inl ((ops.push_perm _ _ (ops.isHeap_pop front tl h.isHeap)).mem_iff.mpr
          List.mem_cons_self)
      · refine .inr ⟨rfl, Nat.le_of_not_lt hlt, fun a ha => ?_⟩
        rcases List.mem_cons.mp ha with rfl | ha
        · exact not_lt.mp hcur
        · exact (ops.le_front front tl h.isHeap a ha).trans (not_lt.mp hcur)

/-- A full heap ignores elements that are not below any of its own. -/
theorem foldl_step_full (hfull : K ≤ heap.length) (xs : List α)
    (hle : ∀ a ∈ heap, ∀ r ∈ xs, key a ≤ key r) : xs.foldl (step ops K) heap = heap := by
  induction xs with
  | nil => rfl
  | cons x xs ih =>
    have hx : step ops K heap x = heap := by
      unfold step
      rw [if_neg (Nat.not_lt.mpr hfull)]
      cases heap with
      | nil => rfl
      | cons front tl => exact if_neg (not_lt.mpr (hle front (by simp) x (by simp)))
    rw [List.foldl_cons, hx]
    exact ih fun a ha r hr => hle a ha r (by simp [hr])

/-- If one of the elements after `q` is selected, none of which is smaller, then so is `q`. -/
theorem mem_select_of_later {before after : List α} {p q : α}
    (hnd : (before ++ q :: after).Nodup) (hle : ∀ r ∈ after, key q ≤ key r) (hp : p ∈ after)
    (hsel : p ∈ select ops K (before ++ q :: after)) :
    q ∈ select ops K (before ++ q :: after) := by
  have hbefore := select_selected ops K before
  rw [select, List.foldl_append, List.foldl_cons] at hsel ⊢
  rw [← select] at hsel ⊢
  rcases mem_step_or hbefore q with hq | ⟨hstep, hfull, hmax⟩
  · exact mem_foldl_step (hbefore.step q) hq after hle
  · -- the heap was full and is never touched again
    rw [hstep, foldl_step_full hfull after fun a ha r hr => (hmax a ha).trans (hle r hr)] at hsel
    exact absurd rfl ((List.nodup_append.mp hnd).2.2 p (hbefore.mem hsel) p
      (List.mem_cons_of_mem _ hp))

/-- Behind a sorted part of the elements only what does not fit after it can be selected: if
the selection reaches into `tail` it holds all of `mid`. -/
theorem length_tail_le {before mid tail late : List α} (hnd : (before ++ (mid ++ tail)).Nodup)
    (hs : (mid ++ tail).Pairwise fun a b => key a ≤ key b) (hlate : late.Nodup)
    (htail : late ⊆ tail) (hsel : late ⊆ select ops K (before ++ (mid ++ tail))) :
    late.length ≤ K - mid.length := by
  cases late with
  | nil => exact Nat.zero_le _
  | cons p late =>
    have hmid : mid ⊆ select ops K (before ++ (mid ++ tail)) := by
      intro q hq
      obtain ⟨m₁, m₂, rfl⟩ := List.append_of_mem hq
      have hsplit : before ++ (m₁ ++ q :: m₂ ++ tail) = before ++ m₁ ++ q :: (m₂ ++ tail) := by
        simp
      have hlater : ∀ r ∈ m₂ ++ tail, key q ≤ key r := by
        rw [List.append_assoc, List.pairwise_append, List.cons_append, List.pairwise_cons] at hs
        exact hs.2.1.1
      rw [hsplit] at hnd hsel ⊢
      exact mem_select_of_later hnd hlater (List.mem_append_right _ (htail List.mem_cons_self))
        (hsel List.mem_cons_self)
    have hdisj := List.nodup_append.mp (List.nodup_append.mp hnd).2.1
    have hboth : (mid ++ p :: late).Nodup :=
      List.nodup_append.mpr ⟨hdisj.1, hlate, fun a ha b hb => hdisj.2.2 a ha b (htail hb)⟩
    have hlen := (List.subperm_of_subset hboth (List.append_subset.mpr ⟨hmid, hsel⟩)).length_le
    rw [List.length_append, (select_selected ops K _).length_eq] at hlen
    omega

/-! ### Distinct keys -/

/-- With distinct keys the elements of least key are determined. -/
theorem Selected.perm (h : Selected ops K done heap) (hnd : done.Nodup)
    (hkey : ∀ a ∈ done, ∀ b ∈ done, key a = key b → a = b) {least rest : List α}
    (hperm : (least ++ rest).Perm done) (hlen : least.length = min K done.length)
    (hle : ∀ a ∈ least, ∀ b ∈ rest, key a ≤ key b) : heap.Perm least := by
  obtain ⟨out, hout, hmin⟩ := h.exists_rest
  have hleast : least.Nodup := (List.nodup_append.mp (hperm.nodup_iff.mpr hnd)).1
  have hsub : heap ⊆ least := by
    intro a ha
    by_contra hna
    have ha' := h.mem ha
    have harest : a ∈ rest := by
      rcases List.mem_append.mp (hperm.mem_iff.mpr ha') with hm | hm
      · exact absurd hm hna
      · exact hm
    -- something of `least` is left out in its place
    have hex : ∃ b ∈ least, b ∉ heap := by
      by_contra hall
      push Not at hall
      have hcons : (a :: least).Nodup := List.nodup_cons.mpr ⟨hna, hleast⟩
      have hle' := (List.subperm_of_subset hcons
        (List.cons_subset.mpr ⟨ha, fun b hb => hall b hb⟩)).length_le
      rw [List.length_cons, hlen, h.length_eq] at hle'
      omega
    obtain ⟨b, hb, hbn⟩ := hex
    have hb' : b ∈ done := hperm.mem_iff.mp (List.mem_append_left _ hb)
    have hbout : b ∈ out := by
      rcases List.mem_append.mp (hout.mem_iff.mpr hb') with hm | hm
      · exact absurd hm hbn
      · exact hm
    have heq := hkey a ha' b hb' (le_antisymm (hmin a ha b hbout) (hle b hb a harest))
    exact hna (heq ▸ hb)
  exact (List.subperm_of_subset (h.nodup hnd) hsub).perm_of_length_le
    (Nat.le_of_eq (hlen.trans h.length_eq.symm))

/-! ### A heap in decreasing order -/

section Decreasing

variable (key : α → κ)

def insertDecreasing (a : α) : List α → List α
  | [] => [a]
  | b :: h => if key b ≤ key a then a :: b :: h else b :: insertDecreasing a h

/-- The front of a decreasing vector is its maximum, and so for what remains without it. -/
def Decreasing (h : List α) : Prop := h.Pairwise fun a b => key b ≤ key a

theorem decreasing_nil : Decreasing key [] := List.Pairwise.nil

theorem insertDecreasing_perm (h : List α) (a : α) : (insertDecreasing key a h).Perm (a :: h) := by
  induction h with
  | nil => exact List.Perm.refl _
  | cons b h ih =>
    rw [insertDecreasing]
    split_ifs
    · exact List.Perm.refl _
    · exact (ih.cons b).trans (List.Perm.swap a b h)

theorem insertDecreasing_decreasing (h : List α) (a : α) (hh : Decreasing key h) :
    Decreasing key (insertDecreasing key a h) := by
  induction h with
  | nil => exact List.pairwise_singleton _ _
  | cons b h ih =>
    obtain ⟨hb, hh⟩ := List.pairwise_cons.mp hh
    rw [insertDecreasing]
    split_ifs with hba
    · refine List.pairwise_cons.mpr ⟨fun c hc => ?_, List.pairwise_cons.mpr ⟨hb, hh⟩⟩
      rcases List.mem_cons.mp hc with rfl | hc
      · exact hba
      · exact (hb c hc).trans hba
    · refine List.pairwise_cons.mpr ⟨fun c hc => ?_, ih hh⟩
      rcases List.mem_cons.mp ((insertDecreasing_perm key h a).mem_iff.mp hc) with rfl | hc
      · exact (not_le.mp hba).le
      · exact hb c hc

theorem push_decreasing_perm (h : List α) (a : α) (_ : Decreasing key h) :
    (insertDecreasing key a h).Perm (a :: h) := insertDecreasing_perm key h a

theorem le_front_decreasing (a : α) (h : List α) (hh : Decreasing key (a :: h)) :
    ∀ b ∈ h, key b ≤ key a := (List.pairwise_cons.mp hh).1

theorem tail_decreasing (a : α) (h : List α) (hh : Decreasing key (a :: h)) :
    Decreasing key (a :: h).tail := (List.pairwise_cons.mp hh).2

theorem tail_perm (a : α) (h : List α) (_ : Decreasing key (a :: h)) :
    (a :: h).tail.Perm h := List.Perm.refl _

def decreasingHeap : HeapOps key where
  IsHeap := Decreasing key
  push h a := insertDecreasing key a h
  pop := List.tail
  isHeap_nil := decreasing_nil key
  isHeap_push := insertDecreasing_decreasing key
  push_perm := push_decreasing_perm key
  le_front := le_front_decreasing key
  isHeap_pop := tail_decreasing key
  pop_perm := tail_perm key

end Decreasing

end HiDANN.TopK
