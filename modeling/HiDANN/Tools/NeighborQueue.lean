import HiDANN.Library.Smallest
import HiDANN.Search.Queue

/-! The queue of the quality evaluator. It compares distances only: a new element goes
behind all that are as near, and one at a distance that is there already is dropped when
the list is full. So the list is ordered by the distance and then by the time of the
insertion, and in that order it keeps the smallest elements. -/

namespace HiDANN.Tools

open Search (Neighbor)

/-! ### The program -/

structure NeighborQueue (δ : Type*) where
  data : List (Neighbor δ)
  capacity : ℕ
  cur : ℕ

namespace NeighborQueue

def empty {δ : Type*} (capacity : ℕ) : NeighborQueue δ := ⟨[], capacity, 0⟩

variable {δ : Type*} [LinearOrder δ]

/-- The bisection of `insert`: behind the last element that is not farther. -/
def upperBound (data : List (Neighbor δ)) (nbr : Neighbor δ) : ℕ → ℕ → ℕ → ℕ
  | 0, lo, _ => lo
  | fuel + 1, lo, hi =>
    if lo < hi then
      let mid := lo + (hi - lo) / 2
      match data[mid]? with
      | none => lo
      | some m =>
        if nbr.distance < m.distance then upperBound data nbr fuel lo mid
        else upperBound data nbr fuel (mid + 1) hi
    else lo

def insert (q : NeighborQueue δ) (distance : δ) (id : ℕ) : NeighborQueue δ :=
  let nbr : Neighbor δ := ⟨id, distance, false⟩
  if q.data.length = q.capacity ∧ q.data.getLast?.any fun back => back.distance < nbr.distance then q
  else if q.data.any fun x => x.id = id then q
  else
    let lo := upperBound q.data nbr q.data.length 0 q.data.length
    let data := q.data.take lo ++ nbr :: q.data.drop lo
    { q with
      data := if q.capacity < data.length then data.dropLast else data
      cur := if lo < q.cur then lo else q.cur }

def hasUnexpandedNode (q : NeighborQueue δ) : Bool := q.cur < q.data.length

/-- `none` when the cursor is behind the last element. -/
def closestUnexpanded (q : NeighborQueue δ) : Option (Neighbor δ × NeighborQueue δ) :=
  match q.data[q.cur]? with
  | none => none
  | some m =>
    let res : Neighbor δ := { m with expanded := true }
    let data := q.data.set q.cur res
    some (res,
      { q with
        data := data
        cur := q.cur + ((data.drop q.cur).takeWhile Neighbor.expanded).length })

/-! ### Bisection -/

variable {data : List (Neighbor δ)}

/-- A place behind what is not farther and before what is. -/
structure Splits (data : List (Neighbor δ)) (distance : δ) (p : ℕ) : Prop where
  le : p ≤ data.length
  below : ∀ m ∈ data.take p, m.distance ≤ distance
  above : ∀ m ∈ data.drop p, distance < m.distance

theorem upperBound_spec (nbr : Neighbor δ) (hs : data.Pairwise fun a b => a.distance ≤ b.distance)
    (fuel lo hi : ℕ) (hf : hi - lo ≤ fuel) (hle : lo ≤ hi) (hhi : hi ≤ data.length)
    (hbelow : ∀ m ∈ data.take lo, m.distance ≤ nbr.distance)
    (habove : ∀ m ∈ data.drop hi, nbr.distance < m.distance) :
    Splits data nbr.distance (upperBound data nbr fuel lo hi) := by
  induction fuel generalizing lo hi with
  | zero =>
    obtain rfl : lo = hi := by omega
    exact ⟨hhi, hbelow, habove⟩
  | succ fuel ih =>
    rw [upperBound]
    split_ifs with hlt
    · have hmid : lo + (hi - lo) / 2 < data.length := by omega
      have hsplit := hs
      rw [← List.take_append_drop (lo + (hi - lo) / 2) data, List.pairwise_append,
        List.drop_eq_getElem_cons hmid, List.pairwise_cons] at hsplit
      obtain ⟨-, ⟨hafter, -⟩, hbefore⟩ := hsplit
      dsimp only
      rw [List.getElem?_eq_getElem hmid]
      dsimp only
      split_ifs with hnear
      · refine ih lo (lo + (hi - lo) / 2) (by omega) (by omega) (by omega) hbelow fun m hm => ?_
        rw [List.drop_eq_getElem_cons hmid, List.mem_cons] at hm
        rcases hm with rfl | hm
        · exact hnear
        · exact hnear.trans_le (hafter m hm)
      · refine ih (lo + (hi - lo) / 2 + 1) hi (by omega) (by omega) hhi (fun m hm => ?_) habove
        rw [List.take_succ_eq_append_getElem hmid, List.mem_append, List.mem_singleton] at hm
        rcases hm with hm | rfl
        · exact (hbefore m hm _ List.mem_cons_self).trans (not_lt.mp hnear)
        · exact not_lt.mp hnear
    · obtain rfl : lo = hi := by omega
      exact ⟨hhi, hbelow, habove⟩

/-! ### Insertion -/

variable {q : NeighborQueue δ}

omit [LinearOrder δ] in
theorem cut_eq {l : List (Neighbor δ)} {capacity : ℕ} (h : l.length ≤ capacity + 1) :
    (if capacity < l.length then l.dropLast else l) = l.take capacity := by
  split_ifs with hlt
  · rw [List.dropLast_eq_take]
    congr 1
    omega
  · exact (List.take_of_length_le (Nat.le_of_not_lt hlt)).symm

/-- A new id goes to its place, and the list is cut at its capacity. A list that is full of
nearer elements stays as it is, which is the same. -/
theorem insert_eq (hs : q.data.Pairwise fun a b => a.distance ≤ b.distance)
    (hlen : q.data.length ≤ q.capacity) (hcur : q.cur ≤ q.data.length)
    (distance : δ) {id : ℕ} (hid : ∀ m ∈ q.data, m.id ≠ id) :
    ∃ p, Splits q.data distance p ∧ q.insert distance id =
      { q with
        data := (q.data.take p ++ ⟨id, distance, false⟩ :: q.data.drop p).take q.capacity
        cur := if p < q.cur then p else q.cur } := by
  rw [insert]
  dsimp only
  by_cases hfull : q.data.length = q.capacity ∧
      q.data.getLast?.any (fun back => back.distance < distance) = true
  · rw [if_pos hfull]
    obtain ⟨hfull, hback⟩ := hfull
    rw [Option.any_eq_true] at hback
    obtain ⟨back, hlast, hlt⟩ := hback
    have hlt : back.distance < distance := of_decide_eq_true hlt
    refine ⟨q.data.length, ⟨le_rfl, fun m hm => ?_, by simp⟩, ?_⟩
    · -- nothing is farther than the last element
      rw [List.take_length] at hm
      have hne : q.data ≠ [] := List.ne_nil_of_mem hm
      rw [List.getLast?_eq_some_getLast hne] at hlast
      have hsplit := hs
      rw [← List.dropLast_append_getLast hne, List.pairwise_append] at hsplit
      rw [← List.dropLast_append_getLast hne, List.mem_append, List.mem_singleton] at hm
      obtain rfl := Option.some.inj hlast
      rcases hm with hm | rfl
      · exact (hsplit.2.2 m hm _ (List.mem_singleton.mpr rfl)).trans hlt.le
      · exact hlt.le
    · rw [if_neg (by omega), List.take_length, List.take_append_of_le_length hfull.ge,
        List.take_of_length_le hfull.le]
  · have hdup : ¬ (q.data.any fun x => x.id = id) = true := by
      intro hany
      obtain ⟨m, hm, heq⟩ := List.any_eq_true.mp hany
      exact hid m hm (of_decide_eq_true heq)
    rw [if_neg hfull, if_neg hdup]
    have hsplits := upperBound_spec ⟨id, distance, false⟩ hs q.data.length 0 q.data.length (by omega)
      (Nat.zero_le _) le_rfl (by simp) (by simp)
    refine ⟨_, hsplits, ?_⟩
    rw [cut_eq]
    rw [List.length_append, List.length_take, List.length_cons, List.length_drop]
    omega

/-! ### The smallest elements -/

/-- An element with its rank in the order of insertion. -/
def rankKey (dist : ℕ → δ) (order : List ℕ) (id : ℕ) : δ ×ₗ ℕ := toLex (dist id, order.idxOf id)

/-- What the queue holds of the nodes that have been inserted. -/
structure Holds (dist : ℕ → δ) (L : ℕ) (order : List ℕ) (q : NeighborQueue δ) : Prop where
  capacity_eq : q.capacity = L
  distance_eq : ∀ m ∈ q.data, m.distance = dist m.id
  inserted : ∀ m ∈ q.data, m.id ∈ order
  smallest : Smallest L {k | ∃ id ∈ order, rankKey dist order id = k}
    (q.data.map fun m => rankKey dist order m.id)
  cursor : Search.NeighborPriorityQueue.Cursor q.data q.cur

variable {dist : ℕ → δ} {L : ℕ} {order : List ℕ}

theorem holds_empty (dist : ℕ → δ) (L : ℕ) : Holds dist L [] (empty L) where
  capacity_eq := rfl
  distance_eq m hm := absurd hm List.not_mem_nil
  inserted m hm := absurd hm List.not_mem_nil
  smallest := by
    have hempty : {k | ∃ id ∈ [], rankKey dist [] id = k} = ∅ := by simp
    rw [hempty]
    exact Smallest.nil L
  cursor := ⟨le_rfl, by simp [empty], by simp [empty]⟩

theorem Holds.sorted (h : Holds dist L order q) :
    q.data.Pairwise fun a b => a.distance ≤ b.distance := by
  have hs := List.pairwise_map.mp h.smallest.sorted
  refine hs.imp_of_mem fun {a b} ha hb hab => ?_
  rw [h.distance_eq a ha, h.distance_eq b hb]
  exact (Prod.Lex.le_iff'.mp hab.le).1

theorem Holds.length_le (h : Holds dist L order q) : q.data.length ≤ L := by
  have hle := h.smallest.length_le
  rwa [List.length_map] at hle

omit [LinearOrder δ] in
theorem rankKey_append (dist : ℕ → δ) {id : ℕ} (hid : id ∈ order) (later : List ℕ) :
    rankKey dist (order ++ later) id = rankKey dist order id := by
  rw [rankKey, rankKey, List.idxOf_append_of_mem hid]

theorem Holds.insert_eq (h : Holds dist L order q) {u : ℕ} (hu : u ∉ order) :
    ∃ p, Splits q.data (dist u) p ∧ q.insert (dist u) u =
      { q with
        data := (q.data.take p ++ ⟨u, dist u, false⟩ :: q.data.drop p).take q.capacity
        cur := if p < q.cur then p else q.cur } :=
  NeighborQueue.insert_eq h.sorted (h.length_le.trans h.capacity_eq.ge) h.cursor.le (dist u)
    fun m hm hid => absurd (h.inserted m hm) (hid.symm ▸ hu)

theorem Holds.mem_insert (h : Holds dist L order q) {u : ℕ} (hu : u ∉ order) {m : Neighbor δ}
    (hm : m ∈ (q.insert (dist u) u).data) : m ∈ q.data ∨ m = ⟨u, dist u, false⟩ := by
  obtain ⟨p, -, heq⟩ := h.insert_eq hu
  rw [heq] at hm
  rcases List.mem_append.mp (List.mem_of_mem_take hm) with hm | hm
  · exact .inl (List.mem_of_mem_take hm)
  · rcases List.mem_cons.mp hm with hm | hm
    · exact .inr hm
    · exact .inl (List.mem_of_mem_drop hm)

theorem Holds.insert (h : Holds dist L order q) {u : ℕ} (hu : u ∉ order) :
    Holds dist L (order ++ [u]) (q.insert (dist u) u) := by
  have hcap := h.capacity_eq
  have hmem := fun m hm => h.mem_insert hu (m := m) hm
  obtain ⟨p, hp, heq⟩ := h.insert_eq hu
  rw [heq] at hmem
  have hrank : (order ++ [u]).idxOf u = order.length := by
    rw [List.idxOf_append_of_notMem hu, List.idxOf_cons_self, Nat.add_zero]
  have hkeys : q.data.map (fun m => rankKey dist (order ++ [u]) m.id) =
      q.data.map fun m => rankKey dist order m.id :=
    List.map_congr_left fun m hm => rankKey_append dist (h.inserted m hm) [u]
  rw [heq]
  refine ⟨hcap, fun m hm => ?_, fun m hm => ?_, ?_, ?_⟩
  · rcases hmem m hm with hm | rfl
    · exact h.distance_eq m hm
    · rfl
  · rcases hmem m hm with hm | rfl
    · exact List.mem_append_left _ (h.inserted m hm)
    · exact List.mem_append_right _ (List.mem_singleton.mpr rfl)
  · have hset : {k | ∃ id ∈ order ++ [u], rankKey dist (order ++ [u]) id = k} =
        Insert.insert (rankKey dist (order ++ [u]) u) {k | ∃ id ∈ order, rankKey dist order id = k} := by
      rw [setOf_concat]
      congr 1
      ext k
      refine exists_congr fun id => and_congr_right fun hid => ?_
      rw [rankKey_append dist hid]
    have hearlier : ∀ m ∈ q.data, order.idxOf m.id < order.length := fun m hm =>
      List.idxOf_lt_length_of_mem (h.inserted m hm)
    have hsmall := h.smallest.insertAt (p := p) (x := rankKey dist (order ++ [u]) u) ?_ ?_
    · rw [hset, hcap, List.map_take, List.map_append, List.map_cons, List.map_take, List.map_drop,
        hkeys]
      exact hsmall
    · intro y hy
      rw [← List.map_take] at hy
      obtain ⟨m, hm, rfl⟩ := List.mem_map.mp hy
      have hold := List.mem_of_mem_take hm
      have hle := hp.below m hm
      rw [h.distance_eq m hold] at hle
      rw [rankKey, rankKey, hrank, Prod.Lex.toLex_lt_toLex]
      rcases hle.lt_or_eq with hlt | heq
      · exact .inl hlt
      · exact .inr ⟨heq, hearlier m hold⟩
    · intro y hy
      rw [← List.map_drop] at hy
      obtain ⟨m, hm, rfl⟩ := List.mem_map.mp hy
      have hlt := hp.above m hm
      rw [h.distance_eq m (List.mem_of_mem_drop hm)] at hlt
      exact Prod.Lex.toLex_lt_toLex.mpr (.inl hlt)
  · exact h.cursor.insertAt rfl hp.le (h.length_le.trans hcap.ge)

/-! ### Expanding -/

/-- The element at the cursor is not expanded yet; it is marked, and nothing else changes. -/
theorem Holds.closestUnexpanded (h : Holds dist L order q) (hne : q.hasUnexpandedNode) :
    ∃ (hcur : q.cur < q.data.length) (q' : NeighborQueue δ),
      (q.data[q.cur]).expanded = false ∧
        q.closestUnexpanded = some ({ q.data[q.cur] with expanded := true }, q') ∧
        q'.data = q.data.set q.cur { q.data[q.cur] with expanded := true } ∧
        Holds dist L order q' := by
  have hcur : q.cur < q.data.length := of_decide_eq_true hne
  have hget := List.getElem?_eq_getElem hcur
  refine ⟨hcur, _, h.cursor.at_cur _ hget, by rw [NeighborQueue.closestUnexpanded, hget], rfl, ?_⟩
  have hkeys : (q.data.set q.cur { q.data[q.cur] with expanded := true }).map
      (fun m => rankKey dist order m.id) = q.data.map fun m => rankKey dist order m.id := by
    have hcur' : q.cur < (q.data.map fun m => rankKey dist order m.id).length := by
      rwa [List.length_map]
    rw [List.map_set]
    exact (congrArg _ (List.getElem_map (h := hcur') ..).symm).trans (List.set_getElem_self hcur')
  have hmem : ∀ m ∈ q.data.set q.cur { q.data[q.cur] with expanded := true },
      ∃ m' ∈ q.data, m.id = m'.id ∧ m.distance = m'.distance := by
    intro m hm
    rcases List.mem_or_eq_of_mem_set hm with hm | rfl
    · exact ⟨m, hm, rfl, rfl⟩
    · exact ⟨_, List.getElem_mem hcur, rfl, rfl⟩
  refine ⟨h.capacity_eq, fun m hm => ?_, fun m hm => ?_, ?_, h.cursor.scan _⟩
  · obtain ⟨m', hm', hid, hdist⟩ := hmem m hm
    rw [hdist, hid, h.distance_eq m' hm']
  · obtain ⟨m', hm', hid, -⟩ := hmem m hm
    rw [hid]
    exact h.inserted m' hm'
  · exact hkeys ▸ h.smallest

end NeighborQueue

end HiDANN.Tools
