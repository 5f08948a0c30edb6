import HiDANN.Search.Queue
import Mathlib.Data.List.Dedup

/-! `NeighborPriorityQueue` on its slots. The vector has one slot more than the capacity, so
that an insertion into a full list may move the last element out of the active range. Every
access is checked against the allocated slots. The slots in use refine the list of
`NeighborPriorityQueue`, and the invariants of that list hold after every run of `insert`
and `closest_unexpanded`. -/

namespace HiDANN.Search

open NeighborPriorityQueue

variable {δ : Type*} [LinearOrder δ]

structure QueueSlots (δ : Type*) where
  size : ℕ
  capacity : ℕ
  cur : ℕ
  data : List (Neighbor δ)

namespace QueueSlots

/-- The constructor; `blank` is what a slot holds before its first use. -/
def new (capacity : ℕ) (blank : Neighbor δ) : QueueSlots δ :=
  ⟨0, capacity, 0, List.replicate (capacity + 1) blank⟩

def active (q : QueueSlots δ) : List (Neighbor δ) := q.data.take q.size

/-! ### Accesses -/

/-- `std::memmove` between slots; none when a slot is not allocated. -/
def memmove (data : List (Neighbor δ)) (dst src n : ℕ) : Option (List (Neighbor δ)) :=
  if dst + max n 1 ≤ data.length ∧ src + max n 1 ≤ data.length then
    some (data.take dst ++ (data.drop src).take n ++ data.drop (dst + n))
  else none

def store (data : List (Neighbor δ)) (i : ℕ) (nbr : Neighbor δ) : Option (List (Neighbor δ)) :=
  if i < data.length then some (data.set i nbr) else none

/-! ### Operations -/

def rejects (q : QueueSlots δ) (nbr : Neighbor δ) : Option Bool :=
  if q.size = q.capacity then
    -- below the first slot
    if q.size = 0 then none
    else (q.data[q.size - 1]?).map fun last => decide (last.lt nbr)
  else some false

/-- The bisection; the inner `none` when the id is met on the way. -/
def bisect (data : List (Neighbor δ)) (nbr : Neighbor δ) (lo hi : ℕ) : Option (Option ℕ) :=
  if lo < hi then
    match data[(lo + hi) / 2]? with
    | none => none
    | some m =>
      if nbr.lt m then bisect data nbr lo ((lo + hi) / 2)
      else if m.id = nbr.id then some none
      else bisect data nbr ((lo + hi) / 2 + 1) hi
  else some (some lo)
termination_by hi - lo

/-- Make room at `lo`, unless that is behind a full list, and store there. -/
def insertAt (q : QueueSlots δ) (lo : ℕ) (nbr : Neighbor δ) : Option (List (Neighbor δ)) :=
  let moved := if lo < q.capacity then memmove q.data (lo + 1) lo (q.size - lo) else some q.data
  match moved with
  | none => none
  | some data => store data lo nbr

def insert (q : QueueSlots δ) (nbr : Neighbor δ) : Option (QueueSlots δ) :=
  match q.rejects nbr with
  | none => none
  | some true => some q
  | some false =>
    match bisect q.data nbr 0 q.size with
    | none => none
    | some none => some q
    | some (some lo) =>
      match q.insertAt lo { nbr with expanded := false } with
      | none => none
      | some data =>
        some ⟨if q.size < q.capacity then q.size + 1 else q.size, q.capacity,
          if lo < q.cur then lo else q.cur, data⟩

/-- The loop of `closest_unexpanded`. -/
def advance (data : List (Neighbor δ)) (size cur : ℕ) : Option ℕ :=
  if cur < size then
    match data[cur]? with
    | none => none
    | some m => if m.expanded then advance data size (cur + 1) else some cur
  else some cur
termination_by size - cur

def closestUnexpanded (q : QueueSlots δ) : Option (Neighbor δ × QueueSlots δ) :=
  match q.data[q.cur]? with
  | none => none
  | some m =>
    match store q.data q.cur { m with expanded := true } with
    | none => none
    | some data =>
      match advance data q.size q.cur, data[q.cur]? with
      | some cur, some pre => some (pre, { q with cur := cur, data := data })
      | _, _ => none

/-! ### Refinement -/

def toQueue (q : QueueSlots δ) : NeighborPriorityQueue δ := ⟨q.active, q.capacity, q.cur⟩

/-- All slots are there, and those in use within the capacity. -/
structure Laid (q : QueueSlots δ) : Prop where
  slots : q.data.length = q.capacity + 1
  size_le : q.size ≤ q.capacity

variable {q : QueueSlots δ} {nbr : Neighbor δ}

omit [LinearOrder δ] in
theorem Laid.length_active (h : q.Laid) : q.active.length = q.size := by
  have hslots := h.slots
  have hsize := h.size_le
  rw [active, List.length_take]
  omega

omit [LinearOrder δ] in
theorem getElem?_active {i : ℕ} (h : i < q.size) : q.active[i]? = q.data[i]? := by
  rw [active, List.getElem?_take, if_pos h]

theorem rejects_eq (h : q.Laid) (hcap : 0 < q.capacity) :
    q.rejects nbr = some (q.toQueue.rejects nbr) := by
  have hslots := h.slots
  have hsize := h.size_le
  have hlen := h.length_active
  unfold rejects NeighborPriorityQueue.rejects
  rw [NeighborPriorityQueue.size, toQueue]
  dsimp only
  rw [hlen]
  by_cases hfull : q.size = q.capacity
  · have hlast : q.size - 1 < q.data.length := by omega
    rw [if_pos hfull, if_neg (by omega), List.getLast?_eq_getElem?, hlen,
      getElem?_active (by omega), List.getElem?_eq_getElem hlast]
    simp [hfull]
  · rw [if_neg hfull]
    simp [hfull]

theorem bisect_eq (h : q.Laid) (nbr : Neighbor δ) (fuel lo hi : ℕ) (hfuel : hi - lo ≤ fuel)
    (hhi : hi ≤ q.size) :
    bisect q.data nbr lo hi = some (NeighborPriorityQueue.bisect q.active nbr fuel lo hi) := by
  have hslots := h.slots
  have hsize := h.size_le
  induction fuel generalizing lo hi with
  | zero =>
    rw [bisect, if_neg (by omega)]
    rfl
  | succ fuel ih =>
    rw [bisect, NeighborPriorityQueue.bisect]
    split_ifs with hlt
    · have hmid : (lo + hi) / 2 < q.data.length := by omega
      rw [getElem?_active (by omega), List.getElem?_eq_getElem hmid]
      dsimp only
      split_ifs
      · exact ih lo _ (by omega) (by omega)
      · rfl
      · exact ih _ hi (by omega) hhi
    · rfl

omit [LinearOrder δ] in
/-- The elements from `lo` on stand one slot higher, the last of a full list in the extra
slot. -/
theorem insertAt_eq (h : q.Laid) {lo : ℕ} (hlo : lo ≤ q.size) (nbr : Neighbor δ) :
    q.insertAt lo nbr =
      some (q.active.take lo ++ nbr :: q.active.drop lo ++ q.data.drop (q.size + 1)) := by
  have hslots := h.slots
  have hsize := h.size_le
  have htake : q.active.take lo = q.data.take lo := by
    rw [active, List.take_take, Nat.min_eq_left hlo]
  have hdrop : q.active.drop lo = (q.data.drop lo).take (q.size - lo) := by
    rw [active, List.drop_take]
  unfold insertAt
  rw [htake, hdrop]
  by_cases hroom : lo < q.capacity
  · have hin : lo + 1 + max (q.size - lo) 1 ≤ q.data.length ∧
        lo + max (q.size - lo) 1 ≤ q.data.length := by omega
    have hlen : (q.data.take (lo + 1)).length = lo + 1 := by
      rw [List.length_take]
      omega
    have hend : lo + 1 + (q.size - lo) = q.size + 1 := by omega
    rw [if_pos hroom, memmove, if_pos hin, hend, List.append_assoc]
    dsimp only
    rw [store, if_pos (by rw [List.length_append]; omega), List.set_eq_take_append_cons_drop,
      if_pos (by rw [List.length_append]; omega), List.drop_left' hlen,
      List.take_append_of_le_length (by omega), List.take_take, Nat.min_eq_left (by omega)]
    simp
  · -- the place is the extra slot, and nothing is moved
    obtain rfl : lo = q.size := by omega
    rw [if_neg hroom]
    dsimp only
    rw [store, if_pos (by omega), List.set_eq_take_append_cons_drop, if_pos (by omega)]
    simp

/-- Of an insertion as many elements are in use as the capacity allows. -/
theorem take_insertion {α : Type*} {front : List α} (rest : List α) {size capacity : ℕ}
    (hfront : front.length = size + 1) (hsize : size ≤ capacity) :
    (front ++ rest).take (if size < capacity then size + 1 else size) = front.take capacity := by
  split_ifs with hroom
  · rw [List.take_left' hfront, List.take_of_length_le (hfront.le.trans hroom)]
  · obtain rfl : size = capacity := by omega
    rw [List.take_append_of_le_length (by omega)]

theorem insert_refines (h : q.Laid) (hv : q.toQueue.Valid) (nbr : Neighbor δ) :
    ∃ q', q.insert nbr = some q' ∧ q'.Laid ∧ q'.toQueue = q.toQueue.insert nbr := by
  have hslots := h.slots
  have hsize := h.size_le
  have hlen := h.length_active
  have hbisect := bisect_eq h nbr q.size 0 q.size (by omega) le_rfl
  unfold insert NeighborPriorityQueue.insert
  rw [rejects_eq h hv.capacity_pos]
  cases hrej : q.toQueue.rejects nbr with
  | true => exact ⟨q, rfl, h, rfl⟩
  | false =>
    have hspec := bisect_spec nbr hv.sorted q.size 0 q.size (by omega) (by omega) hlen.ge
      (by simp) (by rw [List.drop_eq_nil_of_le (by simp [toQueue, hlen])]; simp)
    have htoQueue :
        NeighborPriorityQueue.bisect q.toQueue.data nbr q.toQueue.size 0 q.toQueue.size =
          NeighborPriorityQueue.bisect q.active nbr q.size 0 q.size := by
      rw [NeighborPriorityQueue.size, toQueue, hlen]
    rw [htoQueue]
    dsimp only
    rw [hbisect]
    cases hplace : NeighborPriorityQueue.bisect q.active nbr q.size 0 q.size with
    | none => exact ⟨q, rfl, h, rfl⟩
    | some lo =>
      rw [toQueue, hplace] at hspec
      have hlo : lo ≤ q.size := hspec.le.trans hlen.le
      have hfront :
          (q.active.take lo ++ { nbr with expanded := false } :: q.active.drop lo).length =
            q.size + 1 := by
        rw [List.length_append, List.length_take, List.length_cons, List.length_drop]
        omega
      dsimp only
      rw [insertAt_eq h hlo]
      refine ⟨_, rfl, ⟨?_, ?_⟩, ?_⟩
      · dsimp only
        rw [List.length_append, hfront, List.length_drop]
        omega
      · dsimp only
        split_ifs <;> omega
      · rw [toQueue, toQueue, active]
        dsimp only
        rw [take_insertion _ hfront hsize]
        rfl

omit [LinearOrder δ] in
/-- The loop passes over the expanded elements in use. -/
theorem advance_eq (data : List (Neighbor δ)) (size cur : ℕ) (hsize : size ≤ data.length)
    (hcur : cur ≤ size) : advance data size cur =
      some (cur + (((data.take size).drop cur).takeWhile Neighbor.expanded).length) := by
  rw [advance]
  split_ifs with hlt
  · have hdata : cur < data.length := by omega
    have hin : cur < (data.take size).length := by
      rw [List.length_take]
      omega
    rw [List.getElem?_eq_getElem hdata, List.drop_eq_getElem_cons hin, List.getElem_take,
      List.takeWhile_cons]
    dsimp only
    split_ifs
    · rw [advance_eq data size (cur + 1) hsize hlt, List.length_cons]
      congr 1
      omega
    · rfl
  · obtain rfl : cur = size := by omega
    rw [List.drop_eq_nil_of_le (by simp)]
    rfl
termination_by size - cur

omit [LinearOrder δ] in
theorem closestUnexpanded_refines (h : q.Laid) (hne : q.toQueue.hasUnexpandedNode) :
    ∃ m q', q.closestUnexpanded = some (m, q') ∧ q'.Laid ∧
      q.toQueue.closestUnexpanded = (some m, q'.toQueue) := by
  have hslots := h.slots
  have hsize := h.size_le
  have hlen := h.length_active
  have hcur : q.cur < q.size := by
    have hcur : q.cur < q.active.length := of_decide_eq_true hne
    omega
  have hdata : q.cur < q.data.length := by omega
  have hstore : ∀ m, (q.data.set q.cur m).take q.size = q.active.set q.cur m := fun m =>
    List.take_set
  unfold closestUnexpanded NeighborPriorityQueue.closestUnexpanded
  rw [toQueue]
  dsimp only
  rw [getElem?_active hcur, List.getElem?_eq_getElem hdata]
  dsimp only
  rw [store, if_pos hdata]
  dsimp only
  rw [advance_eq _ _ _ (by rw [List.length_set]; omega) hcur.le,
    List.getElem?_eq_getElem (by rwa [List.length_set]), List.getElem_set_self, hstore]
  refine ⟨_, _, rfl, ⟨?_, hsize⟩, ?_⟩
  · rw [List.length_set, hslots]
  · unfold toQueue active
    dsimp only
    rw [List.take_set]

/-! ### Runs -/

inductive Op (δ : Type*)
  | insert (nbr : Neighbor δ)
  | closestUnexpanded

def apply (q : QueueSlots δ) : Op δ → Option (QueueSlots δ)
  | .insert nbr => q.insert nbr
  | .closestUnexpanded => (q.closestUnexpanded).map Prod.snd

def run (q : QueueSlots δ) : List (Op δ) → Option (QueueSlots δ)
  | [] => some q
  | op :: ops =>
    match q.apply op with
    | none => none
    | some q => run q ops

/-- `closest_unexpanded` is called only when an unexpanded element is in the list. -/
def Called (q : QueueSlots δ) : List (Op δ) → Prop
  | [] => True
  | op :: ops =>
    (op = .closestUnexpanded → ∃ m ∈ q.active, m.expanded = false) ∧
      match q.apply op with
      | none => True
      | some q => Called q ops

def inserted : List (Op δ) → List (Neighbor δ)
  | [] => []
  | .insert nbr :: ops => nbr :: inserted ops
  | .closestUnexpanded :: ops => inserted ops

/-- An id always comes with the same distance. -/
def OneDistance (nbrs : List (Neighbor δ)) : Prop :=
  ∀ a ∈ nbrs, ∀ b ∈ nbrs, a.id = b.id → a.distance = b.distance

/-- The slots hold a valid queue of the smallest elements of a set. -/
structure Holds (capacity : ℕ) (V : Set (δ ×ₗ ℕ)) (q : QueueSlots δ) : Prop where
  laid : q.Laid
  capacity_eq : q.capacity = capacity
  valid : q.toQueue.Valid
  smallest : Smallest capacity V (q.active.map Neighbor.key)

omit [LinearOrder δ] in
theorem hasUnexpandedNode_of_mem {q : NeighborPriorityQueue δ} (h : Cursor q.data q.cur)
    {m : Neighbor δ} (hm : m ∈ q.data) (hunexp : m.expanded = false) : q.hasUnexpandedNode := by
  apply decide_eq_true
  by_contra hcur
  have htake : q.data.take q.cur = q.data := List.take_of_length_le (Nat.le_of_not_lt hcur)
  have hexp := h.before m (by rwa [htake])
  rw [hunexp] at hexp
  cases hexp

theorem Holds.insert {capacity : ℕ} {V : Set (δ ×ₗ ℕ)} (h : Holds capacity V q)
    (hdist : ∀ m ∈ q.active, m.id = nbr.id → m.distance = nbr.distance) :
    ∃ q', q.insert nbr = some q' ∧ Holds capacity (Insert.insert nbr.key V) q' := by
  obtain ⟨q', hq', hlaid, hqueue⟩ := insert_refines h.laid h.valid nbr
  have hcap : q'.capacity = q.capacity :=
    (congrArg NeighborPriorityQueue.capacity hqueue).trans (insert_capacity _ nbr)
  have hkeys : q'.active.map Neighbor.key = (q.toQueue.insert nbr).keys :=
    congrArg NeighborPriorityQueue.keys hqueue
  have hsmall : Smallest q.toQueue.capacity V q.toQueue.keys := by
    rw [show q.toQueue.capacity = capacity from h.capacity_eq]
    exact h.smallest
  refine ⟨q', hq', hlaid, hcap.trans h.capacity_eq, ?_, ?_⟩
  · rw [hqueue]
    exact insert_valid h.valid nbr
  · rw [hkeys, ← h.capacity_eq]
    exact insert_smallest nbr h.valid hsmall hdist

theorem Holds.closestUnexpanded {capacity : ℕ} {V : Set (δ ×ₗ ℕ)} (h : Holds capacity V q)
    (hne : ∃ m ∈ q.active, m.expanded = false) :
    ∃ m q', q.closestUnexpanded = some (m, q') ∧ Holds capacity V q' := by
  obtain ⟨m, hm, hunexp⟩ := hne
  have hnode := hasUnexpandedNode_of_mem h.valid.cursor hm hunexp
  obtain ⟨m', q', hq', hlaid, hqueue⟩ := closestUnexpanded_refines h.laid hnode
  obtain ⟨_, -, -, -, -, hcap, hkeys, hvalid⟩ := closestUnexpanded_spec h.valid hnode
  rw [hqueue] at hcap hkeys hvalid
  refine ⟨m', q', hq', hlaid, hcap.trans h.capacity_eq, hvalid, ?_⟩
  rw [show q'.active.map Neighbor.key = q.active.map Neighbor.key from hkeys]
  exact h.smallest

theorem Holds.exists_inserted {capacity : ℕ} {nbrs : List (Neighbor δ)}
    (h : Holds capacity {k | ∃ a ∈ nbrs, a.key = k} q) {m : Neighbor δ} (hm : m ∈ q.active) :
    ∃ a ∈ nbrs, a.distance = m.distance ∧ a.id = m.id := by
  obtain ⟨a, ha, hkey⟩ := h.smallest.mem m.key (List.mem_map_of_mem hm)
  exact ⟨a, ha, Neighbor.key_inj.mp hkey⟩

theorem run_holds {capacity : ℕ} (ops : List (Op δ)) {nbrs : List (Neighbor δ)} {q : QueueSlots δ}
    (h : Holds capacity {k | ∃ a ∈ nbrs, a.key = k} q) (hdist : OneDistance (nbrs ++ inserted ops))
    (hcalled : Called q ops) :
    ∃ q', run q ops = some q' ∧ Holds capacity {k | ∃ a ∈ nbrs ++ inserted ops, a.key = k} q' := by
  induction ops generalizing nbrs q with
  | nil =>
    refine ⟨q, rfl, ?_⟩
    rwa [inserted, List.append_nil]
  | cons op ops ih =>
    obtain ⟨hop, hrest⟩ := hcalled
    rw [run]
    cases op with
    | insert nbr =>
      have hsame : ∀ m ∈ q.active, m.id = nbr.id → m.distance = nbr.distance := by
        intro m hm hid
        obtain ⟨a, ha, hd, hi⟩ := h.exists_inserted hm
        rw [← hd]
        exact hdist a (by simp [ha]) nbr (by simp [inserted]) (hi.trans hid)
      obtain ⟨q', hq', hholds⟩ := h.insert hsame
      rw [apply, hq'] at hrest ⊢
      rw [← setOf_concat] at hholds
      have hsplit : nbrs ++ inserted (.insert nbr :: ops) = nbrs ++ [nbr] ++ inserted ops := by
        rw [inserted, List.append_assoc, List.singleton_append]
      rw [hsplit] at hdist ⊢
      exact ih hholds hdist hrest
    | closestUnexpanded =>
      obtain ⟨m, q', hq', hholds⟩ := h.closestUnexpanded (hop rfl)
      rw [apply, hq'] at hrest ⊢
      exact ih hholds hdist hrest

theorem new_holds {capacity : ℕ} (hcap : 1 ≤ capacity) (blank : Neighbor δ) :
    Holds capacity {k | ∃ a ∈ ([] : List (Neighbor δ)), a.key = k} (new capacity blank) := by
  have hactive : (new capacity blank).active = [] := by
    rw [active, new, List.take_zero]
  have hqueue : (new capacity blank).toQueue = empty capacity := by
    rw [toQueue, hactive]
    rfl
  refine ⟨⟨List.length_replicate, Nat.zero_le _⟩, rfl, ?_, ?_⟩
  · rw [hqueue]
    exact empty_valid hcap
  · rw [hactive]
    simpa using Smallest.nil capacity

/-- The ids in the list are different, since their distances are those of the insertions. -/
theorem Holds.nodup_ids {capacity : ℕ} {nbrs : List (Neighbor δ)}
    (h : Holds capacity {k | ∃ a ∈ nbrs, a.key = k} q) (hdist : OneDistance nbrs) :
    (q.active.map Neighbor.id).Nodup := by
  have hsorted := h.smallest.sorted
  rw [List.pairwise_map] at hsorted
  rw [List.Nodup, List.pairwise_map]
  refine hsorted.imp_of_mem fun {a b} ha hb hlt hid => ?_
  obtain ⟨a', ha', hda, hia⟩ := h.exists_inserted ha
  obtain ⟨b', hb', hdb, hib⟩ := h.exists_inserted hb
  have hsame := hdist a' ha' b' hb' (by rw [hia, hib, hid])
  rw [hda, hdb] at hsame
  exact hlt.ne (Neighbor.key_inj.mpr ⟨hsame, hid⟩)

/-- What the slots are after the operations: all there, the active range within the
capacity, strictly sorted, with no id twice, the cursor at its first unexpanded element, and
its elements the smallest of the distinct ones inserted. -/
structure Represents (capacity : ℕ) (ops : List (Op δ)) (q : QueueSlots δ) : Prop where
  slots : q.data.length = capacity + 1
  size_le : q.size ≤ capacity
  sorted : (q.active.map Neighbor.key).Pairwise (· < ·)
  nodup : (q.active.map Neighbor.id).Nodup
  cursor : Cursor q.active q.cur
  smallest : Smallest capacity {k | ∃ a ∈ inserted ops, a.key = k} (q.active.map Neighbor.key)
  count : q.size = min capacity ((inserted ops).map Neighbor.key).dedup.length

/-- No run of `insert` and `closest_unexpanded` leaves the slots, and the queue is what it
should be after it. -/
theorem run_represents {capacity : ℕ} (hcap : 1 ≤ capacity) (blank : Neighbor δ)
    (ops : List (Op δ)) (hdist : OneDistance (inserted ops))
    (hcalled : Called (new capacity blank) ops) :
    ∃ q, run (new capacity blank) ops = some q ∧ Represents capacity ops q := by
  obtain ⟨q, hq, h⟩ := run_holds ops (new_holds hcap blank) hdist hcalled
  rw [List.nil_append] at h
  have hslots := h.laid.slots
  have hsize := h.laid.size_le
  rw [h.capacity_eq] at hslots hsize
  refine ⟨q, hq, hslots, hsize, h.smallest.sorted, h.nodup_ids hdist, h.valid.cursor,
    h.smallest, ?_⟩
  have hcount := h.smallest.length_eq (List.nodup_dedup ((inserted ops).map Neighbor.key)) (by
    intro k
    rw [List.mem_dedup, List.mem_map]
    rfl)
  rw [List.length_map, h.laid.length_active] at hcount
  exact hcount

/-- Two places; the third element comes between the two, and the fourth is there already. -/
def fourInserts : List (Op ℕ) :=
  [.insert ⟨5, 30, false⟩, .insert ⟨1, 10, false⟩, .closestUnexpanded, .insert ⟨7, 20, false⟩,
    .insert ⟨1, 10, false⟩]

theorem fourInserts_called : Called (new 2 ⟨0, 0, false⟩) fourInserts := by
  simp [fourInserts, Called, apply, insert, rejects, bisect, insertAt, memmove, store, new, active,
    closestUnexpanded, advance, Neighbor.lt]

theorem fourInserts_represents :
    ∃ q, run (new 2 ⟨0, 0, false⟩) fourInserts = some q ∧ Represents 2 fourInserts q :=
  run_represents (by decide) _ fourInserts (by simp [OneDistance, fourInserts, inserted])
    fourInserts_called

end QueueSlots

end HiDANN.Search
