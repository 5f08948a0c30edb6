import HiDANN.Construction.VisitSearch
import Mathlib.Algebra.Order.Ring.Int

/-! `iterate_to_fixed_point_emit` against `iterate_to_fixed_point`, of which it is a
copy that exports what it expands. The original marks visited nodes in a bitset or in
a set, checks the start ids, and reads the rows of the data store in place; the copy
has a set only and copies each row. Both loops run in step: the queues are equal after
every round, and the pool of the one is what the other has exported. -/

namespace HiDANN.Construction

open Search NeighborPriorityQueue

/-! ### Distances -/

/-- The in-memory vectors: `dim` components each, in rows padded with zeros. -/
structure InMemDataStore (ν : Type*) where
  dim : ℕ
  alignedDim : ℕ
  vec : ℕ → List ν
  vec_length : ∀ i, (vec i).length = dim
  dim_le : dim ≤ alignedDim

section Distance

variable {ν δ : Type*} [Zero ν] (store : InMemDataStore ν)

def InMemDataStore.row (i : ℕ) : List ν :=
  store.vec i ++ List.replicate (store.alignedDim - store.dim) 0

/-- `get_vector`, which overwrites the first `dim` components of `dest`. -/
def InMemDataStore.getVector (i : ℕ) (dest : List ν) : List ν :=
  (store.row i).take store.dim ++ dest.drop store.dim

variable (compare : List ν → List ν → δ) (query : List ν)

def InMemDataStore.getDistance (i : ℕ) : δ := compare query (store.row i)

/-- The distance to a copy in `tmp_vec`, which holds zeros after the first `dim`
components before and after every copy. -/
def InMemDataStore.copiedDistance (i : ℕ) : δ :=
  compare query (store.getVector i (List.replicate store.alignedDim 0))

theorem InMemDataStore.getVector_eq (i : ℕ) :
    store.getVector i (List.replicate store.alignedDim 0) = store.row i := by
  have hlen := store.vec_length i
  rw [InMemDataStore.getVector, InMemDataStore.row, List.take_left' hlen, List.drop_replicate]

/-- Both searches see the same distances. -/
theorem InMemDataStore.copiedDistance_eq :
    store.copiedDistance compare query = store.getDistance compare query := by
  funext i
  rw [InMemDataStore.copiedDistance, InMemDataStore.getVector_eq, InMemDataStore.getDistance]

end Distance

/-! ### The original -/

def maxPointsForUsingBitset : ℕ := 10000000

/-- `inserted_into_pool_bs` and `inserted_into_pool_rs`. -/
structure Visited where
  bits : List Bool
  rs : Finset ℕ

def Visited.isNotVisited (fastIterate : Bool) (s : Visited) (id : ℕ) : Bool :=
  if fastIterate then s.bits.getD id false = false else id ∉ s.rs

def Visited.mark (fastIterate : Bool) (s : Visited) (id : ℕ) : Visited :=
  if fastIterate then { s with bits := s.bits.set id true } else { s with rs := insert id s.rs }

def Visited.resize (fastIterate : Bool) (totalNumPoints : ℕ) (s : Visited) : Visited :=
  if fastIterate ∧ s.bits.length < totalNumPoints then
    let resizeSize := if maxPointsForUsingBitset < 2 * totalNumPoints then maxPointsForUsingBitset
      else 2 * totalNumPoints
    { s with bits := s.bits ++ List.replicate (resizeSize - s.bits.length) false }
  else s

/-- What `iterate_to_fixed_point` changes in its scratch space, and its counter. -/
structure Iterate (δ : Type*) where
  bestL : NeighborPriorityQueue δ
  visited : Visited
  expandedNodes : List (Neighbor δ)
  idScratch : List ℕ
  cmps : ℕ

def Iterate.clear {δ : Type*} (scratch : Iterate δ) : Iterate δ where
  bestL := { scratch.bestL with data := [], cur := 0 }
  visited := { bits := List.replicate scratch.visited.bits.length false, rs := ∅ }
  expandedNodes := []
  idScratch := []
  cmps := 0

variable {δ : Type*} [LinearOrder δ]

/-- The ids that have not been visited are collected, then marked, then inserted. -/
def visit (fastIterate : Bool) (dist : ℕ → δ) (st : Iterate δ) (ids : List ℕ) : Iterate δ :=
  let idScratch := ids.filter fun id => st.visited.isNotVisited fastIterate id
  { st with
    visited := idScratch.foldl (Visited.mark fastIterate) st.visited
    bestL := idScratch.foldl (fun q v => q.insert (candidate dist v)) st.bestL
    idScratch
    cmps := (st.cmps + idScratch.length) % 2 ^ 32 }

/-- The loop over the start ids. -/
def visitInit (totalNumPoints : ℕ) (fastIterate : Bool) (dist : ℕ → δ) :
    List ℕ → Iterate δ → Except String (Iterate δ)
  | [], st => .ok st
  | id :: initIds, st =>
    if totalNumPoints ≤ id then .error ("Wrong loc" ++ toString id)
    else if st.visited.isNotVisited fastIterate id then
      visitInit totalNumPoints fastIterate dist initIds
        { st with visited := st.visited.mark fastIterate id
                  bestL := st.bestL.insert (candidate dist id) }
    else visitInit totalNumPoints fastIterate dist initIds st

def iterateStep (fastIterate searchInvocation : Bool) (graph : ℕ → List ℕ) (dist : ℕ → δ)
    (st : Iterate δ) : Iterate δ :=
  match st.bestL.closestUnexpanded with
  | (none, _) => st
  | (some nbr, q) =>
    visit fastIterate dist
      { st with bestL := q
                expandedNodes := if searchInvocation then st.expandedNodes
                  else st.expandedNodes ++ [nbr] }
      (graph nbr.id)

def iterateLoop (fastIterate searchInvocation : Bool) (graph : ℕ → List ℕ) (dist : ℕ → δ) :
    ℕ → Iterate δ → Iterate δ
  | 0, st => st
  | fuel + 1, st =>
    if st.bestL.hasUnexpandedNode then
      iterateLoop fastIterate searchInvocation graph dist fuel
        (iterateStep fastIterate searchInvocation graph dist st)
    else st

/-- `iterate_to_fixed_point` without a filter, from a scratch space. -/
def iterateToFixedPoint (totalNumPoints : ℕ) (graph : ℕ → List ℕ) (dist : ℕ → δ) (L : ℕ)
    (initIds : List ℕ) (searchInvocation : Bool) (scratch : Iterate δ) :
    Except String (Iterate δ) :=
  if 0 < scratch.expandedNodes.length ∨ 0 < scratch.idScratch.length then
    .error "ERROR: Clear scratch space before passing."
  else
    let fastIterate : Bool := totalNumPoints ≤ maxPointsForUsingBitset
    let start := { scratch with
      bestL := { scratch.bestL with capacity := L }
      visited := scratch.visited.resize fastIterate totalNumPoints }
    (visitInit totalNumPoints fastIterate dist initIds start).map fun st =>
      iterateLoop fastIterate searchInvocation graph dist totalNumPoints { st with cmps := 0 }

/-! ### Marks -/

namespace Visited

variable {fastIterate : Bool} {s : Visited} {n : ℕ}

/-- The bitset has a bit for every node. -/
def Covers (fastIterate : Bool) (n : ℕ) (s : Visited) : Prop :=
  fastIterate = true → n ≤ s.bits.length

theorem covers_mark (h : s.Covers fastIterate n) (id : ℕ) :
    (s.mark fastIterate id).Covers fastIterate n := by
  intro hfast
  have := h hfast
  simpa [mark, hfast] using this

theorem isNotVisited_mark (h : s.Covers fastIterate n) {id : ℕ} (hid : id < n) (v : ℕ) :
    (s.mark fastIterate id).isNotVisited fastIterate v =
      (decide (v ≠ id) && s.isNotVisited fastIterate v) := by
  cases fastIterate with
  | false =>
    simp [mark, isNotVisited, not_or]
  | true =>
    have hlen : id < s.bits.length := hid.trans_le (h rfl)
    by_cases hv : v = id
    · subst hv
      simp [mark, isNotVisited, hlen]
    · simp [mark, isNotVisited, Ne.symm hv, hv]

theorem covers_foldl_mark (h : s.Covers fastIterate n) (ids : List ℕ) :
    (ids.foldl (mark fastIterate) s).Covers fastIterate n := by
  induction ids generalizing s with
  | nil => exact h
  | cons id ids ih => exact ih (covers_mark h id)

theorem isNotVisited_foldl_mark (h : s.Covers fastIterate n) {ids : List ℕ}
    (hids : ∀ id ∈ ids, id < n) (v : ℕ) :
    (ids.foldl (mark fastIterate) s).isNotVisited fastIterate v =
      (decide (v ∉ ids) && s.isNotVisited fastIterate v) := by
  induction ids generalizing s with
  | nil => simp
  | cons id ids ih =>
    rw [List.foldl_cons, ih (covers_mark h id) fun w hw => hids w (by simp [hw]),
      isNotVisited_mark h (hids id (by simp))]
    by_cases hv : v = id <;> by_cases hm : v ∈ ids <;> simp [hv, hm]

theorem isNotVisited_unset (fastIterate : Bool) (bits v : ℕ) :
    isNotVisited fastIterate ⟨List.replicate bits false, ∅⟩ v = true := by
  cases fastIterate with
  | false => simp [isNotVisited]
  | true =>
    by_cases hv : v < bits <;> simp [isNotVisited, List.getD_eq_getElem?_getD, hv]

theorem resize_unset {n : ℕ} (hfast : fastIterate = true → n ≤ maxPointsForUsingBitset)
    (bits : ℕ) : ∃ bits', resize fastIterate n ⟨List.replicate bits false, ∅⟩ =
      ⟨List.replicate bits' false, ∅⟩ ∧ (fastIterate = true → n ≤ bits') := by
  rw [resize, List.length_replicate]
  by_cases h : fastIterate = true ∧ bits < n
  · simp only [if_pos h, List.replicate_append_replicate]
    refine ⟨_, rfl, fun _ => ?_⟩
    have := hfast h.1
    split_ifs <;> omega
  · rw [if_neg h]
    exact ⟨bits, rfl, fun hf => Nat.le_of_not_lt fun hlt => h ⟨hf, hlt⟩⟩

end Visited

/-! ### In step -/

/-- The two searches in the same round, on a graph of `n` nodes. -/
structure InStep (fastIterate : Bool) (n : ℕ) (r : Iterate δ) (e : Emit δ) : Prop where
  queue : r.bestL = e.bestL
  pool : (r.expandedNodes.map fun m => (m.id, m.distance)) = e.out
  cmps : r.cmps = e.cmps
  covers : r.visited.Covers fastIterate n
  visited : ∀ v, r.visited.isNotVisited fastIterate v = decide (v ∉ e.inserted)

variable {fastIterate : Bool} {n L : ℕ} {graph : ℕ → List ℕ} {dist : ℕ → δ} {r : Iterate δ}
  {e : Emit δ}

theorem InStep.visit (h : InStep fastIterate n r e) {ids : List ℕ} (hids : ∀ v ∈ ids, v < n) :
    InStep fastIterate n (visit fastIterate dist r ids) (offer dist e ids) := by
  have hscratch : (ids.filter fun id => r.visited.isNotVisited fastIterate id) =
      ids.filter fun v => v ∉ e.inserted := List.filter_congr fun v _ => h.visited v
  have hlt : ∀ v ∈ ids.filter fun v => v ∉ e.inserted, v < n :=
    fun v hv => hids v (List.mem_of_mem_filter hv)
  constructor
  case queue =>
    simp only [Construction.visit, offer, hscratch, h.queue]
  case pool => exact h.pool
  case cmps =>
    simp only [Construction.visit, offer, hscratch, h.cmps]
  case covers => exact Visited.covers_foldl_mark h.covers _
  case visited =>
    intro v
    simp only [Construction.visit, offer, hscratch]
    rw [Visited.isNotVisited_foldl_mark h.covers hlt, h.visited]
    by_cases hv : v ∈ e.inserted <;> simp [hv]

theorem InStep.step (h : InStep fastIterate n r e)
    (hids : ∀ m q, e.bestL.closestUnexpanded = (some m, q) → ∀ w ∈ graph m.id, w < n) :
    InStep fastIterate n (iterateStep fastIterate false graph dist r)
      (emitStep graph dist e) := by
  rw [iterateStep, emitStep, h.queue]
  rcases hnext : e.bestL.closestUnexpanded with ⟨_ | m, q⟩
  · exact h
  · refine InStep.visit ?_ (hids m q hnext)
    exact ⟨rfl, by simp [h.pool], h.cmps, h.covers, h.visited⟩

theorem InStep.loop (h : InStep fastIterate n r e) (hinv : EmitInv n dist L e)
    (hg : ∀ v < n, ∀ w ∈ graph v, w < n) (fuel : ℕ) :
    InStep fastIterate n (iterateLoop fastIterate false graph dist fuel r)
      (emitLoop graph dist fuel e) := by
  induction fuel generalizing r e with
  | zero => exact h
  | succ fuel ih =>
    rw [iterateLoop, emitLoop, h.queue]
    by_cases hne : e.bestL.hasUnexpandedNode = true
    · rw [if_pos hne, if_pos hne]
      refine ih (h.step fun m q hnext => ?_) (hinv.step hg hne).1
      obtain ⟨m', h1, hV, -⟩ := hinv.tracks.take hne
      rw [hnext] at h1
      rw [Option.some.inj h1]
      exact hg m'.id (hinv.lt _ hV)
    · rw [if_neg hne, if_neg hne]
      exact h

variable (dist) in
theorem InStep.init (h : InStep fastIterate n r e) (h0 : e.cmps = 0) {initIds : List ℕ}
    (hinit : ∀ v ∈ initIds, v < n) :
    ∃ r', visitInit n fastIterate dist initIds r = .ok r' ∧
      InStep fastIterate n { r' with cmps := 0 }
        (initIds.foldl (fun st v => { offer dist st [v] with cmps := 0 }) e) := by
  induction initIds generalizing r e with
  | nil => exact ⟨r, rfl, h.queue, h.pool, h0.symm, h.covers, h.visited⟩
  | cons v initIds ih =>
    have hv := hinit v (by simp)
    have hrest : ∀ w ∈ initIds, w < n := fun w hw => hinit w (by simp [hw])
    rw [visitInit, if_neg (Nat.not_le.mpr hv), List.foldl_cons, h.visited]
    by_cases hin : v ∈ e.inserted
    · have hsame : ({ offer dist e [v] with cmps := 0 } : Emit δ) = e := by
        obtain ⟨bestL, inserted, out, hops, cmps⟩ := e
        simp only at hin h0
        simp [offer, hin, h0]
      rw [hsame]
      simpa [hin] using ih h h0 hrest
    · simp only [hin, not_false_eq_true, decide_true, if_true]
      refine ih ?_ rfl hrest
      constructor
      case queue => simp [offer, hin, h.queue]
      case pool => exact h.pool
      case cmps => exact h.cmps.trans h0
      case covers => exact Visited.covers_mark h.covers v
      case visited =>
        intro w
        simp only [offer]
        rw [Visited.isNotVisited_mark h.covers hv, h.visited]
        by_cases hw : w = v <;> simp [hin, hw]

omit [LinearOrder δ] in
theorem InStep.clear (scratch : Iterate δ) (hfast : fastIterate = true →
    n ≤ maxPointsForUsingBitset) (L : ℕ) :
    InStep fastIterate n
      { scratch.clear with
        bestL := { scratch.clear.bestL with capacity := L }
        visited := scratch.clear.visited.resize fastIterate n }
      (⟨empty L, [], [], 0, 0⟩ : Emit δ) := by
  obtain ⟨bits, hresize, hbits⟩ := Visited.resize_unset hfast scratch.visited.bits.length
  refine ⟨rfl, rfl, rfl, ?_, fun v => ?_⟩
  · simp only [Iterate.clear, hresize]
    intro hf
    simpa using hbits hf
  · simp only [Iterate.clear, hresize]
    rw [Visited.isNotVisited_unset]
    simp

theorem iterateToFixedPoint_inStep (dist : ℕ → δ) (hL : 0 < L) {initIds : List ℕ}
    (hinit : ∀ v ∈ initIds, v < n) (hg : ∀ v < n, ∀ w ∈ graph v, w < n) (scratch : Iterate δ) :
    ∃ r, iterateToFixedPoint n graph dist L initIds false scratch.clear = .ok r ∧
      InStep (n ≤ maxPointsForUsingBitset) n r
        (iterateToFixedPointEmit n graph dist L initIds) := by
  have hfast : decide (n ≤ maxPointsForUsingBitset) = true → n ≤ maxPointsForUsingBitset :=
    fun hf => of_decide_eq_true hf
  obtain ⟨r, hr, hin⟩ := (InStep.clear scratch hfast L).init dist rfl hinit
  refine ⟨_, ?_, hin.loop (emitStart_inv hL hinit) hg n⟩
  rw [iterateToFixedPoint, if_neg (by simp [Iterate.clear])]
  simp only [hr]
  rfl

/-- From a cleared scratch space both searches end, with equal queues and numbers of
comparisons, and what the one exports is the pool of the other. -/
theorem emit_refines_fixed_point {ν : Type*} [Zero ν] (store : InMemDataStore ν)
    (compare : List ν → List ν → δ) (query : List ν) (hL : 0 < L) {initIds : List ℕ}
    (hinit : ∀ v ∈ initIds, v < n) (hg : ∀ v < n, ∀ w ∈ graph v, w < n)
    (scratch : Iterate δ) :
    let e := iterateToFixedPointEmit n graph (store.copiedDistance compare query) L initIds
    e.bestL.hasUnexpandedNode = false ∧
    (∃ r, iterateToFixedPoint n graph (store.getDistance compare query) L initIds false
        scratch.clear = .ok r ∧
      (r.expandedNodes.map fun m => (m.id, m.distance)) = e.out ∧
      r.cmps = e.cmps ∧ r.bestL = e.bestL) ∧
    (e.out.map Prod.fst).Nodup ∧ ∀ m ∈ e.bestL.data, m.id ∈ e.out.map Prod.fst := by
  rw [InMemDataStore.copiedDistance_eq]
  intro e
  obtain ⟨hinv, hdone⟩ := iterateToFixedPointEmit_spec graph (store.getDistance compare query)
    hL hinit hg
  obtain ⟨r, hr, hin⟩ := iterateToFixedPoint_inStep (store.getDistance compare query) hL hinit hg
    scratch
  exact ⟨hdone, ⟨r, hr, hin.pool, hin.cmps, hin.queue⟩, hinv.nodup,
    fun m hm => (hinv.tracks.all_taken hdone m hm).2⟩

def lineStore : InMemDataStore ℤ where
  dim := 1
  alignedDim := 8
  vec i := [(i : ℤ)]
  vec_length _ := rfl
  dim_le := Nat.le_add_left 1 7

def squaredSum (q v : List ℤ) : ℤ := (List.zipWith (fun a b => (a - b) ^ 2) q v).sum

/-- Two nodes, each the other's neighbour; the first lists the second twice. -/
def eachOther (v : ℕ) : List ℕ := if v = 0 then [1, 1] else [0]

/-- The second is nearer, and both are expanded. -/
theorem two_points_exported :
    let e := iterateToFixedPointEmit 2 eachOther (lineStore.copiedDistance squaredSum [1]) 1 [0]
    e.out = [(0, 1), (1, 0)] ∧ e.bestL.hasUnexpandedNode = false ∧
    (∃ r, iterateToFixedPoint 2 eachOther (lineStore.getDistance squaredSum [1]) 1 [0] false
        (Iterate.clear ⟨empty 1, ⟨[], ∅⟩, [], [], 0⟩) = .ok r ∧
      (r.expandedNodes.map fun m => (m.id, m.distance)) = [(0, 1), (1, 0)] ∧
      r.cmps = e.cmps ∧ r.bestL = e.bestL) ∧
    (e.out.map Prod.fst).Nodup ∧ ∀ m ∈ e.bestL.data, m.id ∈ e.out.map Prod.fst := by
  have hout : (iterateToFixedPointEmit 2 eachOther (lineStore.copiedDistance squaredSum [1]) 1
      [0]).out = [(0, 1), (1, 0)] := by decide
  have hinit : ∀ v ∈ [0], v < 2 := by decide
  have hg : ∀ v < 2, ∀ w ∈ eachOther v, w < 2 := by decide
  obtain ⟨hdone, ⟨r, hrun, hpool, hcmps, hqueue⟩, hnodup, hmem⟩ := emit_refines_fixed_point
    lineStore squaredSum [1] Nat.one_pos hinit hg ⟨empty 1, ⟨[], ∅⟩, [], [], 0⟩
  exact ⟨hout, hdone, ⟨r, hrun, hpool.trans hout, hcmps, hqueue⟩, hnodup, hmem⟩

end HiDANN.Construction
