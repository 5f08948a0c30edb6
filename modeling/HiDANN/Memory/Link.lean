import HiDANN.Construction.EmitRefinement
import HiDANN.Library.Runs
import HiDANN.Memory.OccludeList
import Mathlib.Algebra.Order.BigOperators.Group.List

/-! `Index::link`. The iterations of its two parallel loops are interleaved between any two
critical sections: a search reads one neighbour list at a time, `inter_insert` reads and
extends a list under its lock but prunes a copy of it outside, and what other iterations add
to the list meanwhile is overwritten. A list is read as it is at that moment, so a search sees
a graph that changes below it. -/

namespace HiDANN.Memory

open Construction Search Relation

variable {K : Type*} [Field K] [LinearOrder K]

/-- What `link` reads and does not change. `slack` is `GRAPH_SLACK_FACTOR * range` as the
floats round it; `queryDistance` goes from the vector of a location, as a query, to an id. -/
structure LinkArgs (K : Type*) where
  nd : ℕ
  maxPoints : ℕ
  numFrozenPts : ℕ
  medoid : ℕ
  indexingQueueSize : ℕ
  slack : ℕ
  queryDistance : ℕ → ℕ → K
  prune : PruneArgs K

/-- An iteration. The first loop takes it to `finished`, the second to `cleaned`. -/
inductive Task (K : Type*) where
  | waiting
  | searching (it : Iterate K)
  | linking
  | inserting (rest : List ℕ)
  | pruning (des : ℕ) (copyOfNeighbors rest : List ℕ)
  | storing (des : ℕ) (newOutNeighbors rest : List ℕ)
  | finished
  | cleaned

def Task.linked : Task K → Bool
  | .finished => true
  | .cleaned => true
  | _ => false

def Task.unpruned : Task K → Bool
  | .waiting => true
  | .searching _ => true
  | _ => false

def Task.placed : Task K → Bool
  | .waiting => false
  | .searching _ => false
  | .linking => false
  | _ => true

omit [Field K] [LinearOrder K] in
theorem Task.not_unpruned {t : Task K} (h : t.placed) : ¬ t.unpruned := by
  cases t with
  | waiting => cases h
  | searching it => cases h
  | _ => exact nofun

structure LinkState (K : Type*) where
  graph : ℕ → List ℕ
  prunedList : ℕ → List ℕ
  task : ℕ → Task K

namespace LinkArgs

variable (A : LinkArgs K)

def frozen : List ℕ := List.range' A.maxPoints A.numFrozenPts

def visitOrder : List ℕ := List.range A.nd ++ A.frozen

/-- `_start`. -/
def entry : ℕ := if 0 < A.numFrozenPts then A.maxPoints else A.medoid

/-- `get_init_ids`. -/
def initIds : List ℕ := A.entry :: A.frozen.filter (· ≠ A.entry)

def totalNumPoints : ℕ := A.maxPoints + A.numFrozenPts

def fastIterate : Bool := A.totalNumPoints ≤ maxPointsForUsingBitset

def pruneArgs (location : ℕ) : PruneArgs K :=
  { A.prune with location, deleteSet := ∅ }

/-- A search up to its loop, in a scratch space that has been used before. -/
def searchStart (location : ℕ) (scratch : Iterate K) : Except String (Iterate K) :=
  (visitInit A.totalNumPoints A.fastIterate (A.queryDistance location) A.initIds
    { scratch.clear with
      bestL := { scratch.clear.bestL with capacity := A.indexingQueueSize }
      visited := scratch.clear.visited.resize A.fastIterate A.totalNumPoints }).map
    fun it => { it with cmps := 0 }

/-- `dummy_pool`; `visited` is `dummy_visited`. -/
def dummyPool (des : ℕ) : List ℕ → List ℕ → List (Neighbor K)
  | [], _ => []
  | curNbr :: nbrs, visited =>
    if curNbr ∉ visited ∧ curNbr ≠ des then
      ⟨curNbr, A.prune.getDistance des curNbr, false⟩ :: dummyPool des nbrs (curNbr :: visited)
    else dummyPool des nbrs visited

/-- The list that a pruned copy gives. -/
def pruneCopy (fuel des : ℕ) (nbrs : List ℕ) : Option (List ℕ) :=
  (A.pruneArgs des).pruneNeighbors fuel (A.dummyPool des nbrs [])

/-- One step of the iteration of `node`: up to the end of its next critical section, or what
it does between two. The second loop begins when all of the first is done. -/
def step (scratch : Iterate K) (fuel node : ℕ) (s : LinkState K) : Option (LinkState K) :=
  let goto (t : Task K) : LinkState K := { s with task := Function.update s.task node t }
  match s.task node with
  | .waiting =>
    match A.searchStart node scratch with
    | .ok it => some (goto (.searching it))
    | .error _ => none
  | .searching it =>
    if it.bestL.hasUnexpandedNode then
      some (goto (.searching
        (iterateStep A.fastIterate false s.graph (A.queryDistance node) it)))
    else
      ((A.pruneArgs node).pruneNeighbors fuel
        (it.expandedNodes.filter fun m => m.id ≠ node)).map fun pruned =>
          { goto .linking with prunedList := Function.update s.prunedList node pruned }
  | .linking =>
    some { goto (.inserting (s.prunedList node)) with
      graph := Function.update s.graph node (s.prunedList node) }
  | .inserting [] => some (goto .finished)
  | .inserting (des :: rest) =>
    if node ∈ s.graph des then some (goto (.inserting rest))
    else if (s.graph des).length < A.slack then
      some { goto (.inserting rest) with
        graph := Function.update s.graph des (s.graph des ++ [node]) }
    else some (goto (.pruning des (s.graph des ++ [node]) rest))
  | .pruning des copy rest =>
    (A.pruneCopy fuel des copy).map fun new => goto (.storing des new rest)
  | .storing des new rest =>
    some { goto (.inserting rest) with graph := Function.update s.graph des new }
  | .finished =>
    if A.visitOrder.all fun v => (s.task v).linked then
      if A.prune.degree < (s.graph node).length then
        (A.pruneCopy fuel node (s.graph node)).map fun new =>
          { goto .cleaned with graph := Function.update s.graph node new }
      else some (goto .cleaned)
    else none
  | .cleaned => none

def start : LinkState K := ⟨fun _ => [], fun _ => [], fun _ => .waiting⟩

def Step (s s' : LinkState K) : Prop :=
  ∃ node ∈ A.visitOrder, ∃ scratch fuel, A.step scratch fuel node s = some s'

def Done (s : LinkState K) : Prop :=
  ∀ v ∈ A.visitOrder, s.task v = .cleaned

structure Valid : Prop where
  nd_le : A.nd ≤ A.maxPoints
  entry_mem : A.entry ∈ A.visitOrder
  queue_pos : 0 < A.indexingQueueSize
  dist_nonneg : ∀ u v, 0 ≤ A.prune.getDistance u v
  metric_ne : A.prune.metric ≠ .innerProduct
  alpha_ge : 1 ≤ A.prune.alpha

/-! ### Lists -/

/-- The list of `v` has different nodes in `P`, not `v` itself. -/
structure Listed (P : ℕ → Prop) (v : ℕ) (ids : List ℕ) : Prop where
  nodup : ids.Nodup
  not_self : v ∉ ids
  nodes : ∀ w ∈ ids, P w

theorem Listed.nil (P : ℕ → Prop) (v : ℕ) : Listed P v [] :=
  ⟨List.nodup_nil, List.not_mem_nil, by simp⟩

theorem Listed.mono {P Q : ℕ → Prop} {v : ℕ} {ids : List ℕ} (h : Listed P v ids)
    (hPQ : ∀ w, P w → Q w) : Listed Q v ids :=
  ⟨h.nodup, h.not_self, fun w hw => hPQ w (h.nodes w hw)⟩

theorem Listed.of_subset {P : ℕ → Prop} {v : ℕ} {ids new : List ℕ} (h : Listed P v ids)
    (hnd : new.Nodup) (hsub : new ⊆ ids) : Listed P v new :=
  ⟨hnd, fun hv => h.not_self (hsub hv), fun w hw => h.nodes w (hsub hw)⟩

theorem mem_concat {Q : ℕ → Prop} {ids : List ℕ} {node : ℕ} (hids : ∀ w ∈ ids, Q w)
    (hnode : Q node) : ∀ w ∈ ids ++ [node], Q w := by
  intro w hw
  rcases List.mem_append.mp hw with hw | hw
  · exact hids w hw
  · exact List.mem_singleton.mp hw ▸ hnode

theorem Listed.concat {P : ℕ → Prop} {v : ℕ} {ids : List ℕ} (h : Listed P v ids) {node : ℕ}
    (hnode : P node) (hnot : node ∉ ids) (hne : v ≠ node) : Listed P v (ids ++ [node]) := by
  refine ⟨List.concat_eq_append ▸ h.nodup.concat hnot, ?_, mem_concat h.nodes hnode⟩
  exact fun hv => mem_concat (Q := (v ≠ ·)) (fun w hw he => h.not_self (he ▸ hw)) hne v hv rfl

/-- Each node of the list of `v` is in the pruned list of `v` or has `v` in its own. -/
structure Links (pruned : ℕ → List ℕ) (v : ℕ) (ids : List ℕ) : Prop
    extends Listed (· ∈ A.visitOrder) v ids where
  chosen : ∀ w ∈ ids, w ∈ pruned v ∨ v ∈ pruned w

variable {A} {pruned pruned' : ℕ → List ℕ} {v : ℕ} {ids : List ℕ}

omit [Field K] [LinearOrder K] in
theorem Links.nil (pruned : ℕ → List ℕ) (v : ℕ) : A.Links pruned v [] :=
  ⟨.nil _ v, by simp⟩

omit [Field K] [LinearOrder K] in
theorem Links.mono (h : A.Links pruned v ids) (hsub : ∀ w, pruned w ⊆ pruned' w) :
    A.Links pruned' v ids :=
  ⟨h.toListed, fun w hw => (h.chosen w hw).imp (@hsub v w) (@hsub w v)⟩

omit [Field K] [LinearOrder K] in
theorem Links.of_subset {new : List ℕ} (h : A.Links pruned v ids) (hnd : new.Nodup)
    (hsub : new ⊆ ids) : A.Links pruned v new :=
  ⟨h.toListed.of_subset hnd hsub, fun w hw => h.chosen w (hsub hw)⟩

omit [Field K] [LinearOrder K] in
theorem Links.concat {node : ℕ} (h : A.Links pruned v ids) (hnode : node ∈ A.visitOrder)
    (hnot : node ∉ ids) (hchosen : v ∈ pruned node) (hne : v ≠ node) :
    A.Links pruned v (ids ++ [node]) :=
  ⟨h.toListed.concat hnode hnot hne, mem_concat h.chosen (.inr hchosen)⟩

/-! ### Prunes -/

section Pruned

omit [Field K] [LinearOrder K] in
theorem mem_dummyPool {des : ℕ} {nbrs visited : List ℕ} {m : Neighbor K}
    (hm : m ∈ A.dummyPool des nbrs visited) :
    m.id ∈ nbrs ∧ m.id ∉ visited ∧ m.distance = A.prune.getDistance des m.id := by
  induction nbrs generalizing visited with
  | nil => cases hm
  | cons cur nbrs ih =>
    rw [dummyPool] at hm
    split_ifs at hm with hcur
    · rcases List.mem_cons.mp hm with rfl | hm
      · exact ⟨List.mem_cons_self, hcur.1, rfl⟩
      · obtain ⟨hmem, hnot, hd⟩ := ih hm
        exact ⟨List.mem_cons_of_mem _ hmem, fun h => hnot (List.mem_cons_of_mem _ h), hd⟩
    · obtain ⟨hmem, hnot, hd⟩ := ih hm
      exact ⟨List.mem_cons_of_mem _ hmem, hnot, hd⟩

omit [Field K] [LinearOrder K] in
theorem nodup_dummyPool (des : ℕ) (nbrs visited : List ℕ) :
    ((A.dummyPool des nbrs visited).map Neighbor.id).Nodup := by
  induction nbrs generalizing visited with
  | nil => exact List.nodup_nil
  | cons cur nbrs ih =>
    rw [dummyPool]
    split_ifs
    · refine List.nodup_cons.mpr ⟨fun hmem => ?_, ih _⟩
      obtain ⟨m, hm, he⟩ := List.mem_map.mp hmem
      exact (mem_dummyPool hm).2.1 (he ▸ List.mem_cons_self)
    · exact ih _

variable [IsStrictOrderedRing K] [Archimedean K] (hA : A.Valid)

include hA

/-- A pool of different ids, each with a distance of its own, is pruned. -/
theorem pruned_of_pool (location : ℕ) {pool : List (Neighbor K)} (dl : ℕ → K)
    (hids : (pool.map Neighbor.id).Nodup) (hdl : ∀ c ∈ pool, c.distance = dl c.id) :
    (∃ fuel out, (A.pruneArgs location).pruneNeighbors fuel pool = some out) ∧
      ∀ fuel out, (A.pruneArgs location).pruneNeighbors fuel pool = some out →
        out.Nodup ∧ out.length ≤ A.prune.degree ∧
          ∀ w ∈ out, w ∈ pool.map Neighbor.id ∧ w ≠ location := by
  let exact : ℕ → K := fun v => if A.prune.pqDist then A.prune.getDistance v location else dl v
  have hdl' : ∀ c ∈ (A.pruneArgs location).exactDistances pool, c.distance = exact c.id := by
    intro c hc
    change c.distance = if A.prune.pqDist then A.prune.getDistance c.id location else dl c.id
    rw [PruneArgs.exactDistances] at hc
    have hpq : (A.pruneArgs location).pqDist = A.prune.pqDist := rfl
    rw [hpq] at hc
    split_ifs at hc ⊢ with h
    · obtain ⟨u, -, rfl⟩ := List.mem_map.mp hc
      rfl
    · exact hdl c hc
  constructor
  · obtain ⟨fuel, out, hall, -⟩ := (A.pruneArgs location).exists_pruneNeighbors hA.dist_nonneg
      hA.metric_ne hA.alpha_ge hids hdl'
    exact ⟨fuel, out, hall fuel le_rfl⟩
  · intro fuel out hrun
    have hout := (A.pruneArgs location).pruneNeighbors_spec hA.dist_nonneg hA.metric_ne
      hA.alpha_ge hids hdl' hrun
    exact ⟨hout.nodup, hout.length_le, hout.mem⟩

theorem exists_pruneCopy (des : ℕ) (nbrs : List ℕ) :
    ∃ fuel new, A.pruneCopy fuel des nbrs = some new :=
  (pruned_of_pool hA des _ (nodup_dummyPool des nbrs []) fun _ hc => (mem_dummyPool hc).2.2).1

/-- A pruned copy is a short list of the ids of the copy. -/
theorem pruneCopy_spec {fuel des : ℕ} {nbrs new : List ℕ}
    (hrun : A.pruneCopy fuel des nbrs = some new) :
    new.Nodup ∧ new ⊆ nbrs ∧ new.length ≤ A.prune.degree := by
  obtain ⟨hnd, hlen, hmem⟩ := (pruned_of_pool hA des _ (nodup_dummyPool des nbrs [])
    fun _ hc => (mem_dummyPool hc).2.2).2 fuel new hrun
  refine ⟨hnd, fun w hw => ?_, hlen⟩
  obtain ⟨m, hm, rfl⟩ := List.mem_map.mp (hmem w hw).1
  exact (mem_dummyPool hm).1

theorem pruneCopy_links {fuel des : ℕ} {nbrs new : List ℕ} (h : A.Links pruned des nbrs)
    (hrun : A.pruneCopy fuel des nbrs = some new) :
    A.Links pruned des new ∧ new.length ≤ A.prune.degree := by
  obtain ⟨hnd, hsub, hlen⟩ := pruneCopy_spec hA hrun
  exact ⟨h.of_subset hnd hsub, hlen⟩

end Pruned

/-! ### Searches -/

/-- A search that has reached nodes in `P` only, each of them once. -/
def Searches (A : LinkArgs K) (P : ℕ → Prop) (location : ℕ) (it : Iterate K) : Prop :=
  ∃ e, InStep A.fastIterate A.totalNumPoints it e ∧
    EmitInv A.totalNumPoints (A.queryDistance location) A.indexingQueueSize e ∧
    ∀ w ∈ e.inserted, P w

variable {P : ℕ → Prop}

theorem Valid.lt_total (hA : A.Valid) {v : ℕ} (hv : v ∈ A.visitOrder) :
    v < A.totalNumPoints := by
  rw [totalNumPoints]
  rcases List.mem_append.mp hv with hv | hv
  · have := List.mem_range.mp hv
    have := hA.nd_le
    omega
  · have := List.mem_range'_1.mp hv
    omega

theorem Valid.initIds_mem (hA : A.Valid) : ∀ v ∈ A.initIds, v ∈ A.visitOrder := by
  intro v hv
  rcases List.mem_cons.mp hv with rfl | hv
  · exact hA.entry_mem
  · exact List.mem_append_right _ (List.mem_of_mem_filter hv)

omit [Field K] in
theorem inserted_emitStart (dist : ℕ → K) (L : ℕ) (initIds : List ℕ) :
    ∀ w ∈ (emitStart dist L initIds).inserted, w ∈ initIds := by
  have hfold : ∀ (ids : List ℕ) (e : Emit K), ∀ w ∈ (ids.foldl
      (fun st v => { offer dist st [v] with cmps := 0 }) e).inserted, w ∈ e.inserted ∨ w ∈ ids := by
    intro ids
    induction ids with
    | nil => exact fun e w hw => .inl hw
    | cons v ids ih =>
      intro e w hw
      rcases ih _ w hw with hw | hw
      · rcases List.mem_append.mp hw with hw | hw
        · exact .inl hw
        · exact .inr (List.mem_cons.mpr
            (.inl (List.mem_singleton.mp (List.mem_of_mem_filter hw))))
      · exact .inr (List.mem_cons_of_mem _ hw)
  intro w hw
  exact (hfold initIds _ w hw).resolve_left List.not_mem_nil

/-- A search starts, in any scratch space. -/
theorem exists_searchStart (hA : A.Valid) (hP : ∀ v ∈ A.initIds, P v) (location : ℕ)
    (scratch : Iterate K) :
    ∃ it, A.searchStart location scratch = .ok it ∧ it.expandedNodes = [] ∧
      A.Searches P location it := by
  have hinit : ∀ v ∈ A.initIds, v < A.totalNumPoints :=
    fun v hv => hA.lt_total (hA.initIds_mem v hv)
  have hfast : A.fastIterate = true → A.totalNumPoints ≤ maxPointsForUsingBitset :=
    fun h => of_decide_eq_true h
  obtain ⟨r, hr, hin⟩ := (InStep.clear scratch hfast A.indexingQueueSize).init
    (A.queryDistance location) rfl hinit
  refine ⟨{ r with cmps := 0 }, by rw [searchStart, hr]; rfl, ?_, _, hin,
    emitStart_inv hA.queue_pos hinit, fun w hw => hP w (inserted_emitStart _ _ _ w hw)⟩
  have hout : ∀ (ids : List ℕ) (e : Emit K), (ids.foldl
      (fun st v => { offer (A.queryDistance location) st [v] with cmps := 0 }) e).out = e.out := by
    intro ids
    induction ids with
    | nil => exact fun _ => rfl
    | cons v ids ih => exact fun e => ih _
  have := hin.pool
  rw [hout] at this
  exact List.map_eq_nil_iff.mp this

omit [Field K] in
/-- One round over the lists as they are now expands one more node. -/
theorem Searches.step {graph : ℕ → List ℕ} {location : ℕ} {it : Iterate K}
    (hlt : ∀ v < A.totalNumPoints, ∀ w ∈ graph v, w < A.totalNumPoints)
    (hgraph : ∀ v, P v → ∀ w ∈ graph v, P w) (h : A.Searches P location it)
    (hne : it.bestL.hasUnexpandedNode) :
    A.Searches P location (iterateStep A.fastIterate false graph (A.queryDistance location) it) ∧
      (iterateStep A.fastIterate false graph (A.queryDistance location) it).expandedNodes.length =
        it.expandedNodes.length + 1 := by
  obtain ⟨e, hin, hinv, hnodes⟩ := h
  rw [hin.queue] at hne
  obtain ⟨m, hm, hins, -⟩ := hinv.tracks.take hne
  obtain ⟨hinv', hlen⟩ := hinv.step hlt hne
  have hin' : InStep A.fastIterate A.totalNumPoints
      (iterateStep A.fastIterate false graph (A.queryDistance location) it)
      (emitStep graph (A.queryDistance location) e) := by
    refine hin.step fun m' q hm' => ?_
    obtain rfl := Option.some.inj ((congrArg Prod.fst hm').symm.trans hm)
    exact hlt m'.id (hinv.lt _ hins)
  refine ⟨⟨_, hin', hinv', ?_⟩, ?_⟩
  · rw [emitStep, ← Prod.mk.eta (p := e.bestL.closestUnexpanded), hm]
    intro w hw
    rcases List.mem_append.mp hw with hw | hw
    · exact hnodes w hw
    · exact hgraph m.id (hnodes _ hins) w (List.mem_of_mem_filter hw)
  · have h1 := congrArg List.length hin'.pool
    have h2 := congrArg List.length hin.pool
    rw [List.length_map] at h1 h2
    omega

omit [Field K] in
/-- A search goes on with other nodes and vectors, as long as those it has reached stay. -/
theorem Searches.congr {B : LinkArgs K} {Q : ℕ → Prop} {location : ℕ} {it : Iterate K}
    (h : A.Searches P location it) (htotal : B.totalNumPoints = A.totalNumPoints)
    (hqueue : B.indexingQueueSize = A.indexingQueueSize) (hPQ : ∀ w, P w → Q w)
    (hdist : ∀ w, P w → B.queryDistance location w = A.queryDistance location w) :
    B.Searches Q location it := by
  obtain ⟨e, hin, hinv, hnodes⟩ := h
  have hdist' : ∀ v ∈ e.inserted, B.queryDistance location v = A.queryDistance location v :=
    fun v hv => hdist v (hnodes v hv)
  have hrank : rank (B.queryDistance location) '' {v | v ∈ e.inserted} =
      rank (A.queryDistance location) '' {v | v ∈ e.inserted} :=
    Set.image_congr fun v hv => by rw [rank, rank, hdist' v hv]
  refine ⟨e, ?_, ?_, fun w hw => hPQ w (hnodes w hw)⟩
  · rw [fastIterate, htotal]
    exact hin
  · rw [htotal, hqueue]
    refine ⟨⟨hinv.tracks.valid, hrank ▸ hinv.tracks.smallest, fun m hm => ?_, hinv.tracks.taken,
      hinv.tracks.sub⟩, hinv.capacity, hinv.nodup, fun p hp => ?_, hinv.lt⟩
    · rw [hinv.tracks.dist_eq m hm, hdist' _ (hinv.tracks.mem hm)]
    · rw [hinv.dist_eq p hp,
        hdist' _ (hinv.tracks.sub (List.mem_map_of_mem (f := Prod.fst) hp))]

omit [Field K] in
/-- The pool of a search has different nodes, with their distances. -/
theorem Searches.pool {location : ℕ} {it : Iterate K} (h : A.Searches P location it) :
    (it.expandedNodes.map Neighbor.id).Nodup ∧
      (∀ m ∈ it.expandedNodes, m.distance = A.queryDistance location m.id) ∧
      (∀ m ∈ it.expandedNodes, P m.id) ∧ it.expandedNodes.length ≤ A.totalNumPoints := by
  obtain ⟨e, hin, hinv, hnodes⟩ := h
  have hids : it.expandedNodes.map Neighbor.id = e.out.map Prod.fst := by
    rw [← hin.pool, List.map_map]
    rfl
  have hmem : ∀ m ∈ it.expandedNodes, (m.id, m.distance) ∈ e.out := by
    intro m hm
    rw [← hin.pool]
    exact List.mem_map_of_mem (f := fun m => (m.id, m.distance)) hm
  refine ⟨hids ▸ hinv.nodup, fun m hm => hinv.dist_eq _ (hmem m hm), fun m hm => ?_, ?_⟩
  · exact hnodes _ (hinv.tracks.sub (List.mem_map_of_mem (f := Prod.fst) (hmem m hm)))
  · have := hinv.length_le
    rw [← hin.pool, List.length_map] at this
    exact this

/-! ### The steps of the first loop -/

/-- What an iteration has got so far: nodes in `P`, and lists that `G` allows. -/
def TaskOk (A : LinkArgs K) (P : ℕ → Prop) (G : ℕ → List ℕ → Prop) (pruned : List ℕ) (node : ℕ) :
    Task K → Prop
  | .searching it => A.Searches P node it
  | .linking => Listed P node pruned ∧ pruned.length ≤ A.prune.degree
  | .inserting rest => Listed P node pruned ∧ rest ⊆ pruned ∧ rest.length ≤ A.prune.degree
  | .pruning des copy rest => (Listed P node pruned ∧ des :: rest ⊆ pruned ∧
      rest.length ≤ A.prune.degree) ∧ G des copy
  | .storing des new rest => (Listed P node pruned ∧ des :: rest ⊆ pruned ∧
      rest.length ≤ A.prune.degree) ∧ G des new ∧ new.length ≤ A.prune.degree
  | _ => True

omit [Field K] in
theorem TaskOk.mono {B : LinkArgs K} {Q : ℕ → Prop} {G H : ℕ → List ℕ → Prop} {pruned : List ℕ}
    {node : ℕ} {t : Task K} (h : A.TaskOk P G pruned node t)
    (hsearch : ∀ it, A.Searches P node it → B.Searches Q node it) (hPQ : ∀ w, P w → Q w)
    (hGH : ∀ des ids, G des ids → H des ids) (hdeg : B.prune.degree = A.prune.degree) :
    B.TaskOk Q H pruned node t := by
  cases t with
  | waiting => exact trivial
  | searching it => exact hsearch it h
  | linking =>
    rw [TaskOk, hdeg]
    exact ⟨h.1.mono hPQ, h.2⟩
  | inserting rest =>
    rw [TaskOk, hdeg]
    exact ⟨h.1.mono hPQ, h.2⟩
  | pruning des copy rest =>
    rw [TaskOk, hdeg]
    exact ⟨⟨h.1.1.mono hPQ, h.1.2⟩, hGH _ _ h.2⟩
  | storing des new rest =>
    rw [TaskOk, hdeg]
    exact ⟨⟨h.1.1.mono hPQ, h.1.2⟩, hGH _ _ h.2.1, h.2.2⟩
  | finished => exact trivial
  | cleaned => exact trivial

/-- A bound on the steps an iteration still makes. -/
def remaining (A : LinkArgs K) : Task K → ℕ
  | .waiting => A.totalNumPoints + 3 * A.prune.degree + 5
  | .searching it => (A.totalNumPoints - it.expandedNodes.length) + 3 * A.prune.degree + 4
  | .linking => 3 * A.prune.degree + 3
  | .inserting rest => 3 * rest.length + 2
  | .pruning _ _ rest => 3 * rest.length + 4
  | .storing _ _ rest => 3 * rest.length + 3
  | .finished => 1
  | .cleaned => 0

structure Ground (A : LinkArgs K) (P : ℕ → Prop) (G : ℕ → List ℕ → Prop) (node : ℕ)
    (s : LinkState K) : Prop where
  init : ∀ v ∈ A.initIds, P v
  lt : ∀ v < A.totalNumPoints, ∀ w ∈ s.graph v, w < A.totalNumPoints
  closed : ∀ v, P v → ∀ w ∈ s.graph v, P w
  lists : ∀ v, P v → G v (s.graph v)
  add : (s.task node).placed → ∀ des ∈ s.prunedList node, des ≠ node → ∀ ids, G des ids →
    node ∉ ids → G des (ids ++ [node])
  sub : ∀ des ids new, G des ids → new.Nodup → new ⊆ ids → G des new

/-- What a step does: the iteration goes on, has chosen its list, sets it, or gives another node
a list. -/
inductive Effect (A : LinkArgs K) (P : ℕ → Prop) (G : ℕ → List ℕ → Prop) (node : ℕ)
    (s : LinkState K) : Task K → LinkState K → Prop where
  | goto {t : Task K} : A.TaskOk P G (s.prunedList node) node t →
    t.placed = (s.task node).placed → t.unpruned = (s.task node).unpruned →
    Effect A P G node s t { s with task := Function.update s.task node t }
  | choose {it : Iterate K} {ids : List ℕ} : s.task node = .searching it → Listed P node ids →
    ids.length ≤ A.prune.degree →
    Effect A P G node s .linking
      ⟨s.graph, Function.update s.prunedList node ids, Function.update s.task node .linking⟩
  | place : s.task node = .linking → Listed P node (s.prunedList node) →
    (s.prunedList node).length ≤ A.prune.degree →
    Effect A P G node s (.inserting (s.prunedList node))
      ⟨Function.update s.graph node (s.prunedList node), s.prunedList,
        Function.update s.task node (.inserting (s.prunedList node))⟩
  | store {des : ℕ} {ids : List ℕ} {t : Task K} : (s.task node).placed → t.placed → P des →
    G des ids → ids.length ≤ max A.slack A.prune.degree →
    A.TaskOk P G (s.prunedList node) node t →
    Effect A P G node s t
      ⟨Function.update s.graph des ids, s.prunedList, Function.update s.task node t⟩

section Steps

variable [IsStrictOrderedRing K] [Archimedean K] (hA : A.Valid) {G : ℕ → List ℕ → Prop}
  {s s' : LinkState K} {node : ℕ}

include hA

/-- What a search has expanded is pruned to a list of its node. -/
theorem Searches.listed {it : Iterate K} (h : A.Searches P node it) :
    (∃ fuel ids, (A.pruneArgs node).pruneNeighbors fuel
      (it.expandedNodes.filter fun m => m.id ≠ node) = some ids) ∧
      ∀ fuel ids, (A.pruneArgs node).pruneNeighbors fuel
        (it.expandedNodes.filter fun m => m.id ≠ node) = some ids →
        Listed P node ids ∧ ids.length ≤ A.prune.degree := by
  obtain ⟨hids, hdl, hnodes, -⟩ := h.pool
  obtain ⟨hex, hspec⟩ := pruned_of_pool hA node (A.queryDistance node)
    (hids.sublist (List.filter_sublist.map _)) fun c hc => hdl c (List.mem_of_mem_filter hc)
  refine ⟨hex, fun fuel ids hrun => ?_⟩
  obtain ⟨hnd, hlen, hmem⟩ := hspec fuel ids hrun
  refine ⟨⟨hnd, fun hself => (hmem node hself).2 rfl, fun w hw => ?_⟩, hlen⟩
  obtain ⟨m, hm, rfl⟩ := List.mem_map.mp (hmem w hw).1
  exact hnodes m (List.mem_of_mem_filter hm)

omit [IsStrictOrderedRing K] [Archimedean K] hA in
/-- An iteration at the list of `des` skips it, adds its node to it, or takes a copy to prune. -/
theorem insert_effect {des : ℕ} {rest : List ℕ} (hground : A.Ground P G node s)
    (hok : A.TaskOk P G (s.prunedList node) node (.inserting (des :: rest)))
    (htask : s.task node = .inserting (des :: rest)) {scratch : Iterate K} {fuel : ℕ}
    (hstep : A.step scratch fuel node s = some s') :
    ∃ t, A.Effect P G node s t s' ∧ t ≠ .cleaned ∧ s'.task = Function.update s.task node t ∧
      A.remaining t < A.remaining (.inserting (des :: rest)) := by
  obtain ⟨hlisted, hsub, hlen⟩ := hok
  have hplaced : (s.task node).placed := htask ▸ rfl
  obtain ⟨hdes, hrest⟩ := List.cons_subset.mp hsub
  have hne : des ≠ node := fun he => hlisted.not_self (he ▸ hdes)
  have hP := hlisted.nodes des hdes
  have hlen : rest.length ≤ A.prune.degree := (Nat.le_succ _).trans hlen
  have hadd := hground.add hplaced des hdes hne _ (hground.lists des hP)
  simp only [LinkArgs.step, htask] at hstep
  split_ifs at hstep with hin hroom
  · cases hstep
    refine ⟨.inserting rest, .goto ⟨hlisted, hrest, hlen⟩ (htask ▸ rfl) (htask ▸ rfl), nofun,
      rfl, ?_⟩
    rw [remaining, remaining, List.length_cons]
    omega
  · cases hstep
    refine ⟨.inserting rest, .store hplaced rfl hP (hadd hin) ?_ ⟨hlisted, hrest, hlen⟩, nofun,
      rfl, ?_⟩
    · rw [List.length_append, List.length_singleton]
      exact (Nat.succ_le_of_lt hroom).trans (le_max_left _ _)
    · rw [remaining, remaining, List.length_cons]
      omega
  · cases hstep
    refine ⟨.pruning des _ rest,
      .goto ⟨⟨hlisted, hsub, hlen⟩, hadd hin⟩ (htask ▸ rfl) (htask ▸ rfl), nofun, rfl, ?_⟩
    rw [remaining, remaining, List.length_cons]
    omega

/-- A step of the first loop has one of these effects and takes its iteration further. -/
theorem step_effect (hground : A.Ground P G node s)
    (hok : A.TaskOk P G (s.prunedList node) node (s.task node))
    (hnot : (s.task node).linked = false) {scratch : Iterate K} {fuel : ℕ}
    (hstep : A.step scratch fuel node s = some s') :
    ∃ t, A.Effect P G node s t s' ∧ t ≠ .cleaned ∧ s'.task = Function.update s.task node t ∧
      A.remaining t < A.remaining (s.task node) := by
  cases htask : s.task node with
  | waiting =>
    rw [LinkArgs.step, htask] at hstep
    obtain ⟨it, hit, hnil, hsearch⟩ := exists_searchStart hA hground.init node scratch
    simp only [hit] at hstep
    cases hstep
    refine ⟨_, .goto hsearch (htask ▸ rfl) (htask ▸ rfl), nofun, rfl, ?_⟩
    rw [remaining, remaining, hnil, List.length_nil]
    omega
  | searching it =>
    rw [htask] at hok
    rw [LinkArgs.step, htask] at hstep
    have hsearch : A.Searches P node it := hok
    simp only at hstep
    split_ifs at hstep with hne
    · cases hstep
      obtain ⟨hnext, hlen⟩ := hsearch.step hground.lt hground.closed hne
      refine ⟨_, .goto hnext (htask ▸ rfl) (htask ▸ rfl), nofun, rfl, ?_⟩
      have := hnext.pool.2.2.2
      rw [remaining, remaining]
      omega
    · obtain ⟨ids, hrun, rfl⟩ := Option.map_eq_some_iff.mp hstep
      obtain ⟨hlisted, hlen⟩ := (hsearch.listed hA).2 fuel ids hrun
      refine ⟨_, .choose htask hlisted hlen, nofun, rfl, ?_⟩
      rw [remaining, remaining]
      omega
  | linking =>
    rw [htask] at hok
    rw [LinkArgs.step, htask] at hstep
    cases hstep
    refine ⟨_, .place htask hok.1 hok.2, nofun, rfl, ?_⟩
    have := hok.2
    rw [remaining, remaining]
    omega
  | inserting rest =>
    cases rest with
    | nil =>
      rw [LinkArgs.step, htask] at hstep
      cases hstep
      refine ⟨.finished, .goto trivial (htask ▸ rfl) (htask ▸ rfl), nofun, rfl, ?_⟩
      rw [remaining, remaining]
      omega
    | cons des rest =>
      rw [htask] at hok
      exact insert_effect hground hok htask hstep
  | pruning des copy rest =>
    rw [htask] at hok
    rw [LinkArgs.step, htask] at hstep
    obtain ⟨new, hrun, rfl⟩ := Option.map_eq_some_iff.mp hstep
    obtain ⟨hnd, hsub, hlen⟩ := pruneCopy_spec hA hrun
    have hnew : G des new := hground.sub des copy new hok.2 hnd hsub
    refine ⟨.storing des new rest, .goto ⟨hok.1, hnew, hlen⟩ (htask ▸ rfl) (htask ▸ rfl), nofun,
      rfl, ?_⟩
    rw [remaining, remaining]
    omega
  | storing des new rest =>
    rw [htask] at hok
    rw [LinkArgs.step, htask] at hstep
    obtain ⟨⟨hlisted, hsub, hlen⟩, hnew, hnewlen⟩ := hok
    obtain ⟨hdes, hrest⟩ := List.cons_subset.mp hsub
    cases hstep
    refine ⟨.inserting rest, .store (htask ▸ rfl) rfl (hlisted.nodes des hdes) hnew
      (hnewlen.trans (le_max_right _ _)) ⟨hlisted, hrest, hlen⟩, nofun, rfl, ?_⟩
    rw [remaining, remaining]
    omega
  | finished =>
    rw [htask] at hnot
    cases hnot
  | cleaned =>
    rw [htask] at hnot
    cases hnot

theorem exists_step (hinit : ∀ v ∈ A.initIds, P v)
    (hok : A.TaskOk P G (s.prunedList node) node (s.task node))
    (hnot : (s.task node).linked = false) :
    ∃ scratch fuel s', A.step scratch fuel node s = some s' := by
  let scratch : Iterate K := ⟨NeighborPriorityQueue.empty 1, ⟨[], ∅⟩, [], [], 0⟩
  refine ⟨scratch, ?_⟩
  simp only [LinkArgs.step]
  cases htask : s.task node with
  | waiting =>
    obtain ⟨it, hit, -⟩ := exists_searchStart hA hinit node scratch
    exact ⟨0, _, by rw [hit]⟩
  | searching it =>
    rw [htask] at hok
    dsimp only
    split_ifs
    · exact ⟨0, _, rfl⟩
    · obtain ⟨fuel, ids, hrun⟩ := (Searches.listed hA hok).1
      exact ⟨fuel, _, by rw [hrun]; rfl⟩
  | linking => exact ⟨0, _, rfl⟩
  | inserting rest =>
    cases rest with
    | nil => exact ⟨0, _, rfl⟩
    | cons des rest =>
      dsimp only
      split_ifs
      · exact ⟨0, _, rfl⟩
      · exact ⟨0, _, rfl⟩
      · exact ⟨0, _, rfl⟩
  | pruning des copy rest =>
    obtain ⟨fuel, new, hrun⟩ := exists_pruneCopy hA des copy
    exact ⟨fuel, _, by dsimp only; rw [hrun]; rfl⟩
  | storing des new rest => exact ⟨0, _, rfl⟩
  | finished =>
    rw [htask] at hnot
    cases hnot
  | cleaned =>
    rw [htask] at hnot
    cases hnot

end Steps

/-! ### Every interleaving -/

structure LinkInv (A : LinkArgs K) (s : LinkState K) : Prop where
  links : ∀ v, A.Links s.prunedList v (s.graph v)
  length_le : ∀ v, (s.graph v).length ≤ max A.slack A.prune.degree
  unused : ∀ v ∉ A.visitOrder, s.graph v = []
  unpruned : ∀ v, (s.task v).unpruned → s.prunedList v = []
  task : ∀ v, A.TaskOk (· ∈ A.visitOrder) (A.Links s.prunedList) (s.prunedList v) v (s.task v)
  cleaned : ∀ v, s.task v = .cleaned →
    (s.graph v).length ≤ A.prune.degree ∧ ∀ w ∈ A.visitOrder, (s.task w).linked

omit [Field K] in
theorem start_inv : A.LinkInv (start : LinkState K) where
  links v := Links.nil _ v
  length_le _ := Nat.zero_le _
  unused _ _ := rfl
  unpruned _ _ := rfl
  task _ := trivial
  cleaned _ h := nomatch h

namespace LinkInv

variable {s : LinkState K} {node : ℕ}

omit [Field K] in
theorem not_cleaned (h : A.LinkInv s) (hnode : node ∈ A.visitOrder)
    (hnot : (s.task node).linked = false) (v : ℕ) : s.task v ≠ .cleaned := by
  intro hv
  have := (h.cleaned v hv).2 node hnode
  rw [hnot] at this
  exact Bool.noConfusion this

omit [Field K] in
theorem store (h : A.LinkInv s) (hnode : node ∈ A.visitOrder)
    (hnot : (s.task node).linked = false) {des : ℕ} {ids : List ℕ} {t : Task K}
    (hdes : des ∈ A.visitOrder) (hids : A.Links s.prunedList des ids)
    (hlen : ids.length ≤ max A.slack A.prune.degree)
    (ht : A.TaskOk (· ∈ A.visitOrder) (A.Links s.prunedList) (s.prunedList node) node t)
    (hearly : t.unpruned → s.prunedList node = []) (hne : t ≠ .cleaned) :
    A.LinkInv ⟨Function.update s.graph des ids, s.prunedList, Function.update s.task node t⟩ where
  links := (Function.forall_update_iff s.graph fun v ids => A.Links s.prunedList v ids).mpr
    ⟨hids, fun v _ => h.links v⟩
  length_le := (Function.forall_update_iff s.graph fun _ ids =>
    ids.length ≤ max A.slack A.prune.degree).mpr ⟨hlen, fun v _ => h.length_le v⟩
  unused := (Function.forall_update_iff s.graph fun v ids => v ∉ A.visitOrder → ids = []).mpr
    ⟨fun hout => absurd hdes hout, fun v _ => h.unused v⟩
  unpruned := (Function.forall_update_iff s.task fun v t => t.unpruned → s.prunedList v = []).mpr
    ⟨hearly, fun v _ => h.unpruned v⟩
  task := (Function.forall_update_iff s.task fun v t =>
    A.TaskOk (· ∈ A.visitOrder) (A.Links s.prunedList) (s.prunedList v) v t).mpr
      ⟨ht, fun v _ => h.task v⟩
  cleaned v hv := by
    have hnone : ∀ v, Function.update s.task node t v ≠ .cleaned :=
      (Function.forall_update_iff s.task fun _ t => t ≠ .cleaned).mpr
        ⟨hne, fun v _ => h.not_cleaned hnode hnot v⟩
    exact absurd hv (hnone v)

omit [Field K] in
theorem choose (h : A.LinkInv s) (hnode : node ∈ A.visitOrder)
    (hnot : (s.task node).linked = false) {ids : List ℕ} (hnil : s.prunedList node = [])
    (hids : Listed (· ∈ A.visitOrder) node ids) (hlen : ids.length ≤ A.prune.degree) :
    A.LinkInv ⟨s.graph, Function.update s.prunedList node ids,
      Function.update s.task node .linking⟩ := by
  have hsub : ∀ w, s.prunedList w ⊆ Function.update s.prunedList node ids w := by
    intro w
    rcases eq_or_ne w node with rfl | hw
    · rw [hnil]
      exact List.nil_subset _
    · rw [Function.update_of_ne hw]
      exact List.Subset.refl _
  constructor
  case links => exact fun v => (h.links v).mono hsub
  case length_le => exact h.length_le
  case unused => exact h.unused
  case unpruned =>
    intro v hv
    dsimp only at hv ⊢
    rcases eq_or_ne v node with rfl | hne
    · rw [Function.update_self] at hv
      cases hv
    · rw [Function.update_of_ne hne] at hv ⊢
      exact h.unpruned v hv
  case task =>
    intro v
    dsimp only
    rcases eq_or_ne v node with rfl | hne
    · rw [Function.update_self, Function.update_self]
      exact ⟨hids, hlen⟩
    · rw [Function.update_of_ne hne, Function.update_of_ne hne]
      exact (h.task v).mono (fun _ h => h) (fun _ h => h) (fun _ _ h => h.mono hsub) rfl
  case cleaned =>
    intro v hv
    have hnone : ∀ v, Function.update s.task node .linking v ≠ .cleaned :=
      (Function.forall_update_iff s.task fun _ t => t ≠ .cleaned).mpr
        ⟨nofun, fun v _ => h.not_cleaned hnode hnot v⟩
    exact absurd hv (hnone v)

omit [Field K] in
theorem clean (h : A.LinkInv s) (hall : ∀ w ∈ A.visitOrder, (s.task w).linked) {ids : List ℕ}
    (hnode : node ∈ A.visitOrder) (hids : A.Links s.prunedList node ids)
    (hlen : ids.length ≤ A.prune.degree) :
    A.LinkInv ⟨Function.update s.graph node ids, s.prunedList,
      Function.update s.task node .cleaned⟩ where
  links := (Function.forall_update_iff s.graph fun v ids => A.Links s.prunedList v ids).mpr
    ⟨hids, fun v _ => h.links v⟩
  length_le := (Function.forall_update_iff s.graph fun _ ids =>
    ids.length ≤ max A.slack A.prune.degree).mpr
      ⟨hlen.trans (le_max_right _ _), fun v _ => h.length_le v⟩
  unused := (Function.forall_update_iff s.graph fun v ids => v ∉ A.visitOrder → ids = []).mpr
    ⟨fun hout => absurd hnode hout, fun v _ => h.unused v⟩
  unpruned := (Function.forall_update_iff s.task fun v t => t.unpruned → s.prunedList v = []).mpr
    ⟨nofun, fun v _ => h.unpruned v⟩
  task := (Function.forall_update_iff s.task fun v t =>
    A.TaskOk (· ∈ A.visitOrder) (A.Links s.prunedList) (s.prunedList v) v t).mpr
      ⟨trivial, fun v _ => h.task v⟩
  cleaned v hv := by
    refine ⟨?_, (Function.forall_update_iff s.task fun w t => w ∈ A.visitOrder → t.linked).mpr
      ⟨fun _ => rfl, fun w _ => hall w⟩⟩
    rcases eq_or_ne v node with rfl | hne
    · simpa only [Function.update_self] using hlen
    · simp only [Function.update_of_ne hne] at hv ⊢
      exact (h.cleaned v hv).1

theorem ground (hA : A.Valid) (h : A.LinkInv s) (hnode : node ∈ A.visitOrder) :
    A.Ground (· ∈ A.visitOrder) (A.Links s.prunedList) node s where
  init := hA.initIds_mem
  lt v _ w hw := hA.lt_total ((h.links v).nodes w hw)
  closed v _ := (h.links v).nodes
  lists v _ := h.links v
  add _ _ hdes hne _ hids hnot := hids.concat hnode hnot hdes hne
  sub _ _ _ hids hnd hsub := hids.of_subset hnd hsub

omit [Field K] in
theorem effect (h : A.LinkInv s) (hnode : node ∈ A.visitOrder)
    (hnot : (s.task node).linked = false) {t : Task K} {s' : LinkState K}
    (heff : A.Effect (· ∈ A.visitOrder) (A.Links s.prunedList) node s t s')
    (hne : t ≠ .cleaned) : A.LinkInv s' := by
  cases heff with
  | goto ht _ hunpruned =>
    have := h.store hnode hnot hnode (h.links node) (h.length_le node) ht
      (fun hu => h.unpruned node (hunpruned ▸ hu)) hne
    rwa [Function.update_eq_self] at this
  | choose htask hids hlen =>
    exact h.choose hnode hnot (h.unpruned node (by rw [htask]; rfl)) hids hlen
  | place _ hids hlen =>
    exact h.store hnode hnot hnode ⟨hids, fun w hw => .inl hw⟩ (hlen.trans (le_max_right _ _))
      ⟨hids, List.Subset.refl _, hlen⟩ nofun hne
  | store _ hplaced hdes hids hlen ht =>
    exact h.store hnode hnot hdes hids hlen ht (fun hu => absurd hu (Task.not_unpruned hplaced)) hne

end LinkInv

section Runs

variable [IsStrictOrderedRing K] [Archimedean K] (hA : A.Valid) {s s' : LinkState K}

include hA

/-- A step of one iteration keeps the invariant and takes that iteration further. -/
theorem LinkInv.step (h : A.LinkInv s) {node : ℕ} (hnode : node ∈ A.visitOrder)
    {scratch : Iterate K} {fuel : ℕ} (hstep : A.step scratch fuel node s = some s') :
    A.LinkInv s' ∧ ∃ t, s'.task = Function.update s.task node t ∧
      A.remaining t < A.remaining (s.task node) := by
  cases hlinked : (s.task node).linked with
  | false =>
    obtain ⟨t, heff, hne, htask, hlt⟩ :=
      step_effect hA (h.ground hA hnode) (h.task node) hlinked hstep
    exact ⟨h.effect hnode hlinked heff hne, t, htask, hlt⟩
  | true =>
    rw [LinkArgs.step] at hstep
    cases htask : s.task node with
    | finished =>
      rw [htask] at hstep
      simp only at hstep
      split_ifs at hstep with hall hlong
      · have hall : ∀ w ∈ A.visitOrder, (s.task w).linked := List.all_eq_true.mp hall
        obtain ⟨new, hrun, rfl⟩ := Option.map_eq_some_iff.mp hstep
        obtain ⟨hlinks, hnew⟩ := pruneCopy_links hA (h.links node) hrun
        exact ⟨h.clean hall hnode hlinks hnew, _, rfl, by rw [remaining, remaining]; omega⟩
      · have hall : ∀ w ∈ A.visitOrder, (s.task w).linked := List.all_eq_true.mp hall
        cases hstep
        have := h.clean hall hnode (h.links node) (not_lt.mp hlong)
        rw [Function.update_eq_self] at this
        exact ⟨this, _, rfl, by rw [remaining, remaining]; omega⟩
    | cleaned =>
      rw [htask] at hstep
      cases hstep
    | _ =>
      rw [htask] at hlinked
      cases hlinked

/-- Until all is done, some iteration can go on: none waits for another one for ever. -/
theorem LinkInv.exists_step (h : A.LinkInv s) (hdone : ¬ A.Done s) : ∃ s', A.Step s s' := by
  by_cases hall : ∀ v ∈ A.visitOrder, (s.task v).linked
  · -- the second loop, which any iteration can begin
    rw [Done] at hdone
    push Not at hdone
    obtain ⟨node, hnode, hne⟩ := hdone
    have hfinished : s.task node = .finished := by
      have := hall node hnode
      cases htask : s.task node <;> simp_all [Task.linked]
    have hstep : ∃ fuel s', A.step ⟨NeighborPriorityQueue.empty 1, ⟨[], ∅⟩, [], [], 0⟩ fuel node s =
        some s' := by
      simp only [LinkArgs.step, hfinished, List.all_eq_true.mpr hall, if_true]
      split_ifs
      · obtain ⟨fuel, new, hrun⟩ := exists_pruneCopy hA node (s.graph node)
        exact ⟨fuel, _, by rw [hrun]; rfl⟩
      · exact ⟨0, _, rfl⟩
    obtain ⟨fuel, s', hstep⟩ := hstep
    exact ⟨s', node, hnode, _, fuel, hstep⟩
  · push Not at hall
    obtain ⟨node, hnode, hnot⟩ := hall
    obtain ⟨scratch, fuel, s', hstep⟩ := LinkArgs.exists_step hA hA.initIds_mem (h.task node)
      (Bool.eq_false_iff.mpr hnot)
    exact ⟨s', node, hnode, scratch, fuel, hstep⟩

/-- A step keeps the invariant, and the steps that are left get fewer. -/
theorem LinkInv.sum (h : A.LinkInv s) (hstep : A.Step s s') : A.LinkInv s' ∧
    (A.visitOrder.map fun v => A.remaining (s'.task v)).sum <
      (A.visitOrder.map fun v => A.remaining (s.task v)).sum := by
  obtain ⟨node, hnode, scratch, fuel, hstep⟩ := hstep
  obtain ⟨hinv, t, htask, hlt⟩ := h.step hA hnode hstep
  refine ⟨hinv, ?_⟩
  rw [htask]
  refine List.sum_lt_sum _ _ (fun v _ => ?_) ⟨node, hnode, by rwa [Function.update_self]⟩
  rcases eq_or_ne v node with rfl | hv
  · rw [Function.update_self]
    exact hlt.le
  · rw [Function.update_of_ne hv]

theorem LinkInv.run (hrun : ReflTransGen A.Step start s) : A.LinkInv s :=
  Runs.inv_run (fun _ _ h hstep => (LinkInv.sum hA h hstep).1) start_inv hrun

theorem LinkInv.exists_done (h : A.LinkInv s) :
    ∃ s', ReflTransGen A.Step s s' ∧ A.LinkInv s' ∧ A.Done s' :=
  Runs.exists_done (fun _ _ h hstep => LinkInv.sum hA h hstep)
    (fun _ h hnot => LinkInv.exists_step hA h hnot) h

end Runs

/-! ### Runs -/

/-- Steps of given iterations, one after the other. -/
def inTurn (A : LinkArgs K) (scratch : Iterate K) (fuel : ℕ) (nodes : List ℕ) :
    Option (LinkState K) :=
  nodes.foldlM (fun s node => A.step scratch fuel node s) start

theorem run_of_inTurn {scratch : Iterate K} {fuel : ℕ} {nodes : List ℕ}
    (hnodes : ∀ v ∈ nodes, v ∈ A.visitOrder) {s : LinkState K}
    (h : A.inTurn scratch fuel nodes = some s) : ReflTransGen A.Step start s := by
  rw [inTurn] at h
  generalize (start : LinkState K) = s₀ at h
  induction nodes generalizing s₀ with
  | nil =>
    cases h
    exact .refl
  | cons v nodes ih =>
    obtain ⟨hv, hnodes⟩ := List.forall_mem_cons.mp hnodes
    rw [List.foldlM_cons] at h
    obtain ⟨s₁, hstep, hrest⟩ := Option.bind_eq_some_iff.mp h
    exact .head ⟨v, hv, scratch, fuel, hstep⟩ (ih hnodes s₁ hrest)

omit [Field K] [LinearOrder K] in
/-- Nothing remains only when both loops are done with an iteration. -/
theorem cleaned_of_remaining {t : Task K} (h : A.remaining t = 0) : t = .cleaned := by
  cases t with
  | cleaned => rfl
  | _ =>
    rw [remaining] at h
    omega

/-- A scratch space before its first use. -/
def unused : Iterate ℚ := ⟨NeighborPriorityQueue.empty 1, ⟨[], ∅⟩, [], [], 0⟩

/-- Three points of a line, linked with lists of one. -/
def threeOnLine : LinkArgs ℚ where
  nd := 3
  maxPoints := 3
  numFrozenPts := 0
  medoid := 1
  indexingQueueSize := 2
  slack := 1
  queryDistance u v := ((u : ℚ) - v) ^ 2
  prune := { PruneArgs.onLine with alpha := 1, degree := 1, saturateGraph := false }

/-- The three iterations by turns, until the list of node 1 is full; then that of node 2, which
prunes it. -/
def byTurns : List ℕ := (List.replicate 5 [1, 0, 2]).flatten ++ [2, 2, 0, 2, 0, 1, 2]

end LinkArgs

end HiDANN.Memory
