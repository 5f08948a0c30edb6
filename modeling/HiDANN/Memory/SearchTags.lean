import HiDANN.Library.Levels
import HiDANN.Memory.Slots
import HiDANN.Search.Renaming

/-! `search_with_tags` of a dynamic index without labels. The search goes over all locations, the
frozen points and those of deleted tags among them; what it returns are the nearest locations
that have a tag. -/

namespace HiDANN.Memory

open Construction Search NeighborPriorityQueue Levels

/-- The tables, the frozen points behind the locations, the lists and the vectors. -/
structure DynamicIndex (τ V : Type*) where
  slots : Slots τ
  numFrozenPts : ℕ
  start : ℕ
  graph : ℕ → List ℕ
  vector : ℕ → V

namespace DynamicIndex

variable {τ V δ : Type*} [LinearOrder δ]

def total (I : DynamicIndex τ V) : ℕ := I.slots.maxPoints + I.numFrozenPts

def initIds (I : DynamicIndex τ V) : List ℕ :=
  I.start :: (List.range' I.slots.maxPoints I.numFrozenPts).filter (· ≠ I.start)

/-- The loop over `best_L_nodes`, when `pos` tags have been written. -/
def collect (locationToTag : NaturalNumberMap τ) (K : ℕ) :
    List (Neighbor δ) → ℕ → List (τ × δ)
  | [], _ => []
  | node :: nodes, pos =>
    match locationToTag.tryGet node.id with
    | none => collect locationToTag K nodes pos
    | some tag =>
      (tag, node.distance) :: if pos + 1 = K then [] else collect locationToTag K nodes (pos + 1)

/-- `search_with_tags`; `distance` is that from the query. -/
def searchWithTags (I : DynamicIndex τ V) (distance : V → δ) (K L : ℕ) (scratch : Iterate δ) :
    Except String (List (τ × δ)) :=
  if L < K then .error "Set L to a value of at least K"
  else
    (iterateToFixedPoint I.total I.graph (fun id => distance (I.vector id)) L I.initIds true
      scratch.clear).map fun r => collect I.slots.locationToTag K r.bestL.data 0

end DynamicIndex

/-! ### A search for the results only -/

section Invocation

variable {δ : Type*} [LinearOrder δ] {fastIterate : Bool} {graph : ℕ → List ℕ} {dist : ℕ → δ}

/-- What a search does not need. -/
def dropExpanded (st : Iterate δ) : Iterate δ := { st with expandedNodes := [] }

omit [LinearOrder δ] in
theorem dropExpanded_bestL (st : Iterate δ) : (dropExpanded st).bestL = st.bestL := rfl

theorem iterateStep_drop (st : Iterate δ) :
    dropExpanded (iterateStep fastIterate false graph dist st) =
      iterateStep fastIterate true graph dist (dropExpanded st) := by
  rw [iterateStep, iterateStep, dropExpanded_bestL]
  rcases st.bestL.closestUnexpanded with ⟨_ | nbr, q⟩ <;> rfl

theorem iterateLoop_drop (fuel : ℕ) (st : Iterate δ) :
    dropExpanded (iterateLoop fastIterate false graph dist fuel st) =
      iterateLoop fastIterate true graph dist fuel (dropExpanded st) := by
  induction fuel generalizing st with
  | zero => rfl
  | succ fuel ih =>
    rw [iterateLoop, iterateLoop, dropExpanded_bestL, ← iterateStep_drop, ← ih]
    split_ifs <;> rfl

theorem visitInit_drop (n : ℕ) (ids : List ℕ) (st : Iterate δ) :
    (visitInit n fastIterate dist ids st).map dropExpanded =
      visitInit n fastIterate dist ids (dropExpanded st) := by
  induction ids generalizing st with
  | nil => rfl
  | cons id ids ih =>
    have hvisited : (dropExpanded st).visited = st.visited := rfl
    rw [visitInit, visitInit, hvisited]
    by_cases hid : n ≤ id
    · rw [if_pos hid, if_pos hid]
      rfl
    · rw [if_neg hid, if_neg hid]
      by_cases hv : st.visited.isNotVisited fastIterate id = true
      · rw [if_pos hv, if_pos hv]
        exact ih _
      · rw [if_neg hv, if_neg hv]
        exact ih st

/-- A search for the results only goes through the same queues. -/
theorem iterateToFixedPoint_drop (n L : ℕ) (initIds : List ℕ) (scratch : Iterate δ) :
    (iterateToFixedPoint n graph dist L initIds false scratch.clear).map dropExpanded =
      iterateToFixedPoint n graph dist L initIds true scratch.clear := by
  have hclear : ¬ (0 < scratch.clear.expandedNodes.length ∨
      0 < scratch.clear.idScratch.length) := by simp [Iterate.clear]
  rw [iterateToFixedPoint, iterateToFixedPoint, if_neg hclear, if_neg hclear]
  let start : Iterate δ := { scratch.clear with
    bestL := { scratch.clear.bestL with capacity := L }
    visited := scratch.clear.visited.resize (n ≤ maxPointsForUsingBitset) n }
  have hinit : (visitInit n (n ≤ maxPointsForUsingBitset) dist initIds start).map dropExpanded =
      visitInit n (n ≤ maxPointsForUsingBitset) dist initIds start := visitInit_drop n initIds start
  change ((visitInit n (n ≤ maxPointsForUsingBitset) dist initIds start).map _).map dropExpanded =
    (visitInit n (n ≤ maxPointsForUsingBitset) dist initIds start).map _
  rcases hv : visitInit n (n ≤ maxPointsForUsingBitset) dist initIds start with e | st
  · rfl
  · rw [hv] at hinit
    have hst : dropExpanded st = st := Except.ok.inj hinit
    have hzero : dropExpanded { st with cmps := 0 } = { st with cmps := 0 } := by
      rw [← hst]
      rfl
    simp only [Except.map]
    rw [iterateLoop_drop, hzero]

end Invocation

/-! ### Where a search ends -/

section Local

variable {δ : Type*} [LinearOrder δ] {n L : ℕ} {graph : ℕ → List ℕ} {dist : ℕ → δ}
  {initIds best : List ℕ} {st : Emit δ}

/-- A node is in a list, or behind a full one. -/
def Settled (dist : ℕ → δ) (L : ℕ) (best : List ℕ) (v : ℕ) : Prop :=
  v ∈ best ∨ best.length = L ∧ ∀ u ∈ best, rank dist u < rank dist v

/-- A list in the order of the distances that no expansion of its nodes changes. -/
structure LocalBest (graph : ℕ → List ℕ) (dist : ℕ → δ) (L : ℕ) (initIds best : List ℕ) :
    Prop where
  sorted : best.Pairwise fun u v => rank dist u < rank dist v
  length_le : best.length ≤ L
  reachable : ∀ v ∈ best, Reachable graph initIds v
  init : ∀ v ∈ initIds, Settled dist L best v
  closed : ∀ v ∈ best, ∀ w ∈ graph v, Settled dist L best w

theorem LocalBest.nodup (h : LocalBest graph dist L initIds best) : best.Nodup :=
  h.sorted.imp fun hlt heq => hlt.ne (congrArg (rank dist) heq)

/-- With room for all nodes the list holds what can be reached. -/
theorem LocalBest.mem_iff (h : LocalBest graph dist L initIds best) (hbest : ∀ v ∈ best, v < n)
    (hg : ∀ v < n, ∀ w ∈ graph v, w < n) (hinit : ∀ v ∈ initIds, v < n) (hL : n ≤ L) {v : ℕ} :
    v ∈ best ↔ Reachable graph initIds v := by
  have hin : ∀ w < n, Settled dist L best w → w ∈ best := by
    rintro w hw (hmem | ⟨hfull, -⟩)
    · exact hmem
    · have hsub : best.toFinset ⊆ Finset.range n := fun u hu =>
        Finset.mem_range.mpr (hbest u (List.mem_toFinset.mp hu))
      have hcard : (Finset.range n).card ≤ best.toFinset.card := by
        rw [Finset.card_range, List.toFinset_card_of_nodup h.nodup]
        omega
      have heq := Finset.eq_of_subset_of_card_le hsub hcard
      rw [← List.mem_toFinset, heq]
      exact Finset.mem_range.mpr hw
  refine ⟨h.reachable v, ?_⟩
  rintro ⟨k, hwalk⟩
  induction hwalk with
  | start hv => exact hin _ (hinit _ hv) (h.init _ hv)
  | step _ hw ih => exact hin _ (hg _ (hbest _ ih) _ hw) (h.closed _ ih _ hw)

structure Met (graph : ℕ → List ℕ) (initIds : List ℕ) (st : Emit δ) : Prop where
  init : ∀ v ∈ initIds, v ∈ st.inserted
  closed : ∀ v ∈ st.out.map Prod.fst, ∀ w ∈ graph v, w ∈ st.inserted
  reachable : ∀ v ∈ st.inserted, Reachable graph initIds v

theorem mem_inserted_offer {ids : List ℕ} {v : ℕ} :
    v ∈ (offer dist st ids).inserted ↔ v ∈ st.inserted ∨ v ∈ ids := by
  have : (offer dist st ids).inserted = st.inserted ++ ids.filter fun v => v ∉ st.inserted := rfl
  rw [this, List.mem_append, List.mem_filter, decide_eq_true_eq]
  tauto

theorem met_emitStart (graph : ℕ → List ℕ) (dist : ℕ → δ) (L : ℕ) (initIds : List ℕ) :
    Met graph initIds (emitStart dist L initIds) := by
  have hfold : ∀ (ids : List ℕ) (st : Emit δ),
      (ids.foldl (fun st v => { offer dist st [v] with cmps := 0 }) st).out = st.out ∧
        ∀ v, v ∈ (ids.foldl (fun st v => { offer dist st [v] with cmps := 0 }) st).inserted ↔
          v ∈ st.inserted ∨ v ∈ ids := by
    intro ids
    induction ids with
    | nil => exact fun st => ⟨rfl, fun v => by simp⟩
    | cons u ids ih =>
      intro st
      obtain ⟨hout, hins⟩ := ih { offer dist st [u] with cmps := 0 }
      refine ⟨hout, fun v => ?_⟩
      rw [List.foldl_cons, hins, mem_inserted_offer, List.mem_singleton, List.mem_cons, or_assoc]
  obtain ⟨hout, hins⟩ := hfold initIds ⟨empty L, [], [], 0, 0⟩
  refine ⟨fun v hv => (hins v).mpr (.inr hv), fun v hv => ?_, fun v hv => ?_⟩
  · rw [emitStart, hout] at hv
    cases hv
  · exact ⟨0, .start (((hins v).mp hv).resolve_left List.not_mem_nil)⟩

theorem Met.step (h : Met graph initIds st) (hinv : EmitInv n dist L st)
    (hne : st.bestL.hasUnexpandedNode) : Met graph initIds (emitStep graph dist st) := by
  obtain ⟨m, h1, hin, -⟩ := hinv.tracks.take hne
  rw [emitStep, ← Prod.mk.eta (p := closestUnexpanded st.bestL), h1]
  refine ⟨fun v hv => mem_inserted_offer.mpr (.inl (h.init v hv)), fun v hv w hw => ?_,
    fun v hv => ?_⟩
  · have hv' : v ∈ (st.out ++ [(m.id, m.distance)]).map Prod.fst := hv
    rw [mem_inserted_offer]
    rw [List.map_append, List.mem_append, List.map_singleton, List.mem_singleton] at hv'
    rcases hv' with hv' | rfl
    · exact .inl (h.closed v hv' w hw)
    · exact .inr hw
  · rcases mem_inserted_offer.mp hv with hv | hv
    · exact h.reachable v hv
    · obtain ⟨k, hwalk⟩ := h.reachable m.id hin
      exact ⟨k + 1, .step hwalk hv⟩

theorem Met.loop (h : Met graph initIds st) (hinv : EmitInv n dist L st)
    (hg : ∀ v < n, ∀ w ∈ graph v, w < n) (fuel : ℕ) :
    Met graph initIds (emitLoop graph dist fuel st) := by
  induction fuel generalizing st with
  | zero => exact h
  | succ fuel ih =>
    rw [emitLoop]
    by_cases hne : st.bestL.hasUnexpandedNode = true
    · rw [if_pos hne]
      exact ih (h.step hinv hne) (hinv.step hg hne).1
    · rw [if_neg hne]
      exact h

variable (graph dist) in
/-- A search ends with a list that no expansion changes, and with the distances of its nodes. -/
theorem iterateToFixedPointEmit_localBest (hL : 0 < L) (hinit : ∀ v ∈ initIds, v < n)
    (hg : ∀ v < n, ∀ w ∈ graph v, w < n) :
    ∃ best, LocalBest graph dist L initIds best ∧ (∀ v ∈ best, v < n) ∧
      (iterateToFixedPointEmit n graph dist L initIds).bestL.data.map
        (fun m => (m.id, m.distance)) = best.map fun v => (v, dist v) := by
  obtain ⟨hinv, hend⟩ := iterateToFixedPointEmit_spec graph dist hL hinit hg
  have hmet : Met graph initIds (iterateToFixedPointEmit n graph dist L initIds) :=
    (met_emitStart graph dist L initIds).loop (emitStart_inv hL hinit) hg n
  set e := iterateToFixedPointEmit n graph dist L initIds
  have hsettled : ∀ v ∈ e.inserted, Settled dist L (e.bestL.data.map Neighbor.id) v := by
    intro v hv
    by_cases hin : v ∈ e.bestL.data.map Neighbor.id
    · exact .inl hin
    · obtain ⟨hfull, hlt⟩ := hinv.tracks.out hv fun m hm heq =>
        hin (List.mem_map.mpr ⟨m, hm, heq⟩)
      refine .inr ⟨by rw [List.length_map, hfull, hinv.capacity], fun u hu => ?_⟩
      obtain ⟨m, hm, rfl⟩ := List.mem_map.mp hu
      exact hlt m hm
  have hmem : ∀ v ∈ e.bestL.data.map Neighbor.id, v ∈ e.inserted ∧ v ∈ e.out.map Prod.fst := by
    intro v hv
    obtain ⟨m, hm, rfl⟩ := List.mem_map.mp hv
    exact ⟨hinv.tracks.mem hm, (hinv.tracks.all_taken hend m hm).2⟩
  refine ⟨e.bestL.data.map Neighbor.id, ⟨?_, ?_, fun v hv => hmet.reachable v (hmem v hv).1,
    fun v hv => hsettled v (hmet.init v hv),
    fun v hv w hw => hsettled w (hmet.closed v (hmem v hv).2 w hw)⟩,
    fun v hv => hinv.lt v (hmem v hv).1, ?_⟩
  · have hsorted := hinv.tracks.smallest.sorted
    rw [keys, List.pairwise_map] at hsorted
    rw [List.pairwise_map]
    refine hsorted.imp_of_mem fun ha hb hlt => ?_
    rwa [← hinv.tracks.key_eq ha, ← hinv.tracks.key_eq hb]
  · have := hinv.tracks.smallest.length_le
    rw [keys, List.length_map, hinv.capacity] at this
    rwa [List.length_map]
  · rw [List.map_map]
    refine List.map_congr_left fun m hm => ?_
    rw [Function.comp_apply, hinv.tracks.dist_eq m hm]

end Local

/-! ### The results -/

namespace DynamicIndex

variable {τ V δ : Type*} [LinearOrder δ] {I : DynamicIndex τ V} {distance : V → δ} {K L : ℕ}

def result (locationToTag : NaturalNumberMap τ) (e : ℕ × δ) : Option (τ × δ) :=
  (locationToTag.tryGet e.1).map fun tag => (tag, e.2)

omit [LinearOrder δ] in
theorem collect_eq (m : NaturalNumberMap τ) (nodes : List (Neighbor δ)) {pos : ℕ} (hpos : pos < K) :
    collect m K nodes pos =
      ((nodes.map fun node => (node.id, node.distance)).filterMap (result m)).take (K - pos) := by
  induction nodes generalizing pos with
  | nil => simp [collect]
  | cons node nodes ih =>
    rw [collect, List.map_cons, List.filterMap_cons, result]
    cases hget : m.tryGet node.id with
    | none => exact ih hpos
    | some tag =>
      obtain ⟨k, hk⟩ : ∃ k, K - pos = k + 1 := ⟨K - pos - 1, by omega⟩
      rw [Option.map_some, hk, List.take_succ_cons]
      dsimp only
      by_cases hlast : pos + 1 = K
      · obtain rfl : k = 0 := by omega
        rw [if_pos hlast, List.take_zero]
      · have hk' : K - (pos + 1) = k := by omega
        rw [if_neg hlast, ih (by omega), hk']

omit [LinearOrder δ] in
theorem collect_zero (m : NaturalNumberMap τ) (nodes : List (Neighbor δ)) (pos : ℕ) :
    collect m 0 nodes pos =
      (nodes.map fun node => (node.id, node.distance)).filterMap (result m) := by
  induction nodes generalizing pos with
  | nil => rfl
  | cons node nodes ih =>
    rw [collect, List.map_cons, List.filterMap_cons, result]
    cases m.tryGet node.id with
    | none => exact ih pos
    | some tag =>
      dsimp only [Option.map_some]
      rw [if_neg (Nat.succ_ne_zero pos), ih]

/-- The first `K` results, and all of them for `K` zero. -/
def cut {α : Type*} (K : ℕ) (l : List α) : List α := if K = 0 then l else l.take K

omit [LinearOrder δ] in
theorem collect_eq_cut (m : NaturalNumberMap τ) (K : ℕ) (nodes : List (Neighbor δ)) :
    collect m K nodes 0 =
      cut K ((nodes.map fun node => (node.id, node.distance)).filterMap (result m)) := by
  rw [cut]
  split_ifs with hK
  · rw [hK, collect_zero]
  · rw [collect_eq m nodes (Nat.pos_of_ne_zero hK), Nat.sub_zero]

theorem cut_sublist {α : Type*} (K : ℕ) (l : List α) : (cut K l).Sublist l := by
  rw [cut]
  split_ifs
  · exact List.Sublist.refl l
  · exact List.take_sublist K l

/-- The start node and the lists are within the locations. -/
structure InBounds (I : DynamicIndex τ V) : Prop where
  start : I.start < I.total
  graph : ∀ v < I.total, ∀ w ∈ I.graph v, w < I.total

theorem InBounds.initIds_lt (hI : I.InBounds) : ∀ v ∈ I.initIds, v < I.total := by
  intro v hv
  rcases List.mem_cons.mp hv with rfl | hv
  · exact hI.start
  · rw [total]
    have := List.mem_range'_1.mp (List.mem_of_mem_filter hv)
    omega

/-- The results come from the queue of the search that exports what it expands. -/
theorem searchWithTags_eq (hL : 0 < L) (hKL : K ≤ L) (hI : I.InBounds) (scratch : Iterate δ) :
    I.searchWithTags distance K L scratch =
      .ok (cut K (((iterateToFixedPointEmit I.total I.graph (fun id => distance (I.vector id)) L
        I.initIds).bestL.data.map fun node => (node.id, node.distance)).filterMap
          (result I.slots.locationToTag))) := by
  obtain ⟨r, hr, hin⟩ := iterateToFixedPoint_inStep (fun id => distance (I.vector id)) hL
    hI.initIds_lt hI.graph scratch
  rw [searchWithTags, if_neg (Nat.not_lt.mpr hKL), ← iterateToFixedPoint_drop, hr]
  simp only [Except.map]
  rw [collect_eq_cut, dropExpanded_bestL, hin.queue]

variable [DecidableEq τ] {pending : List ℕ}

/-- The results of a list of locations are distinct tags in the order of their distances. -/
theorem results_spec (hcons : I.slots.Consistent pending) {dist : ℕ → δ} {best : List ℕ}
    (hsorted : best.Pairwise fun u v => rank dist u < rank dist v) {rs : List (τ × δ)}
    (hrs : (best.map fun v => (v, dist v)).filterMap (result I.slots.locationToTag) = rs) :
    (rs.map Prod.fst).Nodup ∧ rs.Pairwise (fun a b => a.2 ≤ b.2) ∧
      ∀ e, e ∈ rs ↔ ∃ loc ∈ best, I.slots.tagToLocation.lookup e.1 = some loc ∧ e.2 = dist loc := by
  have hres : ∀ v e, result I.slots.locationToTag (v, dist v) = some e ↔
      I.slots.tagToLocation.lookup e.1 = some v ∧ e.2 = dist v := by
    intro v e
    rw [← hcons.inverse, result, Option.map_eq_some_iff]
    constructor
    · rintro ⟨tag, htag, rfl⟩
      exact ⟨htag, rfl⟩
    · rintro ⟨htag, hd⟩
      exact ⟨e.1, htag, Prod.ext rfl hd.symm⟩
  rw [List.filterMap_map] at hrs
  subst hrs
  refine ⟨?_, ?_, fun e => ?_⟩
  · rw [List.Nodup, List.pairwise_map, List.pairwise_filterMap]
    refine hsorted.imp fun {u v} hlt a ha b hb heq => ?_
    have ha' := ((hres u a).mp ha).1
    have hb' := ((hres v b).mp hb).1
    rw [heq, hb'] at ha'
    rw [Option.some.inj ha'] at hlt
    exact lt_irrefl _ hlt
  · rw [List.pairwise_filterMap]
    refine hsorted.imp fun {u v} hlt a ha b hb => ?_
    rw [((hres u a).mp ha).2, ((hres v b).mp hb).2]
    exact Prod.Lex.monotone_fst _ _ hlt.le
  · rw [List.mem_filterMap]
    constructor
    · rintro ⟨v, hv, he⟩
      exact ⟨v, hv, (hres v e).mp he⟩
    · rintro ⟨v, hv, he⟩
      exact ⟨v, hv, (hres v e).mpr he⟩

/-- A search returns the first results of a list of locations that no expansion changes. -/
theorem exists_results (distance : V → δ) (hcons : I.slots.Consistent pending) (hI : I.InBounds)
    (hL : 0 < L) (hKL : K ≤ L) (scratch : Iterate δ) :
    ∃ (best : List ℕ) (all : List (τ × δ)),
      I.searchWithTags distance K L scratch = .ok (cut K all) ∧
      LocalBest I.graph (fun v => distance (I.vector v)) L I.initIds best ∧
      (∀ v ∈ best, v < I.total) ∧
      (all = best.filterMap fun v =>
        (I.slots.locationToTag.tryGet v).map fun tag => (tag, distance (I.vector v))) ∧
      (all.map Prod.fst).Nodup ∧ all.Pairwise (fun a b => a.2 ≤ b.2) ∧
      ∀ e, e ∈ all ↔ ∃ loc ∈ best, I.slots.tagToLocation.lookup e.1 = some loc ∧
        e.2 = distance (I.vector loc) := by
  obtain ⟨best, hbest, hlt, hdata⟩ := iterateToFixedPointEmit_localBest I.graph
    (fun v => distance (I.vector v)) hL hI.initIds_lt hI.graph
  refine ⟨best, _, ?_, hbest, hlt, ?_, results_spec hcons hbest.sorted rfl⟩
  · rw [searchWithTags_eq hL hKL hI, hdata]
  · rw [List.filterMap_map]
    rfl

/-- Two points on a line and a frozen one; the second point has been deleted. -/
def oneDeleted : DynamicIndex ℕ ℤ where
  slots := ⟨2, 2, false, ⟨[], [false, false]⟩, {0}, none, ⟨1, [8, 7], [false, true]⟩,
    AList.singleton 7 1⟩
  numFrozenPts := 1
  start := 2
  graph v := if v = 2 then [0, 1] else [2]
  vector v := v

theorem oneDeleted_reachable :
    Relation.ReflTransGen Slots.Step (Slots.construct 2) oneDeleted.slots := by
  have hfirst : Slots.Step (Slots.construct 2 : Slots ℕ) _ :=
    @Slots.Step.insert _ _ _ _ _ _ 7 (some 1) rfl
  have hsecond := (Relation.ReflTransGen.single hfirst).tail
    (@Slots.Step.insert _ _ _ _ _ _ 8 (some 0) rfl)
  exact hsecond.tail (.delete _ 8)

/-- `J` has the locations of `S` in `I` under other numbers, in the same order. -/
structure Carried (ρ : ℕ → ℕ) (S : Set ℕ) (I J : DynamicIndex τ V) : Prop where
  strictMono : StrictMonoOn ρ S
  closed : ∀ v ∈ S, ∀ w ∈ I.graph v, w ∈ S
  graph : ∀ v ∈ S, J.graph (ρ v) = (I.graph v).map ρ
  vector : ∀ v ∈ S, J.vector (ρ v) = I.vector v
  tag : ∀ v ∈ S, J.slots.locationToTag.tryGet (ρ v) = I.slots.locationToTag.tryGet v
  init : ∀ v ∈ I.initIds, v ∈ S
  initIds : J.initIds = I.initIds.map ρ

variable {ρ : ℕ → ℕ} {S : Set ℕ} {J : DynamicIndex τ V}

omit [DecidableEq τ] in
/-- The searches of both go through the same nodes. -/
theorem Carried.search (h : Carried ρ S I J) (hI : I.InBounds) (hJ : J.InBounds) (distance : V → δ)
    (K : ℕ) (hL : 0 < L) (scratch scratch' : Iterate δ) :
    J.searchWithTags distance K L scratch' = I.searchWithTags distance K L scratch := by
  by_cases hKL : K ≤ L
  · have hrenames : Renames ρ S I.graph J.graph (fun v => distance (I.vector v))
        (fun v => distance (J.vector v)) :=
      ⟨h.strictMono, h.closed, h.graph, fun v hv => congrArg distance (h.vector v hv)⟩
    obtain ⟨heq, hwithin⟩ := iterateToFixedPointEmit_rename hrenames I.total L h.init
    have hend := (iterateToFixedPointEmit_spec I.graph (fun v => distance (I.vector v)) hL
      hI.initIds_lt hI.graph).2
    have hend' := (iterateToFixedPointEmit_spec J.graph (fun v => distance (J.vector v)) hL
      hJ.initIds_lt hJ.graph).2
    rw [h.initIds] at hend'
    have hsame := iterateToFixedPointEmit_of_done hend' (n := I.total) (by
      rw [heq]
      exact (hasUnexpandedNode_rename ρ _).trans hend)
    rw [searchWithTags_eq hL hKL hJ, searchWithTags_eq hL hKL hI, h.initIds, hsame, heq]
    congr 2
    simp only [Emit.rename, NeighborPriorityQueue.rename, List.map_map, List.filterMap_map]
    refine List.filterMap_congr fun m hm => ?_
    simp only [Function.comp_apply, result, Neighbor.rename, h.tag m.id (hwithin.queue m hm)]
  · rw [searchWithTags, searchWithTags, if_pos (not_le.mp hKL), if_pos (not_le.mp hKL)]

end DynamicIndex

end HiDANN.Memory
