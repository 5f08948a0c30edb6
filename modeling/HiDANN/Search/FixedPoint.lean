import HiDANN.Search.Beam

/-! Where the disk search ends. When nothing is left to expand, the list is closed
under the edges of the graph up to its last element: a neighbour of one of its nodes
is in the list, or beyond a full list. A list that is not full is all that can be
reached. -/

namespace HiDANN.Search

open NeighborPriorityQueue Relation

variable {δ : Type*} [LinearOrder δ]

/-- The ids an expansion of `start` or of an expanded node has brought up. -/
def everReached (disk : ℕ → List ℕ) (start : ℕ) (t : Traversal δ) : Set ℕ :=
  {v | v = start ∨ ∃ u ∈ t.expanded, v ∈ disk u}

/-- The search list is a fixed point of expansion. -/
structure FixedPoint (disk : ℕ → List ℕ) (dist : ℕ → δ) (L start : ℕ) (t : Traversal δ) :
    Prop where
  expanded : ∀ m ∈ t.retset.data, m.expanded = true ∧ m.id ∈ t.expanded
  closed : ∀ m ∈ t.retset.data, ∀ w ∈ disk m.id, (∃ m' ∈ t.retset.data, m'.id = w) ∨
    t.retset.data.length = L ∧ ∀ last, t.retset.data.getLast? = some last →
      ¬ rank dist w < last.key
  complete : t.retset.data.length < L →
    ∀ v, (∃ m ∈ t.retset.data, m.id = v) ↔ ReflTransGen (fun u w => w ∈ disk u) start v
  smallest : Smallest L (rank dist '' everReached disk start t) t.retset.keys

section

variable {n L start : ℕ} {disk : ℕ → List ℕ} {dist : ℕ → δ} {t : Traversal δ}

theorem BeamInv.everReached (h : BeamInv n disk dist L start t []) :
    everReached disk start t = {v | v ∈ t.visited} := by
  ext v
  constructor
  · rintro (rfl | ⟨u, hu, hv⟩)
    · exact h.start_mem
    · exact h.closed u hu v hv
  · exact h.reached v

/-- A list without unexpanded nodes that is not full holds everything reachable. -/
theorem BeamInv.complete (h : BeamInv n disk dist L start t [])
    (hend : t.retset.hasUnexpandedNode = false) (hlen : t.retset.data.length < L) {v : ℕ}
    (hv : ReflTransGen (fun u w => w ∈ disk u) start v) : ∃ m ∈ t.retset.data, m.id = v := by
  -- an offered id stays in a list that is not full
  have hin : ∀ w ∈ t.visited, ∃ m ∈ t.retset.data, m.id = w := by
    intro w hw
    by_contra hout
    have hfull := (h.tracks.out hw fun m hm he => hout ⟨m, hm, he⟩).1
    rw [h.capacity] at hfull
    omega
  induction hv with
  | refl => exact hin start h.start_mem
  | tail _ hw ih =>
    obtain ⟨m, hm, rfl⟩ := ih
    have hexp := (h.tracks.all_taken hend m hm).2
    rw [Set.mem_ofPred_eq, List.append_nil] at hexp
    exact hin _ (h.closed m.id hexp _ hw)

theorem BeamInv.fixedPoint (h : BeamInv n disk dist L start t [])
    (hend : t.retset.hasUnexpandedNode = false) : FixedPoint disk dist L start t where
  expanded m hm := by
    have := h.tracks.all_taken hend m hm
    rwa [Set.mem_ofPred_eq, List.append_nil] at this
  closed m hm w hw := by
    have hexp := (h.tracks.all_taken hend m hm).2
    rw [Set.mem_ofPred_eq, List.append_nil] at hexp
    by_cases hin : ∃ m' ∈ t.retset.data, m'.id = w
    · exact .inl hin
    · obtain ⟨hfull, hlt⟩ := h.tracks.out (h.closed m.id hexp w hw)
        fun m' hm' he => hin ⟨m', hm', he⟩
      rw [h.capacity] at hfull
      refine .inr ⟨hfull, fun last hlast => not_lt.mpr ?_⟩
      have hmem := List.mem_of_getLast? hlast
      rw [h.tracks.key_eq hmem]
      exact (hlt last hmem).le
  complete hlen v := by
    constructor
    · rintro ⟨m, hm, rfl⟩
      exact h.reachable m.id (h.tracks.mem hm)
    · exact h.complete hend hlen
  smallest := by
    rw [h.everReached, ← h.capacity]
    exact h.tracks.smallest

end

/-- The disk search comes to an end, and ends at a fixed point unless the limit on
the reads stops it. -/
theorem beam_search_fixed_point (n : ℕ) (disk : ℕ → List ℕ) (hdisk : ∀ u < n, ∀ w ∈ disk u, w < n)
    (start : ℕ) (hstart : start < n) (dist : ℕ → δ) (L : ℕ) (hL : 1 ≤ L) (beamWidth : ℕ)
    (hW : 1 ≤ beamWidth) (cache : Cache) (hcache : cache.Agrees disk) (ioLimit : ℕ) :
    (∀ fuel > n, ∃ s, beamSearch disk dist cache beamWidth ioLimit L start fuel = some s) ∧
    ∀ fuel s, beamSearch disk dist cache beamWidth ioLimit L start fuel = some s →
      s.numIos < ioLimit → FixedPoint disk dist L start s.traversal := by
  have hinv : BeamInv n disk dist L start (beamStart dist L start).traversal [] :=
    beamStart_inv hL hstart
  refine ⟨fun fuel hfuel => ?_, fun fuel s hs hlimit => ?_⟩
  · exact Option.isSome_iff_exists.mp (beamLoop_isSome hdisk hcache hW fuel hinv (by omega))
  · obtain ⟨h, hend⟩ := beamLoop_inv hdisk hcache fuel hinv hs
    exact h.fixedPoint (hend.resolve_right (by omega))

/-- A path with a way back, its second node cached. -/
def pathGraph (u : ℕ) : List ℕ := [[1, 1], [0, 2], [], [0]].getD u []

def pathCache : Cache where
  useOffsetCacheMode := true
  cacheOffsets := [cacheEmpty, 0, cacheEmpty, cacheEmpty]
  cacheHashKeys := []
  cacheHashOffsets := []
  cachePool := [2, 0, 2]

theorem pathCache_agrees : pathCache.Agrees pathGraph := by
  intro id nbrs h
  match id with
  | 0 => cases h
  | 1 => exact (Option.some.inj h).symm
  | 2 => cases h
  | 3 => cases h
  | id + 4 => cases h

/-- The search list `2, 1` of the nodes in reach of `0`, each nearer than the one before. -/
theorem path_fixed_point : ∃ s,
    beamSearch pathGraph (fun v => 3 - v) pathCache 2 100 2 0 5 = some s ∧
    s.traversal.retset.data.map Neighbor.id = [2, 1] ∧
    FixedPoint pathGraph (fun v => 3 - v) 2 0 s.traversal := by
  have hdisk : ∀ u < 4, ∀ w ∈ pathGraph u, w < 4 := by decide
  have h := beam_search_fixed_point 4 pathGraph hdisk 0 (by decide) (fun v => 3 - v) 2
    (by decide) 2 (by decide) pathCache pathCache_agrees 100
  obtain ⟨s, hs⟩ := h.1 5 (by decide)
  have hrun : (beamSearch pathGraph (fun v => 3 - v) pathCache 2 100 2 0 5).map
      (fun s => (s.traversal.retset.data.map Neighbor.id, s.numIos)) = some ([2, 1], 2) := by
    decide
  rw [hs] at hrun
  obtain ⟨hids, hios⟩ := Prod.mk.inj (Option.some.inj hrun)
  exact ⟨s, hs, hids, h.2 5 s hs (by omega)⟩

end HiDANN.Search
