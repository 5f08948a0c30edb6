import HiDANN.Search.EarlyExit
import HiDANN.Search.ReadsOnce

/-! `cached_beam_search_explicit`: the traversal and the refinement of its candidates. With
a beam of width one every round expands the closest candidate with its list on disk,
whether the list comes from the cache or is read, so two runs on the same graph with
different caches go through the same traversals and hand out the same results; the
cache decides only which of the expansions are reads. -/

namespace HiDANN.Search

open NeighborPriorityQueue TopK

variable {δ : Type*} [LinearOrder δ]

/-- The search of one query: how it ends, and the ids and distances it hands out. -/
def cachedBeamSearchExplicit [Neg δ] (disk : ℕ → List ℕ) (dist exact : ℕ → δ)
    (heap : TopKHeap δ) (a : RefineArgs) (innerProduct : Bool) (cache : Cache)
    (beamWidth ioLimit start fuel : ℕ) : Option (BeamState δ × List (ℕ × δ)) :=
  (beamSearch disk dist cache beamWidth ioLimit a.lSearch start fuel).map fun s =>
    (s, results heap a exact innerProduct s.traversal.retset.data)

/-! ### One node at a time -/

def expandNext (disk : ℕ → List ℕ) (dist : ℕ → δ) (t : Traversal δ) : Traversal δ :=
  match t.retset.closestUnexpanded with
  | (none, _) => t
  | (some nbr, q) => expand dist { t with retset := q } nbr.id (disk nbr.id)

variable {disk : ℕ → List ℕ} {dist : ℕ → δ} {cache cache' : Cache} {ioLimit : ℕ}

theorem beamRound_one (hcache : cache.Agrees disk) {s : BeamState δ}
    (hne : s.traversal.retset.hasUnexpandedNode) :
    (beamRound disk dist cache 1 s).traversal = expandNext disk dist s.traversal := by
  have hcol : collect dist cache 1 1 (s.traversal, []) =
      collectStep dist cache (s.traversal, []) := by
    rw [collect, if_pos ⟨hne, Nat.one_pos⟩, collect]
  rw [beamRound, hcol, collectStep, expandNext]
  cases hc : s.traversal.retset.closestUnexpanded with
  | mk nbr q =>
    cases nbr with
    | none => simp
    | some nbr =>
      cases hn : cache.neighbors nbr.id with
      | none => simp [hn]
      | some nbrs =>
        obtain rfl := hcache nbr.id nbrs hn
        simp [hn]

/-- Two runs of width one that are not stopped by the limit pass through the same
traversals; neither can end before the other. -/
theorem beamLoop_transparent (hcache : cache.Agrees disk) (hcache' : cache'.Agrees disk)
    (fuel fuel' : ℕ) {s s' r r' : BeamState δ} (hs : s.traversal = s'.traversal)
    (hr : beamLoop disk dist cache 1 ioLimit fuel s = some r)
    (hr' : beamLoop disk dist cache' 1 ioLimit fuel' s' = some r')
    (hlim : r.numIos < ioLimit) (hlim' : r'.numIos < ioLimit) : r.traversal = r'.traversal := by
  induction fuel generalizing fuel' s s' with
  | zero => cases hr
  | succ fuel ih =>
    cases fuel' with
    | zero => cases hr'
    | succ fuel' =>
      rw [beamLoop] at hr hr'
      split_ifs at hr hr' with hgo hgo' hgo'
      · refine ih fuel' ?_ hr hr'
        rw [beamRound_one hcache hgo.1, beamRound_one hcache' hgo'.1, hs]
      · obtain rfl := Option.some.inj hr'
        exact absurd ⟨hs ▸ hgo.1, hlim'⟩ hgo'
      · obtain rfl := Option.some.inj hr
        exact absurd ⟨hs ▸ hgo'.1, hlim⟩ hgo
      · obtain rfl := Option.some.inj hr
        obtain rfl := Option.some.inj hr'
        exact hs

/-- With a beam of width one the cache changes nothing but the reads: both searches end,
and unless the limit stops one of them they offer and expand the same ids in the same
order and hand out the same ids and distances. -/
theorem cache_transparent [Neg δ] (disk : ℕ → List ℕ) (start : ℕ) (dist exact : ℕ → δ)
    (heap : TopKHeap δ) (a : RefineArgs) (innerProduct : Bool) (cache cache' : Cache)
    (hcache : cache.Agrees disk) (hcache' : cache'.Agrees disk) (ioLimit : ℕ) :
    (∀ n, start < n → (∀ u < n, ∀ w ∈ disk u, w < n) → 1 ≤ a.lSearch → ∀ fuel > n,
      (cachedBeamSearchExplicit disk dist exact heap a innerProduct cache 1 ioLimit start
        fuel).isSome ∧
      (cachedBeamSearchExplicit disk dist exact heap a innerProduct cache' 1 ioLimit start
        fuel).isSome) ∧
    ∀ fuel fuel' s s' out out',
      cachedBeamSearchExplicit disk dist exact heap a innerProduct cache 1 ioLimit start fuel =
        some (s, out) →
      cachedBeamSearchExplicit disk dist exact heap a innerProduct cache' 1 ioLimit start fuel' =
        some (s', out') →
      s.numIos < ioLimit → s'.numIos < ioLimit →
      s.traversal = s'.traversal ∧ out = out' := by
  refine ⟨fun n hstart hdisk hL fuel hfuel => ?_, fun fuel fuel' s s' out out' h h' hlim hlim' => ?_⟩
  · have hends : ∀ c : Cache, c.Agrees disk → (cachedBeamSearchExplicit disk dist exact heap a
        innerProduct c 1 ioLimit start fuel).isSome := by
      intro c hc
      have hinv : BeamInv n disk dist a.lSearch start
          (beamStart dist a.lSearch start).traversal [] := beamStart_inv hL hstart
      rw [cachedBeamSearchExplicit, Option.isSome_map]
      exact beamLoop_isSome hdisk hc Nat.one_pos fuel hinv (by omega)
    exact ⟨hends cache hcache, hends cache' hcache'⟩
  · obtain ⟨r, hr, he⟩ := Option.map_eq_some_iff.mp h
    obtain ⟨r', hr', he'⟩ := Option.map_eq_some_iff.mp h'
    obtain ⟨rfl, rfl⟩ := Prod.mk.inj he
    obtain ⟨rfl, rfl⟩ := Prod.mk.inj he'
    have ht := beamLoop_transparent hcache hcache' fuel fuel' rfl hr hr' hlim hlim'
    exact ⟨ht, by rw [ht]⟩

/-- The path searched without a cache and with its second node cached. -/
theorem path_transparent : ∃ s s' out,
    cachedBeamSearchExplicit pathGraph (fun v => 3 - (v : ℤ)) exactly (decreasingHeap TopKNode.d)
      nearestTwo false Cache.empty 1 100 0 5 = some (s, out) ∧
    cachedBeamSearchExplicit pathGraph (fun v => 3 - (v : ℤ)) exactly (decreasingHeap TopKNode.d)
      nearestTwo false pathCache 1 100 0 5 = some (s', out) ∧
    s.reads = [0, 1, 2] ∧ s'.reads = [0, 2] := by
  have h := cache_transparent pathGraph 0 (fun v => 3 - (v : ℤ)) exactly
    (decreasingHeap TopKNode.d) nearestTwo false Cache.empty pathCache
    (Cache.empty_agrees pathGraph) pathCache_agrees 100
  obtain ⟨hends, hends'⟩ := h.1 4 (by decide) (by decide) (by decide) 5 (by decide)
  obtain ⟨⟨s, out⟩, hs⟩ := Option.isSome_iff_exists.mp hends
  obtain ⟨⟨s', out'⟩, hs'⟩ := Option.isSome_iff_exists.mp hends'
  have hrun : (cachedBeamSearchExplicit pathGraph (fun v => 3 - (v : ℤ)) exactly
      (decreasingHeap TopKNode.d) nearestTwo false Cache.empty 1 100 0 5).map
      (fun p => (p.1.reads, p.1.numIos)) = some ([0, 1, 2], 3) := by decide
  have hrun' : (cachedBeamSearchExplicit pathGraph (fun v => 3 - (v : ℤ)) exactly
      (decreasingHeap TopKNode.d) nearestTwo false pathCache 1 100 0 5).map
      (fun p => (p.1.reads, p.1.numIos)) = some ([0, 2], 2) := by decide
  rw [hs] at hrun
  rw [hs'] at hrun'
  obtain ⟨hreads, hios⟩ := Prod.mk.inj (Option.some.inj hrun)
  obtain ⟨hreads', hios'⟩ := Prod.mk.inj (Option.some.inj hrun')
  simp only at hreads hios hreads' hios'
  obtain ⟨-, rfl⟩ := h.2 5 5 s s' out out' hs hs' (by omega) (by omega)
  exact ⟨s, s', out, hs, hs', hreads, hreads'⟩

end HiDANN.Search
