import HiDANN.Search.FixedPoint

/-! What the traversal costs. An id is offered to the queue, expanded and read at most
once, so the rounds come to an end on any graph. The reads are the expanded ids that
are not cached, in their order; a round adds at most `beam_width` of them. None of
this needs the cached lists to be those on disk. -/

namespace HiDANN.Search

open NeighborPriorityQueue

variable {δ : Type*} [LinearOrder δ]

/-- The lists the search expands with: those in the cache, else those on disk. -/
def Cache.overlay (c : Cache) (disk : ℕ → List ℕ) (id : ℕ) : List ℕ :=
  (c.neighbors id).getD (disk id)

theorem Cache.overlay_agrees (c : Cache) (disk : ℕ → List ℕ) : c.Agrees (c.overlay disk) := by
  intro id nbrs h
  rw [overlay, h, Option.getD_some]

theorem Cache.overlay_none {c : Cache} {id : ℕ} (h : c.neighbors id = none)
    (disk : ℕ → List ℕ) : c.overlay disk id = disk id := by
  rw [overlay, h, Option.getD_none]

theorem Cache.overlay_lt {c : Cache} {disk : ℕ → List ℕ} {n : ℕ}
    (hdisk : ∀ u < n, ∀ w ∈ disk u, w < n)
    (hcache : ∀ u < n, ∀ nbrs, c.neighbors u = some nbrs → ∀ w ∈ nbrs, w < n) :
    ∀ u < n, ∀ w ∈ c.overlay disk u, w < n := by
  intro u hu w hw
  cases hc : c.neighbors u with
  | none =>
    rw [overlay_none hc] at hw
    exact hdisk u hu w hw
  | some nbrs =>
    rw [overlay, hc, Option.getD_some] at hw
    exact hcache u hu nbrs hc w hw

/-! ### Offers and reads -/

/-- No id has been offered twice, and the ids of `reads` are the expanded ones that are
not cached. -/
structure Once (cache : Cache) (t : Traversal δ) (reads : List ℕ) : Prop where
  nodup : t.visited.Nodup
  reads_eq : t.expanded.filter (fun id => (cache.neighbors id).isNone) = reads

variable {dist : ℕ → δ} {cache : Cache} {t : Traversal δ} {reads : List ℕ}

theorem visits_once (dist : ℕ → δ) (ids : List ℕ) (h : t.visited.Nodup) :
    (ids.foldl (visit dist) t).visited.Nodup ∧
      (ids.foldl (visit dist) t).expanded = t.expanded := by
  induction ids generalizing t with
  | nil => exact ⟨h, rfl⟩
  | cons v ids ih =>
    rw [List.foldl_cons, visit]
    split_ifs with hv
    · exact ih h
    · have hnd : (t.visited ++ [v]).Nodup :=
        List.nodup_append.mpr ⟨h, List.nodup_singleton v, fun a ha b hb he =>
          hv (List.mem_singleton.mp hb ▸ he ▸ ha)⟩
      exact ih (t := { t with
        visited := t.visited ++ [v]
        retset := t.retset.insert (candidate dist v) }) hnd

omit [LinearOrder δ] in
theorem Once.queue (h : Once cache t reads) (q : NeighborPriorityQueue δ) :
    Once cache { t with retset := q } reads := ⟨h.nodup, h.reads_eq⟩

theorem once_expand (dist : ℕ → δ) (h : Once cache t reads) (id : ℕ) (ids : List ℕ) :
    Once cache (expand dist t id ids)
      (reads ++ [id].filter fun id => (cache.neighbors id).isNone) := by
  obtain ⟨hnd, hexp⟩ := visits_once dist (t := { t with expanded := t.expanded ++ [id] })
    ids h.nodup
  constructor
  · exact hnd
  · rw [expand, hexp, List.filter_append, h.reads_eq]

theorem Once.cached {id : ℕ} {nbrs : List ℕ} (h : Once cache t reads)
    (hid : cache.neighbors id = some nbrs) (ids : List ℕ) :
    Once cache (expand dist t id ids) reads := by
  simpa [hid] using once_expand dist h id ids

theorem Once.read (dist : ℕ → δ) {id : ℕ} (h : Once cache t reads) (hid : cache.neighbors id = none)
    (ids : List ℕ) : Once cache (expand dist t id ids) (reads ++ [id]) := by
  simpa [hid] using once_expand dist h id ids

/-! ### Rounds -/

/-- What the collecting loop keeps: the frontier is not cached and not wider than the beam. -/
structure Waiting (cache : Cache) (beamWidth : ℕ) (reads : List ℕ) (s : Traversal δ × List ℕ) :
    Prop where
  once : Once cache s.1 reads
  uncached : ∀ id ∈ s.2, cache.neighbors id = none
  width : s.2.length ≤ beamWidth

theorem Waiting.step {beamWidth : ℕ} {s : Traversal δ × List ℕ}
    (h : Waiting cache beamWidth reads s) (hlt : s.2.length < beamWidth) :
    Waiting cache beamWidth reads (collectStep dist cache s) := by
  unfold collectStep
  cases hc : s.1.retset.closestUnexpanded with
  | mk nbr q =>
    cases nbr with
    | none => exact h
    | some nbr =>
      cases hn : cache.neighbors nbr.id with
      | none =>
        simp only [hn]
        refine ⟨h.once.queue q, fun id hid => ?_, ?_⟩
        · rcases List.mem_append.mp hid with hid | hid
          · exact h.uncached id hid
          · rwa [List.mem_singleton.mp hid]
        · rwa [List.length_append, List.length_singleton]
      | some nbrs =>
        simp only [hn]
        exact ⟨(h.once.queue q).cached hn nbrs, h.uncached, h.width⟩

theorem Waiting.collect (dist : ℕ → δ) {beamWidth : ℕ} (fuel : ℕ) {s : Traversal δ × List ℕ}
    (h : Waiting cache beamWidth reads s) :
    Waiting cache beamWidth reads (collect dist cache beamWidth fuel s) := by
  induction fuel generalizing s with
  | zero => exact h
  | succ fuel ih =>
    rw [Search.collect]
    split_ifs with hc
    · exact ih (h.step hc.2)
    · exact h

theorem Once.frontier {disk : ℕ → List ℕ} {frontier : List ℕ} (h : Once cache t reads)
    (hun : ∀ id ∈ frontier, cache.neighbors id = none) :
    Once cache (frontier.foldl (fun t id => expand dist t id (disk id)) t) (reads ++ frontier) := by
  induction frontier generalizing t reads with
  | nil => rwa [List.append_nil]
  | cons id frontier ih =>
    have hstep := ih (Once.read dist h (hun id (by simp)) (disk id))
      (fun w hw => hun w (by simp [hw]))
    rwa [List.append_assoc, List.singleton_append] at hstep

/-- What every round keeps about the reads. -/
structure ReadInv (cache : Cache) (s : BeamState δ) : Prop where
  once : Once cache s.traversal s.reads
  numIos_eq : s.numIos = s.reads.length % 2 ^ 32

variable {disk : ℕ → List ℕ} {beamWidth ioLimit n L start : ℕ} {s s' : BeamState δ}

theorem beamStart_readInv : ReadInv cache (beamStart dist L start) :=
  ⟨⟨List.nodup_singleton start, rfl⟩, rfl⟩

omit [LinearOrder δ] in
theorem ReadInv.waiting (h : ReadInv cache s) (beamWidth : ℕ) :
    Waiting cache beamWidth s.reads (s.traversal, []) :=
  ⟨h.once, fun _ hid => absurd hid List.not_mem_nil, Nat.zero_le _⟩

theorem beamRound_readInv (disk : ℕ → List ℕ) (dist : ℕ → δ) (beamWidth : ℕ) (h : ReadInv cache s) :
    ReadInv cache (beamRound disk dist cache beamWidth s) ∧
      (beamRound disk dist cache beamWidth s).reads.length ≤ s.reads.length + beamWidth := by
  have hcol := Waiting.collect dist beamWidth (h.waiting beamWidth)
  refine ⟨⟨hcol.once.frontier hcol.uncached, ?_⟩, ?_⟩
  · rw [beamRound, h.numIos_eq]
    simp only [List.length_append, Nat.mod_add_mod]
  · have := hcol.width
    simp only [beamRound, List.length_append]
    omega

/-- A round reads from disk only the nodes that are not cached. -/
theorem beamRound_overlay (h : ReadInv cache s) :
    beamRound (cache.overlay disk) dist cache beamWidth s =
      beamRound disk dist cache beamWidth s := by
  have hun := (Waiting.collect dist beamWidth (h.waiting beamWidth)).uncached
  have hfold : ∀ ids : List ℕ, (∀ id ∈ ids, cache.neighbors id = none) → ∀ t : Traversal δ,
      ids.foldl (fun t id => expand dist t id (cache.overlay disk id)) t =
        ids.foldl (fun t id => expand dist t id (disk id)) t := by
    intro ids hids t
    induction ids generalizing t with
    | nil => rfl
    | cons id ids ih =>
      rw [List.foldl_cons, List.foldl_cons, Cache.overlay_none (hids id (by simp)),
        ih fun w hw => hids w (by simp [hw])]
  simp only [beamRound, hfold _ hun]

theorem beamLoop_overlay (fuel : ℕ) (h : ReadInv cache s) :
    beamLoop (cache.overlay disk) dist cache beamWidth ioLimit fuel s =
      beamLoop disk dist cache beamWidth ioLimit fuel s := by
  induction fuel generalizing s with
  | zero => rfl
  | succ fuel ih =>
    rw [beamLoop, beamLoop, beamRound_overlay h]
    split_ifs
    · exact ih (beamRound_readInv _ _ _ h).1
    · rfl

/-! ### Runs -/

/-- As long as something is left to expand, the counter has not wrapped around. -/
theorem ReadInv.numIos_exact (h : ReadInv cache s) (hinv : BeamInv n disk dist L start s.traversal [])
    (hn : n ≤ 2 ^ 32) (hne : s.traversal.retset.hasUnexpandedNode) :
    s.numIos = s.reads.length := by
  obtain ⟨m, -, hm, htake⟩ := hinv.take hne
  have hsub : s.reads.length ≤ s.traversal.expanded.length := by
    rw [← h.once.reads_eq]
    exact List.length_filter_le _ _
  have hlt : s.traversal.expanded.length < n := by
    have hle : (s.traversal.expanded ++ [m.id]) ⊆ List.range n := fun v hv =>
      List.mem_range.mpr (htake.lt v (htake.tracks.sub hv))
    have hcard := (List.subperm_of_subset htake.nodup hle).length_le
    rwa [List.length_append, List.length_range] at hcard
  rw [h.numIos_eq, Nat.mod_eq_of_lt (by omega)]

theorem beamLoop_readInv (hdisk : ∀ u < n, ∀ w ∈ disk u, w < n) (hcache : cache.Agrees disk)
    (hn : n ≤ 2 ^ 32) (fuel : ℕ) (hinv : BeamInv n disk dist L start s.traversal [])
    (h : ReadInv cache s) (hlt : s.reads.length < ioLimit + beamWidth)
    (hs : beamLoop disk dist cache beamWidth ioLimit fuel s = some s') :
    ReadInv cache s' ∧ s'.reads.length < ioLimit + beamWidth := by
  induction fuel generalizing s with
  | zero => cases hs
  | succ fuel ih =>
    rw [beamLoop] at hs
    split_ifs at hs with hc
    · obtain ⟨hround, hlen⟩ := beamRound_readInv disk dist beamWidth h
      have hios := h.numIos_exact hinv hn hc.1
      exact ih (beamRound_inv hdisk hcache hinv) hround (by omega) hs
    · obtain rfl := Option.some.inj hs
      exact ⟨h, hlt⟩

/-- What a run of the traversal has done when it ends. -/
structure ReadsOnce (dist : ℕ → δ) (cache : Cache) (beamWidth ioLimit : ℕ) (s : BeamState δ) :
    Prop where
  offered : s.traversal.visited.Nodup
  expanded : s.traversal.expanded.Nodup
  read : s.reads.Nodup
  uncached : ∀ id ∈ s.reads, cache.neighbors id = none
  reads_lt : s.reads.length < ioLimit + beamWidth
  ids : (s.traversal.retset.data.map Neighbor.id).Nodup
  sorted : s.traversal.retset.data.Pairwise Neighbor.lt
  approximate : ∀ m ∈ s.traversal.retset.data, m.distance = dist m.id

/-- The traversal comes to an end, on any graph and with any cache, and by then has
offered, expanded and read each id at most once. -/
theorem beam_search_reads_once (n : ℕ) (hn : n ≤ 2 ^ 32) (disk : ℕ → List ℕ)
    (hdisk : ∀ u < n, ∀ w ∈ disk u, w < n) (cache : Cache)
    (hcache : ∀ u < n, ∀ nbrs, cache.neighbors u = some nbrs → ∀ w ∈ nbrs, w < n)
    (start : ℕ) (hstart : start < n) (dist : ℕ → δ) (L : ℕ) (hL : 1 ≤ L) (beamWidth : ℕ)
    (hW : 1 ≤ beamWidth) (ioLimit : ℕ) :
    (∀ fuel > n, ∃ s, beamSearch disk dist cache beamWidth ioLimit L start fuel = some s) ∧
    ∀ fuel s, beamSearch disk dist cache beamWidth ioLimit L start fuel = some s →
      ReadsOnce dist cache beamWidth ioLimit s := by
  have hlt := Cache.overlay_lt hdisk hcache
  have hagrees := cache.overlay_agrees disk
  have hread : ReadInv cache (beamStart dist L start) := beamStart_readInv
  have hinv : BeamInv n (cache.overlay disk) dist L start (beamStart dist L start).traversal [] :=
    beamStart_inv hL hstart
  have hsame : ∀ fuel, beamSearch (cache.overlay disk) dist cache beamWidth ioLimit L start fuel =
      beamSearch disk dist cache beamWidth ioLimit L start fuel :=
    fun fuel => beamLoop_overlay fuel hread
  refine ⟨fun fuel hfuel => ?_, fun fuel s hs => ?_⟩
  · rw [← hsame]
    exact Option.isSome_iff_exists.mp (beamLoop_isSome hlt hagrees hW fuel hinv (by omega))
  · rw [← hsame] at hs
    obtain ⟨hend, -⟩ := beamLoop_inv hlt hagrees fuel hinv hs
    obtain ⟨hone, hreads⟩ := beamLoop_readInv hlt hagrees hn fuel hinv hread
      (show 0 < ioLimit + beamWidth by omega) hs
    have hexp : s.traversal.expanded.Nodup := by simpa using hend.nodup
    have hkeys := hend.tracks.valid.sorted
    exact {
      offered := hone.once.nodup
      expanded := hexp
      read := hone.once.reads_eq ▸ hexp.filter _
      uncached := fun id hid => by
        rw [← hone.once.reads_eq, List.mem_filter, Option.isNone_iff_eq_none] at hid
        exact hid.2
      reads_lt := hreads
      ids := hend.tracks.nodup_ids
      sorted := (List.pairwise_map.mp hkeys).imp fun hlt => (Neighbor.lt_iff _ _).mpr hlt
      approximate := hend.tracks.dist_eq }

/-- The path with its second node cached: the two others are read. -/
theorem path_reads_once : ∃ s,
    beamSearch pathGraph (fun v => 3 - v) pathCache 2 100 2 0 5 = some s ∧ s.reads = [0, 2] ∧
    ReadsOnce (fun v => 3 - v) pathCache 2 100 s := by
  have hdisk : ∀ u < 4, ∀ w ∈ pathGraph u, w < 4 := by decide
  have hcache : ∀ u < 4, ∀ nbrs, pathCache.neighbors u = some nbrs → ∀ w ∈ nbrs, w < 4 := by
    intro u hu nbrs hn w hw
    rw [pathCache_agrees u nbrs hn] at hw
    exact hdisk u hu w hw
  have h := beam_search_reads_once 4 (by decide) pathGraph hdisk pathCache hcache 0 (by decide)
    (fun v => 3 - v) 2 (by decide) 2 (by decide) 100
  obtain ⟨s, hs⟩ := h.1 5 (by decide)
  have hrun : (beamSearch pathGraph (fun v => 3 - v) pathCache 2 100 2 0 5).map BeamState.reads =
      some [0, 2] := by decide
  rw [hs] at hrun
  exact ⟨s, hs, Option.some.inj hrun, h.2 5 s hs⟩

end HiDANN.Search
