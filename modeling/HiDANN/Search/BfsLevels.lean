import HiDANN.Library.Levels
import HiDANN.Search.CacheLoad

/-! The cache list from a breadth-first search: `cache_bfs_levels`. Each level is read in
batches. The number of nodes that are asked for is tested before a level, a batch and a
node, and after a neighbour has been added, but not when the medoids are added; so there
are as many nodes as are asked for, or as can be reached, unless there are more medoids
than that. -/

namespace HiDANN.Search

open Disk Levels

/-! ### The program -/

/-- `visited` in the order of insertion, `next_frontier` and `node_list`. -/
structure LevelState where
  visited : List ℕ
  nextFrontier : List ℕ
  nodeList : List ℕ

/-- The neighbours of a node, up to the one that fills the list. -/
def visitNeighbors (numNodes : ℕ) : List ℕ → LevelState → LevelState
  | [], s => s
  | v :: nbrs, s =>
    if v ∈ s.visited then visitNeighbors numNodes nbrs s
    else
      let s : LevelState := ⟨s.visited ++ [v], s.nextFrontier ++ [v], s.nodeList ++ [v]⟩
      if numNodes ≤ s.nodeList.length then s else visitNeighbors numNodes nbrs s

def visitBuffers (g : GraphSource) (numNodes : ℕ) : List (ℕ × List UInt8) → LevelState → LevelState
  | [], s => s
  | r :: rs, s =>
    if s.nodeList.length < numNodes then
      visitBuffers g numNodes rs (visitNeighbors numNodes (g.getNeighborsPtr r.1 r.2) s)
    else s

/-- One batch: all its requests are read, then its nodes are gone through. -/
def visitBatch (g : GraphSource) (file : List UInt8) (numNodes : ℕ) (ids : List ℕ)
    (s : LevelState) : LevelState :=
  let reqs := ids.map g.prepareNodeRead
  let bufs := reqs.map fun req => req.bytes file
  visitBuffers g numNodes (ids.zip bufs) s

def visitLevel (g : GraphSource) (file : List UInt8) (numNodes batchSize : ℕ) :
    ℕ → List ℕ → LevelState → LevelState
  | 0, _, s => s
  | fuel + 1, frontier, s =>
    if frontier ≠ [] ∧ s.nodeList.length < numNodes then
      visitLevel g file numNodes batchSize fuel (frontier.drop batchSize)
        (visitBatch g file numNodes (frontier.take batchSize) s)
    else s

/-- The levels; `none` when there are more of them than `fuel`. -/
def levelLoop (g : GraphSource) (file : List UInt8) (numNodes batchSize : ℕ) :
    ℕ → List ℕ → LevelState → Option (List ℕ)
  | 0, _, _ => none
  | fuel + 1, frontier, s =>
    if s.nodeList.length < numNodes ∧ frontier ≠ [] then
      let s := visitLevel g file numNodes batchSize frontier.length frontier { s with nextFrontier := [] }
      levelLoop g file numNodes batchSize fuel s.nextFrontier s
    else some s.nodeList

def addMedoid (s : LevelState) (m : ℕ) : LevelState :=
  if m ∈ s.visited then s else ⟨s.visited ++ [m], s.nextFrontier ++ [m], s.nodeList ++ [m]⟩

/-- `cache_bfs_levels`, for as many levels as `fuel`. -/
def cacheBfsLevels (g : GraphSource) (file : List UInt8) (medoids : List ℕ) (numNodes : ℕ)
    (env : CacheEnv) (nodeList : List ℕ) (fuel : ℕ) : Option (List ℕ) :=
  if numNodes = 0 then some nodeList
  else
    let s := medoids.foldl addMedoid ⟨[], [], nodeList⟩
    levelLoop g file numNodes env.batchSize fuel s.nextFrontier s

/-! ### Batches -/

variable {g : GraphSource} {file : List UInt8} {numNodes : ℕ}

def visitNodes (next : ℕ → List ℕ) (numNodes : ℕ) : List ℕ → LevelState → LevelState
  | [], s => s
  | u :: us, s =>
    if s.nodeList.length < numNodes then
      visitNodes next numNodes us (visitNeighbors numNodes (next u) s)
    else s

theorem visitBatch_eq (ids : List ℕ) (s : LevelState) :
    visitBatch g file numNodes ids s = visitNodes (g.onDisk file) numNodes ids s := by
  induction ids generalizing s with
  | nil => rfl
  | cons u ids ih =>
    rw [visitBatch, List.map_cons, List.map_cons, List.zip_cons_cons, visitBuffers, visitNodes]
    split_ifs
    · exact ih _
    · rfl

theorem visitNodes_full {next : ℕ → List ℕ} (ids : List ℕ) {s : LevelState}
    (h : ¬ s.nodeList.length < numNodes) : visitNodes next numNodes ids s = s := by
  cases ids with
  | nil => rfl
  | cons u ids => rw [visitNodes, if_neg h]

theorem visitNodes_append (next : ℕ → List ℕ) (us vs : List ℕ) (s : LevelState) :
    visitNodes next numNodes (us ++ vs) s =
      visitNodes next numNodes vs (visitNodes next numNodes us s) := by
  induction us generalizing s with
  | nil => rfl
  | cons u us ih =>
    rw [List.cons_append, visitNodes, visitNodes]
    split_ifs with h
    · exact ih _
    · rw [visitNodes_full vs h]

/-- The batches of a level only group its reads. -/
theorem visitLevel_eq {batchSize : ℕ} (hpos : 0 < batchSize) (fuel : ℕ) (frontier : List ℕ)
    (hfuel : frontier.length ≤ fuel) (s : LevelState) :
    visitLevel g file numNodes batchSize fuel frontier s =
      visitNodes (g.onDisk file) numNodes frontier s := by
  induction fuel generalizing frontier s with
  | zero =>
    rw [List.length_eq_zero_iff.mp (Nat.le_zero.mp hfuel)]
    rfl
  | succ fuel ih =>
    rw [visitLevel]
    by_cases hgo : frontier ≠ [] ∧ s.nodeList.length < numNodes
    · have hne := List.length_pos_iff.mpr hgo.1
      rw [if_pos hgo, visitBatch_eq, ih _ (by rw [List.length_drop]; omega),
        ← visitNodes_append, List.take_append_drop]
    · rw [if_neg hgo]
      rcases not_and_or.mp hgo with hempty | hfull
      · rw [not_not.mp hempty]
        rfl
      · exact (visitNodes_full frontier hfull).symm

/-! ### A level -/

section Level

variable {next : ℕ → List ℕ} {start : List ℕ} {n k : ℕ} {old seen : List ℕ} {s : LevelState}

variable (next start) in
/-- Level `n` is being expanded for `k` nodes. Unless the list is full, the nodes in `seen`
have been found. -/
structure Round (n k : ℕ) (old seen : List ℕ) (s : LevelState) : Prop where
  expanding : Expanding next start n old s.nextFrontier
  visited_eq : s.visited = old ++ s.nextFrontier
  list_eq : s.nodeList = s.visited
  length_le : s.nodeList.length ≤ k
  closed : s.nodeList.length < k → ∀ v ∈ seen, v ∈ s.visited

/-- One level after the other keeps what has been found. -/
theorem visitNeighbors_round (h : Round next start n k old seen s) (hlt : s.nodeList.length < k)
    {u : ℕ} (hu : At next start n u) {nbrs : List ℕ} (hnbrs : nbrs ⊆ next u) :
    Round next start n k old (seen ++ nbrs) (visitNeighbors k nbrs s) := by
  induction nbrs generalizing seen s with
  | nil => rwa [List.append_nil]
  | cons v nbrs ih =>
    have htail : nbrs ⊆ next u := fun w hw => hnbrs (List.mem_cons_of_mem _ hw)
    have happ : seen ++ v :: nbrs = seen ++ [v] ++ nbrs := by simp
    rw [visitNeighbors, happ]
    by_cases hv : v ∈ s.visited
    · rw [if_pos hv]
      refine ih ⟨h.expanding, h.visited_eq, h.list_eq, h.length_le, fun hroom w hw => ?_⟩ hlt htail
      rcases List.mem_append.mp hw with hw | hw
      · exact h.closed hroom w hw
      · rwa [List.mem_singleton.mp hw]
    · rw [if_neg hv]
      have hlist := h.list_eq
      have hlen : (s.nodeList ++ [v]).length = s.nodeList.length + 1 := List.length_append
      have hround : Round next start n k old (seen ++ [v])
          ⟨s.visited ++ [v], s.nextFrontier ++ [v], s.nodeList ++ [v]⟩ := by
        refine ⟨?_, ?_, ?_, hlen.trans_le hlt, fun _ w hw => ?_⟩
        · exact h.expanding.add hu (hnbrs List.mem_cons_self) (h.visited_eq ▸ hv)
        · dsimp only
          rw [h.visited_eq, List.append_assoc]
        · dsimp only
          rw [hlist]
        · rcases List.mem_append.mp hw with hw | hw
          · exact List.mem_append_left _ (h.closed hlt w hw)
          · exact List.mem_append_right _ hw
      dsimp only
      by_cases hfull : k ≤ (s.nodeList ++ [v]).length
      · rw [if_pos hfull]
        exact ⟨hround.expanding, hround.visited_eq, hround.list_eq, hround.length_le,
          fun hroom => absurd hroom (Nat.not_lt.mpr hfull)⟩
      · rw [if_neg hfull]
        exact ih hround (Nat.not_le.mp hfull) htail

theorem visitNodes_round (h : Round next start n k old seen s) {us : List ℕ}
    (hus : ∀ u ∈ us, At next start n u) :
    Round next start n k old (seen ++ us.flatMap next) (visitNodes next k us s) := by
  induction us generalizing seen s with
  | nil => rwa [List.flatMap_nil, List.append_nil]
  | cons u us ih =>
    rw [visitNodes, List.flatMap_cons, ← List.append_assoc]
    by_cases hlt : s.nodeList.length < k
    · rw [if_pos hlt]
      have hu := visitNeighbors_round h hlt (hus u List.mem_cons_self) (List.Subset.refl (next u))
      exact ih hu fun w hw => hus w (List.mem_cons_of_mem _ hw)
    · rw [if_neg hlt]
      exact ⟨h.expanding, h.visited_eq, h.list_eq, h.length_le, fun hroom => absurd hroom hlt⟩

/-! ### The levels -/

variable (next start) in
/-- The nodes of a breadth-first search: as many as are asked for or can be reached, the
nearer ones first. -/
structure BfsNodes (k : ℕ) (l : List ℕ) : Prop where
  nodup : l.Nodup
  ordered : l.Pairwise (NotFarther next start)
  reachable : ∀ v ∈ l, Reachable next start v
  length_eq : l.length = min k {v | Reachable next start v}.ncard

variable (next start) in
/-- What holds between two levels, of the list so far. -/
structure Found (k : ℕ) (s : LevelState) : Prop where
  nodup : s.visited.Nodup
  ordered : s.visited.Pairwise (NotFarther next start)
  reachable : ∀ v ∈ s.visited, Reachable next start v
  list_eq : s.nodeList = s.visited
  length_le : s.nodeList.length ≤ k

theorem Round.found (h : Round next start n k old seen s) : Found next start k s := by
  refine ⟨?_, ?_, fun v hv => ?_, h.list_eq, h.length_le⟩
  · rw [h.visited_eq]
    exact h.expanding.nodup
  · rw [h.visited_eq]
    exact h.expanding.ordered
  · rw [h.visited_eq] at hv
    exact h.expanding.reachable hv

theorem Expanding.found (h : Expanding next start n s.visited []) (hlist : s.nodeList = s.visited)
    (hle : s.nodeList.length ≤ k) : Found next start k s := by
  have hnil : s.visited ++ [] = s.visited := List.append_nil _
  refine ⟨hnil ▸ h.nodup, hnil ▸ h.ordered, fun v hv => ?_, hlist, hle⟩
  exact h.reachable (List.mem_append_left _ hv)

theorem Found.of_full (h : Found next start k s) (hfin : {v | Reachable next start v}.Finite)
    (hfull : ¬ s.nodeList.length < k) : BfsNodes next start k s.nodeList := by
  have hcard := length_le_ncard hfin h.nodup h.reachable
  have hle := h.length_le
  rw [← h.list_eq] at hcard
  refine ⟨h.list_eq ▸ h.nodup, h.list_eq ▸ h.ordered, h.list_eq ▸ h.reachable, ?_⟩
  rw [min_eq_left (by omega)]
  omega

theorem Found.of_complete (h : Found next start k s)
    (hall : ∀ v, Reachable next start v → v ∈ s.visited) :
    BfsNodes next start k s.nodeList := by
  have hcard := length_eq_ncard h.nodup fun v => ⟨h.reachable v, hall v⟩
  have hle := h.length_le
  rw [← h.list_eq] at hcard
  refine ⟨h.list_eq ▸ h.nodup, h.list_eq ▸ h.ordered, h.list_eq ▸ h.reachable, ?_⟩
  rw [← hcard, min_eq_right hle]

theorem visitNodes_level (h : Expanding next start n s.visited []) (hlist : s.nodeList = s.visited)
    (hle : s.nodeList.length ≤ k) {frontier : List ℕ}
    (hfrontier : ∀ v, v ∈ frontier ↔ At next start n v) :
    Round next start n k s.visited (frontier.flatMap next)
      (visitNodes next k frontier { s with nextFrontier := [] }) := by
  have hround : Round next start n k s.visited [] { s with nextFrontier := [] } :=
    ⟨h, (List.append_nil _).symm, hlist, hle, fun _ v hv => absurd hv List.not_mem_nil⟩
  exact visitNodes_round hround fun u hu => (hfrontier u).mp hu

theorem Round.next_level {frontier : List ℕ}
    (h : Round next start n k old (frontier.flatMap next) s) (hroom : s.nodeList.length < k)
    (hfrontier : ∀ v, v ∈ frontier ↔ At next start n v) :
    Expanding next start (n + 1) s.visited [] ∧
      ∀ v, v ∈ s.nextFrontier ↔ At next start (n + 1) v := by
  have hclosed : ∀ u, At next start n u → ∀ v ∈ next u, v ∈ old ++ s.nextFrontier := by
    intro u hu v hv
    rw [← h.visited_eq]
    exact h.closed hroom v (List.mem_flatMap.mpr ⟨u, (hfrontier u).mpr hu, hv⟩)
  rw [h.visited_eq]
  exact ⟨h.expanding.next_level hclosed, h.expanding.mem_fresh hclosed⟩

end Level

section Loop

variable {medoids : List ℕ} {k : ℕ}

/-- The levels end, and the list does not depend on the batches. The induction is on the
levels that can still come: each has a node that no other has. -/
theorem levelLoop_spec (hfin : {v | Reachable (g.onDisk file) medoids v}.Finite) {d n : ℕ}
    (hd : {v | Reachable (g.onDisk file) medoids v}.ncard < n + d) {frontier : List ℕ}
    {s : LevelState} (hfound : Found (g.onDisk file) medoids k s)
    (hcount : n + frontier.length ≤ s.visited.length)
    (hlevel : s.nodeList.length < k → Expanding (g.onDisk file) medoids n s.visited [] ∧
      ∀ v, v ∈ frontier ↔ At (g.onDisk file) medoids n v) :
    ∃ l, BfsNodes (g.onDisk file) medoids k l ∧ ∀ batchSize fuel, 0 < batchSize →
      {v | Reachable (g.onDisk file) medoids v}.ncard < n + fuel →
      levelLoop g file k batchSize fuel frontier s = some l := by
  have hcard := length_le_ncard hfin hfound.nodup hfound.reachable
  induction d generalizing n frontier s with
  | zero => omega
  | succ d ih =>
    by_cases hgo : s.nodeList.length < k ∧ frontier ≠ []
    · obtain ⟨hexp, hfrontier⟩ := hlevel hgo.1
      have hround := visitNodes_level hexp hfound.list_eq hfound.length_le hfrontier
      have hpos := List.length_pos_iff.mpr hgo.2
      set s' := visitNodes (g.onDisk file) k frontier { s with nextFrontier := [] } with hs'
      have hcount' : n + 1 + s'.nextFrontier.length ≤ s'.visited.length := by
        rw [hround.visited_eq, List.length_append]
        omega
      obtain ⟨l, hl, hloop⟩ := ih (by omega) hround.found hcount'
        (fun hroom => hround.next_level hroom hfrontier)
        (length_le_ncard hfin hround.found.nodup hround.found.reachable)
      refine ⟨l, hl, fun batchSize fuel hpos hfuel => ?_⟩
      cases fuel with
      | zero => omega
      | succ fuel =>
        rw [levelLoop, if_pos hgo, visitLevel_eq hpos _ _ le_rfl, ← hs']
        exact hloop batchSize fuel hpos (by omega)
    · refine ⟨s.nodeList, ?_, fun batchSize fuel _ hfuel => ?_⟩
      · by_cases hroom : s.nodeList.length < k
        · obtain ⟨hexp, hfrontier⟩ := hlevel hroom
          have hnil : frontier = [] := by_contra fun hne => hgo ⟨hroom, hne⟩
          have hempty : ∀ v, ¬ At (g.onDisk file) medoids n v := by
            intro v hv
            rw [← hfrontier, hnil] at hv
            exact List.not_mem_nil hv
          exact hfound.of_complete fun v hv => hexp.complete hempty hv
        · exact hfound.of_full hfin hroom
      · cases fuel with
        | zero => omega
        | succ fuel => rw [levelLoop, if_neg hgo]

/-! ### The medoids -/

theorem foldl_addMedoid (medoids : List ℕ) {l : List ℕ} (hnd : l.Nodup) :
    ∃ l', medoids.foldl addMedoid ⟨l, l, l⟩ = ⟨l', l', l'⟩ ∧ l'.Nodup ∧
      ∀ v, v ∈ l' ↔ v ∈ l ∨ v ∈ medoids := by
  induction medoids generalizing l with
  | nil => exact ⟨l, rfl, hnd, by simp⟩
  | cons m medoids ih =>
    rw [List.foldl_cons, addMedoid]
    by_cases hm : m ∈ l
    · rw [if_pos hm]
      obtain ⟨l', heq, hnd', hmem⟩ := ih hnd
      refine ⟨l', heq, hnd', fun v => ?_⟩
      rw [hmem, List.mem_cons]
      grind
    · rw [if_neg hm]
      have hnd₁ : (l ++ [m]).Nodup := by
        rw [List.nodup_append]
        refine ⟨hnd, List.nodup_singleton m, ?_⟩
        rintro a ha b hb rfl
        exact hm (List.mem_singleton.mp hb ▸ ha)
      obtain ⟨l', heq, hnd', hmem⟩ := ih hnd₁
      refine ⟨l', heq, hnd', fun v => ?_⟩
      rw [hmem, List.mem_append, List.mem_singleton, List.mem_cons, or_assoc]

theorem medoids_listed (medoids : List ℕ) :
    ∃ l, medoids.foldl addMedoid ⟨[], [], []⟩ = ⟨l, l, l⟩ ∧ l.Nodup ∧ (∀ v, v ∈ l ↔ v ∈ medoids) ∧
      l.length = medoids.dedup.length := by
  obtain ⟨l, heq, hnd, hmem⟩ := foldl_addMedoid medoids List.nodup_nil
  have hmem' : ∀ v, v ∈ l ↔ v ∈ medoids := by simpa using hmem
  have hperm : l.Perm medoids.dedup := by
    rw [List.perm_ext_iff_of_nodup hnd medoids.nodup_dedup]
    intro v
    rw [hmem', List.mem_dedup]
  exact ⟨l, heq, hnd, hmem', hperm.length_eq⟩

end Loop

/-! ### The list -/

section Cache

variable {medoids : List ℕ} {numPoints k : ℕ}

theorem reachable_mem (hids : ∀ u, u < numPoints ∨ u ∈ medoids → ∀ v ∈ g.onDisk file u, v < numPoints)
    {v : ℕ} (hv : Reachable (g.onDisk file) medoids v) : v < numPoints ∨ v ∈ medoids := by
  obtain ⟨n, hwalk⟩ := hv
  induction hwalk with
  | start hv => exact .inr hv
  | step _ hv ih => exact .inl (hids _ ih _ hv)

theorem finite_reachable
    (hids : ∀ u, u < numPoints ∨ u ∈ medoids → ∀ v ∈ g.onDisk file u, v < numPoints) :
    {v | Reachable (g.onDisk file) medoids v}.Finite ∧
      {v | Reachable (g.onDisk file) medoids v}.ncard ≤ numPoints + medoids.length := by
  classical
  have hsub : {v | Reachable (g.onDisk file) medoids v} ⊆
      ((List.range numPoints ++ medoids).toFinset : Set ℕ) := by
    intro v hv
    rw [Finset.mem_coe, List.mem_toFinset, List.mem_append, List.mem_range]
    exact reachable_mem hids hv
  refine ⟨(Finset.finite_toSet _).subset hsub, ?_⟩
  have hle := Set.ncard_le_ncard hsub
  rw [Set.ncard_coe_finset] at hle
  have hlen := List.toFinset_card_le (List.range numPoints ++ medoids)
  rw [List.length_append, List.length_range] at hlen
  exact hle.trans hlen

/-- `cache_bfs_levels` ends with the nodes of a breadth-first search, the same ones for every
size of the batches, if and only if there are no more medoids than it has to list. -/
theorem cacheBfsLevels_iff
    (hids : ∀ u, u < numPoints ∨ u ∈ medoids → ∀ v ∈ g.onDisk file u, v < numPoints)
    (hk : 1 ≤ k) :
    (∃ l, BfsNodes (g.onDisk file) medoids k l ∧ ∀ env fuel, numPoints + medoids.length < fuel →
        cacheBfsLevels g file medoids k env [] fuel = some l) ↔
      medoids.dedup.length ≤ k := by
  obtain ⟨hfin, hcard⟩ := finite_reachable hids
  obtain ⟨start, hfold, hnd, hmem, hlen⟩ := medoids_listed medoids
  have hzero : k ≠ 0 := Nat.one_le_iff_ne_zero.mp hk
  rw [← hlen]
  constructor
  · rintro ⟨l, hl, hrun⟩
    by_contra hmany
    -- the loop is left before the first level, with all of the medoids
    have hres := hrun ⟨none, none⟩ (numPoints + medoids.length + 1) (Nat.lt_succ_self _)
    have hstop : ¬ (start.length < k ∧ start ≠ []) := by
      rintro ⟨hlt, -⟩
      omega
    rw [cacheBfsLevels, if_neg hzero, hfold, levelLoop, if_neg hstop] at hres
    have hle : start.length = min k {v | Reachable (g.onDisk file) medoids v}.ncard := by
      rw [← hl.length_eq, ← Option.some.inj hres]
    have hmin := min_le_left k {v | Reachable (g.onDisk file) medoids v}.ncard
    omega
  · intro hle
    have hexp : Expanding (g.onDisk file) medoids 0 start [] := .zero hmem hnd
    have hstart : ∀ v, v ∈ start ↔ At (g.onDisk file) medoids 0 v := by
      intro v
      rw [hmem]
      refine ⟨fun hv => ⟨.start hv, fun m hm => absurd hm (Nat.not_lt_zero m)⟩, fun hat => ?_⟩
      cases hat.1 with
      | start hv => exact hv
    have hfound : Found (g.onDisk file) medoids k ⟨start, start, start⟩ :=
      Expanding.found hexp rfl hle
    have hmore : {v | Reachable (g.onDisk file) medoids v}.ncard <
        0 + ({v | Reachable (g.onDisk file) medoids v}.ncard + 1) := by omega
    obtain ⟨l, hl, hloop⟩ := levelLoop_spec hfin hmore hfound (Nat.zero_add start.length).le
      fun _ => ⟨hexp, hstart⟩
    refine ⟨l, hl, fun env fuel hfuel => ?_⟩
    rw [cacheBfsLevels, if_neg hzero, hfold]
    exact hloop env.batchSize fuel env.batchSize_pos (by omega)

end Cache

/-- From the last of three nodes, which all can be reached from it. -/
theorem threeRecords_bfsNodes :
    ∃ l, BfsNodes ((FixedGraphSource.source ⟨2⟩).onDisk threeRecords) [2] 2 l ∧
      ∀ env fuel, 3 + 1 < fuel →
        cacheBfsLevels (FixedGraphSource.source ⟨2⟩) threeRecords [2] 2 env [] fuel = some l := by
  refine (cacheBfsLevels_iff ?_ (by decide)).mpr (by decide)
  have hlists : ∀ u < 3, ∀ v ∈ (FixedGraphSource.source ⟨2⟩).onDisk threeRecords u, v < 3 := by
    decide
  rintro u (hu | hu)
  · exact hlists u hu
  · exact hlists u (List.mem_singleton.mp hu ▸ by decide)

/-- Two medoids where one node is asked for. -/
theorem threeRecords_not_bfsNodes :
    ¬ ∃ l, BfsNodes ((FixedGraphSource.source ⟨2⟩).onDisk threeRecords) [0, 2] 1 l ∧
      ∀ env fuel, 3 + 2 < fuel →
        cacheBfsLevels (FixedGraphSource.source ⟨2⟩) threeRecords [0, 2] 1 env [] fuel = some l := by
  rintro ⟨l, hl, hrun⟩
  have hlist : cacheBfsLevels (FixedGraphSource.source ⟨2⟩) threeRecords [0, 2] 1 ⟨none, none⟩ [] 6 =
      some [0, 2] := by decide
  rw [hrun ⟨none, none⟩ 6 (by decide)] at hlist
  obtain rfl := Option.some.inj hlist
  have hlen := hl.length_eq
  have hmin := min_le_left 1
    {v | Reachable ((FixedGraphSource.source ⟨2⟩).onDisk threeRecords) [0, 2] v}.ncard
  rw [← hlen] at hmin
  exact absurd hmin (by decide)

end HiDANN.Search
