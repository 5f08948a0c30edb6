import HiDANN.Library.FallibleFold
import HiDANN.Library.TopK
import HiDANN.Search.NodeList
import Mathlib.Algebra.Order.Ring.Nat
import Mathlib.Data.Prod.Lex

/-! The cache list generator. A breadth-first search from the start node is left as soon
as it has inserted as many nodes as are asked for, and what is missing when it ends is
filled up with the nodes of highest in-degree. The number of nodes is compared where a
neighbour has been inserted and at the end of a hop, but not after the start node itself,
so a list of one node comes out too long when the start node has another neighbour. -/

namespace HiDANN.Search

open FallibleFold

/-! ### The graph -/

/-- A graph whose lists name its own nodes, by ids of 32 bits. -/
structure NodeGraph where
  numNodes : ℕ
  neighbors : ℕ → List ℕ
  neighbors_lt : ∀ u < numNodes, ∀ v ∈ neighbors u, v < numNodes ∧ v < 2 ^ 32

/-- The order in which a `robin_set` hands out what has been inserted into it. -/
structure SetOrder where
  order : List ℕ → List ℕ
  perm : ∀ l, (order l).Perm l

inductive CacheMode where
  | hybrid
  | bfs
  deriving DecidableEq

/-! ### The search -/

/-- `bfs_selected`, in the order of insertion, and `next_frontier`. -/
structure BfsState where
  selected : List ℕ
  nextFrontier : List ℕ

/-- One neighbour. The jump to `bfs_done` is an error that carries the selected nodes. -/
def visitNeighbor (numNodesToCache : ℕ) (s : BfsState) (v : ℕ) : Except (List ℕ) BfsState :=
  if v ∈ s.selected then .ok s
  else
    let selected := s.selected ++ [v]
    if numNodesToCache ≤ selected.length then .error selected
    else .ok ⟨selected, s.nextFrontier ++ [v]⟩

def visitNode (g : NodeGraph) (numNodesToCache : ℕ) (s : BfsState) (u : ℕ) :
    Except (List ℕ) BfsState :=
  (g.neighbors u).foldlM (visitNeighbor numNodesToCache) s

/-- The hops that are left; the batches of a hop only group its reads. -/
def bfsLoop (g : NodeGraph) (numNodesToCache : ℕ) : ℕ → List ℕ → List ℕ → List ℕ
  | 0, _, selected => selected
  | h + 1, frontier, selected =>
    if frontier = [] then selected
    else match frontier.foldlM (visitNode g numNodesToCache) ⟨selected, []⟩ with
      | .error selected => selected
      | .ok s =>
        if numNodesToCache ≤ s.selected.length then s.selected
        else bfsLoop g numNodesToCache h s.nextFrontier s.selected

def bfsSelected (g : NodeGraph) (numNodesToCache limitHops startNode : ℕ) : List ℕ :=
  bfsLoop g numNodesToCache limitHops [startNode] [startNode]

/-! ### The in-degrees -/

/-- `in_degrees`, 32 bits wide; the nodes are read by their ids of 32 bits. -/
def inDegrees (g : NodeGraph) (v : ℕ) : ℕ :=
  (((List.range g.numNodes).flatMap fun i =>
    (g.neighbors (i % 2 ^ 32)).filter (· < g.numNodes)).count v) % 2 ^ 32

structure NodeIndegree where
  id : ℕ
  degree : ℕ
  deriving DecidableEq

/-- The order of the queue: its front is a node of least degree, and the one of largest id
among these. -/
def NodeIndegree.key (x : NodeIndegree) : ℕᵒᵈ ×ₗ ℕ := toLex (OrderDual.toDual x.degree, x.id)

/-- A `priority_queue` of `NodeIndegree` with `std::greater`. -/
abbrev IndegreeQueue := TopK.HeapOps NodeIndegree.key

def topUpStep (ops : IndegreeQueue) (g : NodeGraph) (needed : ℕ) (selected : List ℕ)
    (pq : List NodeIndegree) (i : ℕ) : List NodeIndegree :=
  if i % 2 ^ 32 ∈ selected then pq
  else
    let deg := inDegrees g i
    if pq.length < needed then ops.push pq ⟨i % 2 ^ 32, deg⟩
    else match pq with
      | [] => []
      | top :: rest =>
        if top.degree < deg then ops.push (ops.pop (top :: rest)) ⟨i % 2 ^ 32, deg⟩
        else top :: rest

def topUpQueue (ops : IndegreeQueue) (g : NodeGraph) (needed : ℕ) (selected : List ℕ) :
    List NodeIndegree :=
  (List.range g.numNodes).foldl (topUpStep ops g needed selected) []

/-- `top_k`, the highest degree first. -/
def topK (ops : IndegreeQueue) (g : NodeGraph) (needed : ℕ) (selected : List ℕ) : List ℕ :=
  let pq := topUpQueue ops g needed selected
  ((TopK.drain ops pq.length pq).map NodeIndegree.id).reverse

/-! ### The list -/

def cacheList (ops : IndegreeQueue) (iter : SetOrder) (g : NodeGraph) (mode : CacheMode)
    (numNodesToCache bfsHops startNode : ℕ) : List ℕ :=
  let limitHops := if mode = .bfs then 999999 else bfsHops
  let selected := bfsSelected g numNodesToCache limitHops startNode
  if mode = .bfs ∨ numNodesToCache ≤ selected.length then iter.order selected
  else
    let needed := if numNodesToCache ≤ selected.length then 0
      else numNodesToCache - selected.length % 2 ^ 32
    if 0 < needed then iter.order selected ++ topK ops g needed selected
    else iter.order selected

/-! ### What the search selects -/

/-- Nodes of the graph, none of them twice. -/
structure NodeGraph.Picks (g : NodeGraph) (ids : List ℕ) : Prop where
  nodup : ids.Nodup
  lt : ∀ u ∈ ids, u < g.numNodes ∧ u < 2 ^ 32

variable {g : NodeGraph} {k : ℕ}

theorem NodeGraph.Picks.singleton {u : ℕ} (hu : u < g.numNodes) (hu' : u < 2 ^ 32) :
    g.Picks [u] where
  nodup := List.nodup_singleton u
  lt v hv := by
    rw [List.mem_singleton.mp hv]
    exact ⟨hu, hu'⟩

theorem NodeGraph.Picks.append {l ids : List ℕ} (h : g.Picks l) (hids : g.Picks ids)
    (hout : ∀ u ∈ ids, u ∉ l) : g.Picks (l ++ ids) where
  nodup := List.nodup_append.mpr
    ⟨h.nodup, hids.nodup, fun _ hu v hv huv => hout v hv (huv ▸ hu)⟩
  lt u hu := (List.mem_append.mp hu).elim (h.lt u) (hids.lt u)

theorem NodeGraph.Picks.perm {l ids : List ℕ} (h : g.Picks l) (hperm : ids.Perm l) :
    g.Picks ids where
  nodup := hperm.nodup_iff.mpr h.nodup
  lt u hu := h.lt u (hperm.mem_iff.mp hu)

/-- While the search goes on there is room for one more node. -/
structure Searching (g : NodeGraph) (k : ℕ) (s : BfsState) : Prop where
  picks : g.Picks s.selected
  length_lt : s.selected.length < k
  next_subset : ∀ u ∈ s.nextFrontier, u ∈ s.selected

/-- Where the search is left by the jump, all is there that was asked for. -/
def Full (g : NodeGraph) (k : ℕ) (selected : List ℕ) : Prop :=
  g.Picks selected ∧ selected.length = k

theorem visitNeighbor_post {s : BfsState} {v : ℕ} (hs : Searching g k s) (hv : v < g.numNodes)
    (hv' : v < 2 ^ 32) : Post (Searching g k) (Full g k) (visitNeighbor k s v) := by
  rw [visitNeighbor]
  by_cases hmem : v ∈ s.selected
  · rw [if_pos hmem]
    exact hs
  · have hpicks : g.Picks (s.selected ++ [v]) :=
      hs.picks.append (.singleton hv hv') fun u hu => by rwa [List.mem_singleton.mp hu]
    have hlen : (s.selected ++ [v]).length = s.selected.length + 1 := List.length_append
    have hlt := hs.length_lt
    rw [if_neg hmem]
    dsimp only
    by_cases hfull : k ≤ (s.selected ++ [v]).length
    · rw [if_pos hfull]
      exact ⟨hpicks, by omega⟩
    · rw [if_neg hfull]
      apply Searching.mk hpicks (Nat.not_le.mp hfull)
      intro u hu
      rcases List.mem_append.mp hu with hu | hu
      · exact List.mem_append_left _ (hs.next_subset u hu)
      · exact List.mem_append_right _ hu

theorem visitNode_post {s : BfsState} {u : ℕ} (hs : Searching g k s) (hu : u < g.numNodes) :
    Post (Searching g k) (Full g k) (visitNode g k s u) :=
  foldlM_post (fun v hv _ ht =>
    visitNeighbor_post ht (g.neighbors_lt u hu v hv).1 (g.neighbors_lt u hu v hv).2) hs

theorem bfsLoop_picks {h : ℕ} {frontier selected : List ℕ} (hpicks : g.Picks selected)
    (hlen : selected.length < k) (hfrontier : ∀ u ∈ frontier, u ∈ selected) :
    g.Picks (bfsLoop g k h frontier selected) ∧ (bfsLoop g k h frontier selected).length ≤ k := by
  induction h generalizing frontier selected with
  | zero => exact ⟨hpicks, hlen.le⟩
  | succ h ih =>
    have hhop : Post (Searching g k) (Full g k)
        (frontier.foldlM (visitNode g k) ⟨selected, []⟩) := by
      apply foldlM_post
      · intro u hu s hs
        exact visitNode_post hs (hpicks.lt u (hfrontier u hu)).1
      · exact ⟨hpicks, hlen, by simp⟩
    rw [bfsLoop]
    by_cases hempty : frontier = []
    · rw [if_pos hempty]
      exact ⟨hpicks, hlen.le⟩
    · rw [if_neg hempty]
      cases hs : frontier.foldlM (visitNode g k) ⟨selected, []⟩ with
      | error left =>
        rw [hs] at hhop
        exact ⟨hhop.1, hhop.2.le⟩
      | ok s =>
        rw [hs] at hhop
        dsimp only
        rw [if_neg (Nat.not_le.mpr hhop.length_lt)]
        exact ih hhop.picks hhop.length_lt hhop.next_subset

/-- A search for two nodes or more ends with room left, or with exactly what was asked for. -/
theorem bfsSelected_picks {start hops : ℕ} (hk : 2 ≤ k) (hs : start < g.numNodes)
    (hs' : start < 2 ^ 32) :
    g.Picks (bfsSelected g k hops start) ∧ (bfsSelected g k hops start).length ≤ k :=
  bfsLoop_picks (.singleton hs hs') hk fun _ hu => hu

/-! ### A list of one node -/

variable {start : ℕ} {ns : List ℕ}

theorem visitNeighbors_self (hall : ∀ v ∈ ns, v = start) :
    ns.foldlM (visitNeighbor 1) ⟨[start], []⟩ = .ok ⟨[start], []⟩ := by
  induction ns with
  | nil => rfl
  | cons v ns ih =>
    have hv : visitNeighbor 1 ⟨[start], []⟩ v = .ok ⟨[start], []⟩ := by
      rw [visitNeighbor, hall v List.mem_cons_self, if_pos List.mem_cons_self]
    rw [List.foldlM_cons, hv]
    exact ih fun u hu => hall u (List.mem_cons_of_mem _ hu)

/-- The first neighbour that is not the start node makes a second one. -/
theorem visitNeighbors_other (hother : ∃ v ∈ ns, v ≠ start) :
    ∃ v, ns.foldlM (visitNeighbor 1) ⟨[start], []⟩ = .error [start, v] := by
  induction ns with
  | nil => simp at hother
  | cons u ns ih =>
    rw [List.foldlM_cons, visitNeighbor]
    by_cases hu : u = start
    · have hns : ∃ v ∈ ns, v ≠ start := by
        obtain ⟨v, hv, hne⟩ := hother
        rcases List.mem_cons.mp hv with rfl | hv
        · exact absurd hu hne
        · exact ⟨v, hv, hne⟩
      rw [hu, if_pos List.mem_cons_self]
      exact ih hns
    · rw [if_neg (by simpa using hu)]
      exact ⟨u, rfl⟩

theorem bfsSelected_one_self {hops : ℕ} (h : hops = 0 ∨ ∀ v ∈ g.neighbors start, v = start) :
    bfsSelected g 1 hops start = [start] := by
  cases hops with
  | zero => rfl
  | succ hops =>
    have hall := h.resolve_left (Nat.succ_ne_zero hops)
    rw [bfsSelected, bfsLoop, if_neg (by simp), List.foldlM_cons, visitNode,
      visitNeighbors_self hall]
    rfl

theorem bfsSelected_one_other {hops : ℕ} (hhops : hops ≠ 0)
    (hother : ∃ v ∈ g.neighbors start, v ≠ start) : (bfsSelected g 1 hops start).length = 2 := by
  obtain ⟨v, hv⟩ := visitNeighbors_other hother
  obtain ⟨hops, rfl⟩ := Nat.exists_eq_succ_of_ne_zero hhops
  rw [bfsSelected, bfsLoop, if_neg (by simp), List.foldlM_cons, visitNode, hv]
  rfl

/-! ### Filling up -/

/-- What the scan compares of two nodes. -/
def NodeIndegree.degreeKey (x : NodeIndegree) : ℕᵒᵈ := OrderDual.toDual x.degree

theorem degreeKey_le_of_key_le (a b : NodeIndegree) (h : a.key ≤ b.key) :
    a.degreeKey ≤ b.degreeKey :=
  (Prod.Lex.le_iff'.mp h).1

/-- The queue as a heap of the degrees only. -/
def IndegreeQueue.byDegree (ops : IndegreeQueue) : TopK.HeapOps NodeIndegree.degreeKey :=
  ops.coarsen degreeKey_le_of_key_le

variable (ops : IndegreeQueue) {selected : List ℕ}

def scanned (g : NodeGraph) (i : ℕ) : NodeIndegree := ⟨i % 2 ^ 32, inDegrees g i⟩

def offered (g : NodeGraph) (selected is : List ℕ) : List NodeIndegree :=
  (is.filter (· % 2 ^ 32 ∉ selected)).map (scanned g)

theorem foldl_topUpStep (needed : ℕ) (is : List ℕ) (pq : List NodeIndegree) :
    is.foldl (topUpStep ops g needed selected) pq =
      (offered g selected is).foldl (TopK.step ops.byDegree needed) pq := by
  have hstep : topUpStep ops g needed selected = fun pq i =>
      if decide (i % 2 ^ 32 ∉ selected) = true then
        TopK.step ops.byDegree needed pq (scanned g i) else pq := by
    funext pq i
    rw [topUpStep]
    by_cases hi : i % 2 ^ 32 ∈ selected
    · rw [if_pos hi, if_neg (by simpa using hi)]
    · rw [if_neg hi, if_pos (decide_eq_true hi)]
      cases pq with
      | nil => rfl
      | cons top rest => exact if_congr Iff.rfl rfl (if_congr Iff.rfl rfl rfl)
  rw [hstep, offered, List.foldl_map, List.foldl_filter]

/-- No list names a node beyond the ids of 32 bits. -/
theorem inDegrees_eq_zero {i : ℕ} (hi : 2 ^ 32 ≤ i) : inDegrees g i = 0 := by
  rw [inDegrees, List.count_eq_zero.mpr, Nat.zero_mod]
  intro hmem
  obtain ⟨u, hu, hmem⟩ := List.mem_flatMap.mp hmem
  have hu : u % 2 ^ 32 < g.numNodes := (Nat.mod_le _ _).trans_lt (List.mem_range.mp hu)
  have := (g.neighbors_lt _ hu i (List.mem_filter.mp hmem).1).2
  omega

theorem map_id_offered {m : ℕ} (hm : m ≤ 2 ^ 32) :
    (offered g selected (List.range m)).map NodeIndegree.id =
      (List.range m).filter (· ∉ selected) := by
  have hfilter : (List.range m).filter (· % 2 ^ 32 ∉ selected) =
      (List.range m).filter (· ∉ selected) := by
    apply List.filter_congr
    intro i hi
    rw [Nat.mod_eq_of_lt ((List.mem_range.mp hi).trans_le hm)]
  have hid : ∀ i ∈ (List.range m).filter (· ∉ selected), (NodeIndegree.id ∘ scanned g) i = id i := by
    intro i hi
    exact Nat.mod_eq_of_lt ((List.mem_range.mp (List.mem_filter.mp hi).1).trans_le hm)
  rw [offered, List.map_map, hfilter, List.map_congr_left hid, List.map_id]

theorem le_length_filter_add (selected : List ℕ) (m : ℕ) :
    m ≤ ((List.range m).filter (· ∉ selected)).length + selected.length := by
  have hin : ((List.range m).filter (· ∈ selected)).length ≤ selected.length := by
    apply List.Subperm.length_le
    apply List.subperm_of_subset (List.nodup_range.filter _)
    intro i hi
    simpa using (List.mem_filter.mp hi).2
  have hsum := (List.range m).length_eq_length_filter_add (· ∈ selected)
  rw [List.length_range] at hsum
  simp only [← decide_not] at hsum
  omega

/-- The nodes whose ids fit 32 bits. -/
def narrowNodes (g : NodeGraph) : ℕ := min g.numNodes (2 ^ 32)

theorem map_id_offered_narrow (g : NodeGraph) (selected : List ℕ) :
    (offered g selected (List.range (narrowNodes g))).map NodeIndegree.id =
      (List.range (narrowNodes g)).filter (· ∉ selected) :=
  map_id_offered (Nat.min_le_right g.numNodes (2 ^ 32))

theorem length_offered {needed : ℕ} (hneeded : selected.length + needed ≤ narrowNodes g) :
    needed ≤ (offered g selected (List.range (narrowNodes g))).length := by
  have hcount := le_length_filter_add selected (narrowNodes g)
  rw [← map_id_offered_narrow, List.length_map] at hcount
  omega

/-- Past the ids of 32 bits the queue is full, and the degrees are zero. -/
theorem topUpQueue_eq {needed : ℕ} (hneeded : selected.length + needed ≤ narrowNodes g) :
    topUpQueue ops g needed selected =
      TopK.select ops.byDegree needed (offered g selected (List.range (narrowNodes g))) := by
  have hsplit : List.range g.numNodes = List.range (narrowNodes g) ++
      (List.range (g.numNodes - narrowNodes g)).map (narrowNodes g + ·) := by
    rw [← List.range_add, narrowNodes, Nat.add_sub_cancel' (Nat.min_le_left _ _)]
  have hfull := (TopK.select_selected ops.byDegree needed
    (offered g selected (List.range (narrowNodes g)))).length_eq
  rw [min_eq_left (length_offered hneeded)] at hfull
  rw [topUpQueue, hsplit, List.foldl_append, foldl_topUpStep, foldl_topUpStep]
  apply TopK.foldl_step_full hfull.ge
  intro a _ r hr
  obtain ⟨i, hi, rfl⟩ := List.mem_map.mp hr
  obtain ⟨j, hj, rfl⟩ := List.mem_map.mp (List.mem_filter.mp hi).1
  have hwide : 2 ^ 32 ≤ narrowNodes g + j := by
    have := List.mem_range.mp hj
    rw [narrowNodes] at this ⊢
    omega
  rw [NodeIndegree.degreeKey, NodeIndegree.degreeKey, OrderDual.toDual_le_toDual, scanned,
    inDegrees_eq_zero hwide]
  exact Nat.zero_le _

/-- The scan ends with as many nodes as are needed, none of them selected. -/
theorem topK_picks {needed : ℕ} (hneeded : selected.length + needed ≤ narrowNodes g) :
    (topK ops g needed selected).length = needed ∧ g.Picks (topK ops g needed selected) ∧
      ∀ u ∈ topK ops g needed selected, u ∉ selected := by
  have hselected := TopK.select_selected ops.byDegree needed
    (offered g selected (List.range (narrowNodes g)))
  obtain ⟨rest, hrest, -⟩ := hselected.exists_rest
  have hlen := hselected.length_eq
  rw [← topUpQueue_eq ops hneeded] at hselected hlen hrest
  rw [min_eq_left (length_offered hneeded)] at hlen
  have hheap : ops.IsHeap (topUpQueue ops g needed selected) := hselected.isHeap
  have hperm : (topK ops g needed selected).Perm
      ((topUpQueue ops g needed selected).map NodeIndegree.id) :=
    (List.reverse_perm _).trans ((TopK.drain_perm rfl hheap).map _)
  have hids := hrest.map NodeIndegree.id
  rw [List.map_append, map_id_offered_narrow] at hids
  have hmem : ∀ u ∈ topK ops g needed selected, u < narrowNodes g ∧ u ∉ selected := by
    intro u hu
    have := hids.mem_iff.mp (List.mem_append_left _ (hperm.mem_iff.mp hu))
    simpa using this
  constructor
  · rw [hperm.length_eq, List.length_map, hlen]
  · constructor
    · constructor
      · rw [hperm.nodup_iff]
        exact (List.nodup_append.mp (hids.nodup_iff.mpr (List.nodup_range.filter _))).1
      · intro u hu
        exact lt_min_iff.mp (hmem u hu).1
    · intro u hu
      exact (hmem u hu).2

/-! ### The saved list -/

variable (iter : SetOrder) {hops : ℕ}

theorem cacheList_picks (hk : k < 2 ^ 32) (hnodes : k ≤ g.numNodes)
    (hpicks : g.Picks (bfsSelected g k hops start))
    (hlen : (bfsSelected g k hops start).length ≤ k) :
    (cacheList ops iter g .hybrid k hops start).length = k ∧
      g.Picks (cacheList ops iter g .hybrid k hops start) := by
  have hperm := iter.perm (bfsSelected g k hops start)
  have hnarrow : k ≤ narrowNodes g := le_min hnodes hk.le
  have hmode : ¬ CacheMode.hybrid = CacheMode.bfs := by decide
  rw [cacheList, if_neg hmode]
  dsimp only
  by_cases hfull : k ≤ (bfsSelected g k hops start).length
  · rw [if_pos (.inr hfull)]
    exact ⟨hperm.length_eq.trans (le_antisymm hlen hfull), hpicks.perm hperm⟩
  · have hlt := Nat.not_le.mp hfull
    rw [if_neg (by simp [hfull, hmode]), if_neg hfull, Nat.mod_eq_of_lt (hlt.trans hk),
      if_pos (Nat.sub_pos_of_lt hlt)]
    have hneeded : (bfsSelected g k hops start).length +
        (k - (bfsSelected g k hops start).length) ≤ narrowNodes g := by omega
    obtain ⟨htop, hpicked, hout⟩ := topK_picks ops hneeded
    constructor
    · rw [List.length_append, hperm.length_eq, htop]
      omega
    · apply (hpicks.perm hperm).append hpicked
      intro u hu
      rw [hperm.mem_iff]
      exact hout u hu

theorem cacheList_one_other (hhops : hops ≠ 0) (hother : ∃ v ∈ g.neighbors start, v ≠ start) :
    (cacheList ops iter g .hybrid 1 hops start).length = 2 := by
  have hlen := bfsSelected_one_other (g := g) hhops hother
  have hmode : ¬ CacheMode.hybrid = CacheMode.bfs := by decide
  rw [cacheList, if_neg hmode]
  dsimp only
  rw [if_pos (.inr (by omega)), (iter.perm _).length_eq, hlen]

/-- A file with exactly `k` nodes of the graph, read back as it was written. -/
structure WrittenExactly (g : NodeGraph) (ids : List ℕ) (k : ℕ) : Prop where
  length_eq : ids.length = k
  nodup : ids.Nodup
  lt_numNodes : ∀ u ∈ ids, u < g.numNodes
  read_back : readNodeListFromTxt (some (saveNodeList ids)) k = .ok ids

/-- The generator writes exactly the nodes that were asked for, and they are read back
unchanged, unless the start node is asked for alone and has a neighbour to go to. -/
theorem cache_list_exact_iff (hk : 1 ≤ k) (hnodes : k ≤ g.numNodes) (hwide : k < 2 ^ 32)
    (hstart : start < g.numNodes) (hstart' : start < 2 ^ 32) :
    WrittenExactly g (cacheList ops iter g .hybrid k hops start) k ↔
      2 ≤ k ∨ hops = 0 ∨ ∀ v ∈ g.neighbors start, v = start := by
  constructor
  · intro hwritten
    by_contra hcond
    obtain ⟨hk2, hhops, hother⟩ : ¬ 2 ≤ k ∧ hops ≠ 0 ∧ ∃ v ∈ g.neighbors start, v ≠ start := by
      simpa using hcond
    obtain rfl : k = 1 := by omega
    have htwo := cacheList_one_other ops iter hhops hother
    have hone := hwritten.length_eq
    omega
  · intro hcond
    have hsel : g.Picks (bfsSelected g k hops start) ∧ (bfsSelected g k hops start).length ≤ k := by
      rcases Nat.lt_or_ge k 2 with hk2 | hk2
      · obtain rfl : k = 1 := by omega
        rw [bfsSelected_one_self (hcond.resolve_left (by omega))]
        exact ⟨.singleton hstart hstart', le_rfl⟩
      · exact bfsSelected_picks hk2 hstart hstart'
    obtain ⟨hlen, hpicks⟩ := cacheList_picks ops iter hwide hnodes hsel.1 hsel.2
    have hread := read_saved fun u hu => (hpicks.lt u hu).2
    rw [hlen] at hread
    exact ⟨hlen, hpicks.nodup, fun u hu => (hpicks.lt u hu).1, hread⟩

/-- Three nodes; the other two point to the last one. -/
def threeNodes : NodeGraph where
  numNodes := 3
  neighbors u := if u = 2 then [0] else [2]
  neighbors_lt := by decide

/-- A set that hands out what was inserted in the order of insertion. -/
def insertionOrder : SetOrder := ⟨id, List.Perm.refl⟩

def indegreeQueue : IndegreeQueue := TopK.decreasingHeap NodeIndegree.key

/-- The start node, and the node of highest in-degree. -/
example : cacheList indegreeQueue insertionOrder threeNodes .hybrid 2 0 0 = [0, 2] := by decide

theorem start_and_hub_written :
    WrittenExactly threeNodes (cacheList indegreeQueue insertionOrder threeNodes .hybrid 2 0 0) 2 :=
  (cache_list_exact_iff indegreeQueue insertionOrder (by decide) (by decide) (by decide) (by decide)
    (by decide)).mpr (.inl le_rfl)

/-- Of a list of one node that was asked for, two are written. -/
theorem two_written_for_one :
    cacheList indegreeQueue insertionOrder threeNodes .hybrid 1 1 0 = [0, 2] ∧
      ¬ WrittenExactly threeNodes
        (cacheList indegreeQueue insertionOrder threeNodes .hybrid 1 1 0) 1 := by
  have hlist : cacheList indegreeQueue insertionOrder threeNodes .hybrid 1 1 0 = [0, 2] := by
    decide
  constructor
  · exact hlist
  · intro hwritten
    have hlen := hwritten.length_eq
    rw [hlist] at hlen
    exact absurd hlen (by decide)

end HiDANN.Search
