import HiDANN.Memory.Link
import HiDANN.Pruning.FirstPass
import HiDANN.Pruning.GraphFiles
import HiDANN.Pruning.Validity
import HiDANN.Reverse.Exact

/-! The build from the linked indexes of the partitions to the final graph, as the driver
starts its programs: candidate files from the partitions, a first pruning, the reversed edges,
and a final pruning with the flags and the quantizer of the first. Threads, memory and batches
may differ from run to run in every program. -/

namespace HiDANN.Build

open Construction Format Memory Pruning Reverse Scatter Relation

/-! ### Partitions -/

/-- The partitions of `N` points, with their indexes after `link`. -/
structure Subindexes (ν K : Type*) [Field K] [LinearOrder K] where
  N : ℕ
  D : ℕ
  P : ℕ
  N_lt : N < 2 ^ 32
  P_pos : 0 < P
  P_le : P ≤ N
  vec : ℕ → ℕ → ν
  args : ℕ → LinkArgs K
  state : ℕ → LinkState K
  valid : ∀ t < P, (args t).Valid
  nd_eq : ∀ t < P, (args t).nd = partSize N P t
  frozen_eq : ∀ t < P, (args t).numFrozenPts = 0
  run : ∀ t < P, ReflTransGen (args t).Step LinkArgs.start (state t)
  done : ∀ t < P, (args t).Done (state t)

namespace Subindexes

variable {ν K : Type*} [Field K] [LinearOrder K] (S : Subindexes ν K)

def adj (t : ℕ) : List (List ℕ) := (List.range (S.args t).nd).map (S.state t).graph

variable {S} {t : ℕ} (ht : t < S.P)

include ht

theorem mem_visitOrder {v : ℕ} : v ∈ (S.args t).visitOrder ↔ v < partSize S.N S.P t := by
  rw [LinkArgs.visitOrder, LinkArgs.frozen, S.frozen_eq t ht, List.range'_zero, List.append_nil,
    List.mem_range, S.nd_eq t ht]

variable [IsStrictOrderedRing K] [Archimedean K]

/-- No list repeats a neighbour, and all are points of the partition. -/
theorem adj_spec : ∀ nb ∈ S.adj t, nb.Nodup ∧ ∀ v ∈ nb, v < partSize S.N S.P t := by
  intro nb hnb
  obtain ⟨v, -, rfl⟩ := List.mem_map.mp hnb
  have h := (LinkArgs.LinkInv.run (S.valid t ht) (S.run t ht)).links v
  exact ⟨h.nodup, fun w hw => (mem_visitOrder ht).mp (h.nodes w hw)⟩

end Subindexes

/-- What pair processing loads. -/
def Subindexes.toPartitions {ν K : Type*} [Field K] [LinearOrder K] [IsStrictOrderedRing K]
    [Archimedean K] (S : Subindexes ν K) : Partitions ν where
  N := S.N
  D := S.D
  P := S.P
  N_lt := S.N_lt
  P_pos := S.P_pos
  P_le := S.P_le
  adj := S.adj
  start t := (S.args t).entry
  vec := S.vec
  adj_length t ht := by rw [Subindexes.adj, List.length_map, List.length_range, S.nd_eq t ht]
  adj_lt t ht nb hnb := (Subindexes.adj_spec ht nb hnb).2
  start_lt t ht := (Subindexes.mem_visitOrder ht).mp (S.valid t ht).entry_mem

/-! ### The driver -/

variable {ν δ ν' δ' ε : Type*} [LinearOrder δ] [Zero δ] [One δ] [Mul δ] [Div δ] [LinearOrder δ']
  [LinearOrder ε]

/-- The flags of both prunings: `--R`, and `--T` as it is by default. -/
def pruningArgs (R : ℕ) (hR : R < 2 ^ 32) : Pruning.Args := ⟨R, 1, hR, Bytes.one_lt_word⟩

/-- The programs after the partitions have been built, each of them to its end. -/
def Run (J : Job ν δ) (file : Option PairsFile) (pq : PQSymL2 ν' δ' ε) (a : Pruning.Args)
    (final : List UInt8) : Prop :=
  ∃ fs out, Executed J file fs out ∧
  ∃ b sched graph,
    ourPruning pq.dist J.parts.N a b sched (out.cand .idx) (out.cand .ids) = .ok graph ∧
  ∃ m idx ids, reverseEdges m graph = .ok (idx, ids) ∧
  ∃ b' sched', ourPruning pq.dist J.parts.N a b' sched' idx ids = .ok final

/-! ### The graph of the first pruning -/

/-- A list that is pruned from distinct candidates, or with `T = 1`, is valid. -/
theorem validAdjacency_of_nodup (pq : PQSymL2 ν' δ' ε) (a : Pruning.Args) {N g : ℕ}
    (hg : g < 2 ^ 32) {cand : List ℕ} (h : cand.Nodup ∨ a.T ≤ 1) :
    ValidAdjacency N a.R g cand (prune pq.dist N a g cand) := by
  rw [validAdjacency_iff_nodup pq.dist hg]
  rcases h with hnd | hT
  · have hsub : (taken pq.dist N a g cand).Sublist (nearest pq.dist g (valid N g cand)) := by
      obtain ⟨l, hl, he⟩ := Selection.exists_sublist a.R (Unoccluded pq.dist a g) []
        (nearest pq.dist g (valid N g cand))
      rw [taken, he, List.nil_append]
      exact hl
    exact ((nearest_perm pq.dist g _).nodup_iff.mpr (hnd.filter _)).sublist hsub
  · rw [nodup_taken_iff pq.dist pq.dist_self_le]
    exact repeatsBlocked_of_T_le pq.dist N hT g cand

/-- Of counts that are at most one, and zero at `v`, one is missing. -/
theorem offset_lt {f : ℕ → ℕ} {v n : ℕ} (hle : ∀ u, f u ≤ 1) (hv : f v = 0) (hn : v < n) :
    offset f n < n := by
  induction n with
  | zero => exact absurd hn (Nat.not_lt_zero v)
  | succ n ih =>
    rw [offset]
    rcases Nat.lt_or_ge v n with hlt | hge
    · have := ih hlt
      have := hle n
      omega
    · obtain rfl : v = n := by omega
      have hall : ∀ m, offset f m ≤ m := by
        intro m
        induction m with
        | zero => exact le_rfl
        | succ m ihm =>
          have := hle m
          rw [offset]
          omega
      have := hall v
      omega

structure FirstGraph (J : Job ν δ) (file : Option PairsFile) (pq : PQSymL2 ν' δ' ε)
    (a : Pruning.Args) (G : DirectedGraph) : Prop where
  N_eq : G.N = J.parts.N
  nbr : ∀ t < J.P, ∀ li < J.parts.size t, G.nbr (J.parts.first t + li) =
    prune pq.dist J.parts.N a (J.parts.first t + li) (candidates J file t li)

theorem FirstGraph.adj_eq {J : Job ν δ} {file : Option PairsFile} {pq : PQSymL2 ν' δ' ε}
    {a : Pruning.Args} {G G' : DirectedGraph} (h : FirstGraph J file pq a G)
    (h' : FirstGraph J file pq a G') : G.adj = G'.adj := by
  have hN : G.adj.length = G'.adj.length := h.N_eq.trans h'.N_eq.symm
  refine List.ext_getElem hN fun v hv hv' => ?_
  obtain ⟨t, ht, li, hli, rfl⟩ := J.parts.exists_node (h.N_eq ▸ hv : v < J.parts.N)
  have he := (h.nbr t ht li hli).trans (h'.nbr t ht li hli).symm
  rw [DirectedGraph.nbr, DirectedGraph.nbr, List.getD_eq_getElem _ _ hv,
    List.getD_eq_getElem _ _ hv'] at he
  exact he

section First

variable {J : Job ν δ} {file : Option PairsFile} {pq : PQSymL2 ν' δ' ε} {a : Pruning.Args}
  {G : DirectedGraph} (hnd : ∀ t < J.P, ∀ nb ∈ J.parts.adj t, nb.Nodup)
  (hG : FirstGraph J file pq a G)

include hnd hG

theorem FirstGraph.valid {v : ℕ} (hv : v < G.N) :
    (G.nbr v).Nodup ∧ v ∉ G.nbr v ∧ (G.nbr v).length ≤ a.R := by
  obtain ⟨t, ht, li, hli, rfl⟩ := J.parts.exists_node (hG.N_eq ▸ hv)
  have hlt : J.parts.first t + li < 2 ^ 32 := (hG.N_eq ▸ hv).trans J.parts.N_lt
  have hvalid := validAdjacency_of_nodup pq a (N := J.parts.N) hlt
    (.inl (properRow_candidates ht hli (hnd t ht) file).nodup)
  rw [hG.nbr t ht li hli]
  exact ⟨hvalid.nodup, hvalid.not_self, length_prune_le pq.dist a hlt _⟩

/-- Its symmetric rows fit the counters. -/
theorem FirstGraph.countable (hR : J.parts.N + a.R ≤ 2 ^ 32) : G.Countable := by
  refine ⟨hG.N_eq ▸ J.parts.N_lt.le, fun v hv => ?_⟩
  have hself : (G.nbr v).count v = 0 :=
    List.count_eq_zero_of_not_mem (hG.valid hnd hv).2.1
  have hone : ∀ u, (G.nbr u).count v ≤ 1 := by
    intro u
    by_cases hu : u < G.N
    · exact List.nodup_iff_count_le_one.mp (hG.valid hnd hu).1 v
    · rw [DirectedGraph.nbr, List.getD_eq_default _ _ (not_lt.mp hu)]
      exact Nat.zero_le _
  have hin := offset_lt hone hself hv
  have hout := (hG.valid hnd hv).2.2
  have := hG.N_eq
  omega

end First

/-! ### The final graph -/

/-- The list of `v` in the final graph: as many distinct nodes as `R` leaves room for, each
joined to `v` by an edge of the first graph, and all of them when they are at most `R`. -/
structure FinalList (G : DirectedGraph) (R v : ℕ) (out : List ℕ) : Prop where
  nodup : out.Nodup
  not_self : v ∉ out
  lt : ∀ w ∈ out, w < G.N
  length_le : out.length ≤ R
  edge : ∀ w ∈ out, w ∈ G.nbr v ∨ v ∈ G.nbr w
  all : out.length < R → ∀ w < G.N, w ≠ v → w ∈ G.nbr v ∨ v ∈ G.nbr w → w ∈ out

theorem mem_row_iff (G : DirectedGraph) {v w : ℕ} (hv : v < G.N) (hw : w < G.N) :
    w ∈ G.row v ↔ w ∈ G.nbr v ∨ v ∈ G.nbr w := by
  rw [← List.count_pos_iff, G.count_row hw hv, DirectedGraph.multiplicity,
    DirectedGraph.multiplicity, ← List.count_pos_iff, ← List.count_pos_iff]
  omega

/-- Pruning the symmetric row gives such a list. -/
theorem finalList_prune (pq : PQSymL2 ν' δ' ε) {a : Pruning.Args} (ha : a.T ≤ 1)
    (G : DirectedGraph) (hN : G.N < 2 ^ 32) {v : ℕ} (hv : v < G.N) :
    FinalList G a.R v (prune pq.dist G.N a v (G.row v)) := by
  have hvalid : ValidAdjacency G.N a.R v (G.row v) _ :=
    validAdjacency_of_nodup pq a (hv.trans hN) (.inr ha)
  have hsub : ∀ w ∈ prune pq.dist G.N a v (G.row v), w ∈ valid G.N v (G.row v) :=
    fun w hw => mem_prune pq.dist (hv.trans hN) hw
  constructor
  case nodup => exact hvalid.nodup
  case not_self => exact hvalid.not_self
  case lt => exact hvalid.lt
  case length_le => exact hvalid.length.trans_le (min_le_left _ _)
  case edge =>
    intro w hw
    exact (mem_row_iff G hv (hvalid.lt w hw)).mp (List.mem_of_mem_filter (hsub w hw))
  case all =>
    intro hroom w hw hne hedge
    have hcard : (prune pq.dist G.N a v (G.row v)).toFinset = (valid G.N v (G.row v)).toFinset := by
      refine Finset.eq_of_subset_of_card_le (fun u hu => ?_) ?_
      · exact List.mem_toFinset.mpr (hsub u (List.mem_toFinset.mp hu))
      · have := hvalid.length
        rw [List.toFinset_card_of_nodup hvalid.nodup]
        omega
    have hmem : w ∈ (valid G.N v (G.row v)).toFinset := by
      rw [List.mem_toFinset, valid, List.mem_filter, decide_eq_true_eq]
      exact ⟨(mem_row_iff G hv hw).mpr hedge, hw, hne⟩
    exact List.mem_toFinset.mp (hcard ▸ hmem)

def finalAdj (pq : PQSymL2 ν' δ' ε) (a : Pruning.Args) (G : DirectedGraph) : List (List ℕ) :=
  adjacency pq.dist G.N a G.row

section Run

variable {J : Job ν δ} {file : Option PairsFile} {pq : PQSymL2 ν' δ' ε} {a : Pruning.Args}

theorem exists_firstGraph {fs out : Files} (h : Executed J file fs out) :
    ∃ G, FirstGraph J file pq a G ∧ ∀ b sched graph,
      ourPruning pq.dist J.parts.N a b sched (out.cand .idx) (out.cand .ids) = .ok graph →
        graph = memIndex G.adj 0 0 := by
  obtain ⟨row, hf, hidx, hids⟩ := h.pair
  have hlen : (adjacency pq.dist J.parts.N a row).length = J.parts.N := by
    rw [adjacency, List.length_map, List.length_range]
  have hdeg : ∀ nb ∈ adjacency pq.dist J.parts.N a row, nb.length < 2 ^ 32 := by
    intro nb hnb
    obtain ⟨g, hg, rfl⟩ := List.mem_map.mp hnb
    exact (length_prune_le pq.dist a ((List.mem_range.mp hg).trans J.parts.N_lt) _).trans_lt a.R_lt
  have hid : ∀ nb ∈ adjacency pq.dist J.parts.N a row, ∀ v ∈ nb,
      v < (adjacency pq.dist J.parts.N a row).length := by
    intro nb hnb v hv
    obtain ⟨g, hg, rfl⟩ := List.mem_map.mp hnb
    have := mem_prune pq.dist ((List.mem_range.mp hg).trans J.parts.N_lt) hv
    rw [valid, List.mem_filter, decide_eq_true_eq] at this
    rw [hlen]
    exact this.2.1
  refine ⟨⟨adjacency pq.dist J.parts.N a row, hdeg, hid⟩, ⟨hlen, fun t ht li hli => ?_⟩, ?_⟩
  · have hlt : J.parts.first t + li < J.parts.N := by
      have := J.parts.globalId_lt ht hli
      rwa [J.parts.globalId_eq ht hli] at this
    have hperm := h.yields t ht li hli
    rw [hidx, hids, candRow_eq hf hlt] at hperm
    rw [DirectedGraph.nbr, List.getD_eq_getElem _ _ (by rw [hlen]; exact hlt)]
    simp only [adjacency, List.getElem_map, List.getElem_range, pruned]
    exact prune_perm pq.dist a (hlt.trans J.parts.N_lt) hperm
  · intro b sched graph hgraph
    rw [hidx, hids] at hgraph
    exact (graphFile_of_ok hf J.parts.N_lt hgraph).eq

variable (hnd : ∀ t < J.P, ∀ nb ∈ J.parts.adj t, nb.Nodup) (hR : J.parts.N + a.R ≤ 2 ^ 32)

include hnd hR

/-- A run writes the final lists of the first graph, for every reader. -/
theorem Run.spec {final : List UInt8} (h : Run J file pq a final) :
    ∃ G, FirstGraph J file pq a G ∧ final = memIndex (finalAdj pq a G) 0 0 ∧
      ReadAlike (finalAdj pq a G) 0 0 final := by
  obtain ⟨fs, out, hexec, b, sched, graph, hgraph, m, idx, ids, hrev, b', sched', hfinal⟩ := h
  obtain ⟨G, hG, hwritten⟩ : ∃ G, FirstGraph J file pq a G ∧ _ := exists_firstGraph hexec
  rw [hwritten b sched graph hgraph, memIndex] at hrev
  obtain ⟨rfl, rfl, hf⟩ := reverseEdges_ok (hG.countable hnd hR) (length_memIndexHdr _ _ _ _) hrev
  have hN : G.N < 2 ^ 32 := hG.N_eq ▸ J.parts.N_lt
  rw [← hG.N_eq] at hfinal
  exact ⟨G, hG, (graphFile_of_ok hf hN hfinal).eq, readAlike_pruning pq.dist a hf hN hfinal⟩

/-- With memory for a stripe and for a batch every program ends. -/
theorem exists_run {fs out : Files} (hexec : Executed J file fs out) {b : Budget}
    (hb : b.effectiveBatchBudget ≠ 0) {m : Memory}
    (hm : ∀ G, FirstGraph J file pq a G →
      32 + rowStart G.row G.N * 4 < 2 ^ 63 ∧ ¬ Insufficient G m) :
    ∃ final, Run J file pq a final := by
  let sched : Schedule := ⟨fun _ k => List.range k, fun _ _ => List.Perm.refl _⟩
  obtain ⟨row, hf, hidx, hids⟩ := hexec.pair
  have hgraph : ∃ graph, ourPruning pq.dist J.parts.N a b sched (out.cand .idx) (out.cand .ids) =
      .ok graph := by
    rw [hidx, hids, ourPruning_eq hf J.parts.N_lt, if_neg hb, if_neg (lt_irrefl _)]
    exact ⟨_, rfl⟩
  obtain ⟨graph, hgraph⟩ := hgraph
  obtain ⟨G, hG, hwritten⟩ : ∃ G, FirstGraph J file pq a G ∧ _ := exists_firstGraph hexec
  obtain ⟨hsize, hsuff⟩ := hm G hG
  have hcount := hG.countable hnd hR
  have hpos : G.N ≠ 0 := by
    have := hG.N_eq
    have := J.parts.P_pos
    have := J.parts.P_le
    omega
  have hrev : reverseEdges m graph = .ok (candIdx G.N G.row, candIds G.N G.row) := by
    rw [hwritten b sched graph hgraph, memIndex,
      reverseEdges_eq hcount m (length_memIndexHdr _ _ _ _), if_neg hpos,
      if_neg (by omega), if_neg hsuff]
  refine ⟨memIndex (finalAdj pq a G) 0 0, fs, out, hexec, b, sched, graph, hgraph, m, _, _, hrev,
    b, sched, ?_⟩
  have hN : G.N < 2 ^ 32 := hG.N_eq ▸ J.parts.N_lt
  rw [← hG.N_eq, ourPruning_eq (hcount.fits (by omega)) hN, if_neg hb, if_neg (lt_irrefl _)]
  rfl

end Run

section Final

variable {K : Type*} [Field K] [LinearOrder K] [IsStrictOrderedRing K] [Archimedean K]

end Final

/-! ### A build -/

def twoPoints : LinkArgs ℚ where
  nd := 2
  maxPoints := 2
  numFrozenPts := 0
  medoid := 0
  indexingQueueSize := 2
  slack := 2
  queryDistance u v := ((u : ℚ) - v) ^ 2
  prune := PruneArgs.onLine

theorem twoPoints_valid : twoPoints.Valid :=
  ⟨by decide, by decide, by decide, fun _ _ => sq_nonneg _, by decide, by
    norm_num [twoPoints, PruneArgs.onLine]⟩

theorem twoPoints_linked : ∃ s, ReflTransGen twoPoints.Step LinkArgs.start s ∧
    twoPoints.Done s ∧ s.graph 0 = [1] ∧ s.graph 1 = [0] := by
  obtain ⟨s, hrun, h0, h1, hdone⟩ : ∃ s ∈ twoPoints.inTurn LinkArgs.unused 8
      [0, 0, 0, 0, 0, 1, 1, 1, 1, 1, 1, 0, 1], s.graph 0 = [1] ∧ s.graph 1 = [0] ∧
        ∀ v ∈ twoPoints.visitOrder, twoPoints.remaining (s.task v) = 0 := by
    decide +kernel
  exact ⟨s, LinkArgs.run_of_inTurn (by decide) hrun,
    fun v hv => LinkArgs.cleaned_of_remaining (hdone v hv), h0, h1⟩

def fourPointIndexes (s : LinkState ℚ) (hrun : ReflTransGen twoPoints.Step LinkArgs.start s)
    (hdone : twoPoints.Done s) : Subindexes ℕ ℚ where
  N := 4
  D := 1
  P := 2
  N_lt := fourPoints.parts.N_lt
  P_pos := fourPoints.parts.P_pos
  P_le := fourPoints.parts.P_le
  vec := fourPoints.parts.vec
  args _ := twoPoints
  state _ := s
  valid _ _ := twoPoints_valid
  nd_eq t ht := match t, ht with
    | 0, _ => rfl
    | 1, _ => rfl
  frozen_eq _ _ := rfl
  run _ _ := hrun
  done _ _ := hdone

theorem fourPoints_toPartitions {s : LinkState ℚ}
    (hrun : ReflTransGen twoPoints.Step LinkArgs.start s) (hdone : twoPoints.Done s)
    (h0 : s.graph 0 = [1]) (h1 : s.graph 1 = [0]) :
    fourPoints.parts = (fourPointIndexes s hrun hdone).toPartitions := by
  have hadj : (fourPointIndexes s hrun hdone).adj = fun _ => [[1], [0]] := by
    funext t
    rw [← h0, ← h1]
    rfl
  simp only [Subindexes.toPartitions, hadj]
  rfl

/-- The points of the two partitions, with a code each. -/
def fourOnLine : PQSymL2 ℕ ℕ ℕ where
  ops := natOps
  N := 4
  QD := 1
  pivots x _ := x
  chunkOff m := m
  codes u _ := [0, 1, 3, 4].getD u 0
  N_lt := fourPoints.parts.N_lt

/-- What the first pruning makes of them: each pair of neighbours on the line is joined. -/
def fourInRow : DirectedGraph where
  adj := [[1], [0, 2], [3, 1], [2]]
  deg_lt := by decide
  id_lt := by decide

theorem fourInRow_first :
    FirstGraph fourPoints none fourOnLine (pruningArgs 2 Bytes.two_lt_word) fourInRow :=
  ⟨rfl, by decide +kernel⟩

theorem eq_fourInRow {G : DirectedGraph}
    (h : FirstGraph fourPoints none fourOnLine (pruningArgs 2 Bytes.two_lt_word) G) :
    G = fourInRow := by
  have hadj := h.adj_eq fourInRow_first
  cases G
  cases hadj
  rfl

end HiDANN.Build
