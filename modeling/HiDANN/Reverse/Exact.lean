import HiDANN.Reverse.Symmetric

/-! What a run of the program amounts to. On a graph whose rows the counters can
hold, every run that completes writes the symmetric candidate rows, the same bytes
for every memory; the two checks of the filling never fail. A row of `2 ^ 32` ids
is counted as none. -/

namespace HiDANN.Reverse

open Bytes Scatter Posix Format

/-! ### Exactness -/

namespace DirectedGraph

variable (G : DirectedGraph)

def multiplicity (u v : ℕ) : ℕ := (G.nbr u).count v

def edges : ℕ := offset (fun u => (G.nbr u).length) G.N

theorem count_row {u v : ℕ} (hu : u < G.N) (hv : v < G.N) :
    (G.row v).count u = G.multiplicity u v + G.multiplicity v u := by
  rw [row, count_candidateRow, if_pos hv, if_pos hu, multiplicity, multiplicity, Nat.add_comm]

theorem total_row : rowStart G.row G.N = 2 * G.edges := total_candidateRow G.nbr_lt

variable {G} (hG : G.Countable)

include hG

/-- The rows fit the format as soon as the ids file has a length. -/
theorem Countable.fits (h : ¬ (0 < rowStart G.row G.N ∧ 2 ^ 63 ≤ 32 + rowStart G.row G.N * 4)) :
    Fits G.N G.row :=
  ⟨fun _ hv => hG.length_row hv,
    fun v _ u hu => (candidateRow_lt G.nbr_lt v u hu).trans_le hG.N_le, by omega⟩

end DirectedGraph

section Exact

variable {G : DirectedGraph} (hG : G.Countable) {hdr : List UInt8} (hhdr : hdr.length = 24)

include hG hhdr

/-- A completed run writes the candidate files of the symmetric rows. -/
theorem reverseEdges_ok {m : Memory} {idx ids : List UInt8}
    (h : reverseEdges m (hdr ++ memIndexNodes G.adj) = .ok (idx, ids)) :
    idx = candIdx G.N G.row ∧ ids = candIds G.N G.row ∧ Fits G.N G.row := by
  rw [reverseEdges_eq hG m hhdr] at h
  split_ifs at h with h0 hbig hmem
  obtain ⟨rfl, rfl⟩ := Prod.mk.inj (Except.ok.inj h)
  exact ⟨rfl, rfl, hG.fits hbig⟩

theorem reverseEdges_error {m : Memory} {e : String}
    (h : reverseEdges m (hdr ++ memIndexNodes G.adj) = .error e) :
    e = "graph seems empty" ∨ e = "lseek ids prealloc" ∨
      e = "insufficient memory for even a single-node stripe" := by
  rw [reverseEdges_eq hG m hhdr] at h
  split_ifs at h with h0 hbig hmem
  · exact .inl (Except.error.inj h).symm
  · exact .inr (.inl (Except.error.inj h).symm)
  · exact .inr (.inr (Except.error.inj h).symm)

end Exact

/-- Reverse edges are exact, symmetric and independent of the memory. -/
theorem reverse_edges_exact (G : DirectedGraph) (hG : G.Countable) (hdr : List UInt8)
    (hhdr : hdr.length = 24) :
    (∀ m idx ids, reverseEdges m (hdr ++ memIndexNodes G.adj) = .ok (idx, ids) →
      idx = candIdx G.N G.row ∧ ids = candIds G.N G.row ∧
      ∀ v < G.N, candRow idx ids v = (List.range G.N).flatMap fun u =>
        (if u = v then G.nbr v else []) ++ List.replicate (G.multiplicity u v) u) ∧
    (∀ m m' out out', reverseEdges m (hdr ++ memIndexNodes G.adj) = .ok out →
      reverseEdges m' (hdr ++ memIndexNodes G.adj) = .ok out' → out = out') ∧
    (∀ m e, reverseEdges m (hdr ++ memIndexNodes G.adj) = .error e →
      e ≠ "cursor overflow" ∧ e ≠ "stripe fill mismatch" ∧ e ≠ "write past the buffer") ∧
    (∀ u < G.N, ∀ v < G.N,
      (G.row v).count u = G.multiplicity u v + G.multiplicity v u ∧
      (G.row v).count u = (G.row u).count v) ∧
    rowStart G.row G.N = 2 * G.edges := by
  refine ⟨?rows, ?memory, ?errors, ?symmetric, G.total_row⟩
  case rows =>
    intro m idx ids h
    obtain ⟨rfl, rfl, hf⟩ := reverseEdges_ok hG hhdr h
    exact ⟨rfl, rfl, fun v hv => candRow_eq hf hv⟩
  case memory =>
    intro m m' out out' h h'
    obtain ⟨h1, h2, -⟩ := reverseEdges_ok hG hhdr h
    obtain ⟨h1', h2', -⟩ := reverseEdges_ok hG hhdr h'
    exact Prod.ext (h1.trans h1'.symm) (h2.trans h2'.symm)
  case errors =>
    intro m e h
    rcases reverseEdges_error hG hhdr h with rfl | rfl | rfl <;> decide
  case symmetric =>
    intro u hu v hv
    refine ⟨G.count_row hu hv, ?_⟩
    rw [G.count_row hu hv, G.count_row hv hu, Nat.add_comm]

/-! ### Runs -/

/-- Two nodes; the first lists the second twice and itself. -/
def doubleEdge : DirectedGraph where
  adj := [[1, 0, 1], []]
  deg_lt := by decide
  id_lt := by decide

theorem doubleEdge_countable : doubleEdge.Countable := ⟨by decide, by decide⟩

def memoryOf (budget : ℕ) : Memory where
  budget := budget
  safety := 0
  payloadFill n := n
  maxMib := 0

theorem doubleEdge_run (budget : ℕ) (h : ¬ Insufficient doubleEdge (memoryOf budget)) :
    reverseEdges (memoryOf budget) (List.replicate 24 0 ++ memIndexNodes doubleEdge.adj) =
      .ok (candIdx 2 doubleEdge.row, candIds 2 doubleEdge.row) := by
  rw [reverseEdges_eq doubleEdge_countable _ (by simp), if_neg (by decide), if_neg (by decide),
    if_neg h]
  rfl

/-- A stripe a node, or one for both, and the same rows. -/
theorem double_edge_exact : ∃ idx ids,
    reverseEdges (memoryOf 4194368) (List.replicate 24 0 ++ memIndexNodes doubleEdge.adj) =
      .ok (idx, ids) ∧
    reverseEdges (memoryOf (2 ^ 30)) (List.replicate 24 0 ++ memIndexNodes doubleEdge.adj) =
      .ok (idx, ids) ∧
    candRow idx ids 0 = [1, 0, 1, 0] ∧ candRow idx ids 1 = [0, 0] := by
  have h := reverse_edges_exact doubleEdge doubleEdge_countable (List.replicate 24 0) (by simp)
  have htight := doubleEdge_run 4194368 (by decide)
  have hrows := (h.1 _ _ _ htight).2.2
  exact ⟨_, _, htight, doubleEdge_run _ (by decide), hrows 0 (by decide), hrows 1 (by decide)⟩

/-- One node that lists itself `n` times. -/
def selfLoops (n : ℕ) (hn : n < 2 ^ 32) : DirectedGraph where
  adj := [List.replicate n 0]
  deg_lt nb h := by
    rw [List.mem_singleton.mp h, List.length_replicate]
    exact hn
  id_lt nb h v hv := by
    rw [List.mem_singleton.mp h] at hv
    rw [List.eq_of_mem_replicate hv]
    exact Nat.one_pos

section Loops

variable {n : ℕ} (hn : n < 2 ^ 32)

theorem length_row_selfLoops : ((selfLoops n hn).row 0).length = 2 * n := by
  have hnbr : (selfLoops n hn).nbr 0 = List.replicate n 0 := rfl
  have hN : (selfLoops n hn).N = 1 := rfl
  rw [DirectedGraph.row, length_candidateRow, hN, offset, offset, hnbr, List.length_replicate,
    List.count_replicate_self, if_pos Nat.one_pos]
  omega

/-- Where the counter wraps to zero the run completes with an empty row. -/
theorem selfLoops_run (h : 2 * n % 2 ^ 32 = 0) (m : Memory) (hm : availForU m 1 1 ≠ 0) :
    reverseEdges m (List.replicate 24 0 ++ memIndexNodes (selfLoops n hn).adj) =
      .ok (candIdxHdr 1 ++ candIdxRow 0 0, candIdsHdr 0) := by
  have hN : (selfLoops n hn).N = 1 := rfl
  have hcnt : counts 1 (selfLoops n hn).nbr 0 = 0 := by
    rw [counts_eq, ← hN, ← DirectedGraph.row, length_row_selfLoops, h]
  have hoff : offElems (counts 1 (selfLoops n hn).nbr) 1 = 0 := by
    rw [offElems, offset, offset, hcnt]
  have hidx : writeRows 1 (counts 1 (selfLoops n hn).nbr)
      (offElems (counts 1 (selfLoops n hn).nbr)) 0 (candIdxHdr 1) =
      candIdxHdr 1 ++ candIdxRow 0 0 := by
    rw [writeRows_eq, Nat.sub_zero, List.range'_one, List.flatMap_singleton, hcnt]
    rfl
  have hend : ∀ off, stripeEnd m 1 off 0 = 1 := fun off =>
    Nat.le_antisymm (stripeEnd_le m off Nat.one_pos) (lt_stripeEnd m 1 off 0)
  rw [reverseEdges_writeFiles _ (by rw [hN]; norm_num) m (List.length_replicate ..),
    if_neg (by rw [hN]; norm_num), hN, writeFiles, hidx, hoff, preallocIds, if_pos rfl]
  have hneed : idsBytesOf (offElems (counts 1 (selfLoops n hn).nbr)) 0 1 = 0 := by
    rw [idsBytesOf, hoff]
    rfl
  dsimp only
  rw [hneed, if_neg (by omega), stripeLoop, if_pos Nat.one_pos, hend, if_pos hneed, stripeLoop,
    if_neg (lt_irrefl 1)]

end Loops

theorem loops_lt : 2 ^ 31 < 2 ^ 32 := by norm_num

/-- The counter of a node that lists itself `2 ^ 31` times wraps, and its row is empty. -/
theorem self_loops_dropped : ∃ G, G = selfLoops (2 ^ 31) loops_lt ∧
    ∃ idx ids,
      reverseEdges (memoryOf (2 ^ 30)) (List.replicate 24 0 ++ memIndexNodes G.adj) =
        .ok (idx, ids) ∧
      candRow idx ids 0 ≠ (List.range G.N).flatMap fun u =>
        (if u = 0 then G.nbr 0 else []) ++ List.replicate (G.multiplicity u 0) u := by
  have hm : availForU (memoryOf (2 ^ 30)) 1 1 ≠ 0 := by decide
  refine ⟨_, rfl, _, _, selfLoops_run loops_lt (by norm_num) _ hm, fun h => ?_⟩
  have hempty : candRow (candIdxHdr 1 ++ candIdxRow 0 0) (candIdsHdr 0) 0 = [] := rfl
  have hlen := congrArg List.length h
  have hrow := length_row_selfLoops loops_lt
  rw [DirectedGraph.row, candidateRow] at hrow
  simp only [DirectedGraph.multiplicity] at hlen
  rw [hempty, hrow] at hlen
  norm_num at hlen

end HiDANN.Reverse
