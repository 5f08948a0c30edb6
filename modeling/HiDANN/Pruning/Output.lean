import HiDANN.Pruning.Batches

/-! What the pruning program writes does not depend on how it is run. Whatever
the memory, the cuts into batches and the order in which the threads finish, the
file holds the records of the nodes in order, each pruned from its own row. -/

namespace HiDANN.Pruning

open Bytes Scatter Format

variable {δ : Type*} [LinearOrder δ] {dist : ℕ → ℕ → δ} {N M : ℕ} {a : Args} {row : ℕ → List ℕ}

def adjacency (dist : ℕ → ℕ → δ) (N : ℕ) (a : Args) (row : ℕ → List ℕ) : List (List ℕ) :=
  (List.range N).map (pruned dist N a row)

variable (dist a row) in
theorem length_nodes_le (hN : N < 2 ^ 32) {n : ℕ} (hn : n ≤ N) :
    (memIndexNodes ((List.range n).map (pruned dist N a row))).length ≤
      4 * n + 4 * rowStart row n := by
  induction n with
  | zero => simp
  | succ n ih =>
    have hlen : (pruned dist N a row n).length ≤ (row n).length :=
      length_prune_le_cand dist a (by omega) _
    have ih := ih (by omega)
    rw [List.range_succ, List.map_append, memIndexNodes_append, List.length_append, List.map_cons,
      List.map_nil, memIndexNodes_cons, memIndexNodes_nil, List.append_nil, length_memIndexNode,
      rowStart_succ]
    omega

/-- The file of a completed run, with its size and largest degree in the header. -/
structure GraphFile (adj : List (List ℕ)) (file : List UInt8) : Prop where
  records : file.drop 24 = memIndexNodes adj
  isz : readLe 8 file 0 = file.length
  maxObs : readLe 4 file 8 = maxDegree adj
  eq : file = memIndex adj 0 0

theorem graphFile_memIndex (hf : Fits M row) (hN : N < 2 ^ 32) (hM : N ≤ M) :
    GraphFile (adjacency dist N a row) (memIndex (adjacency dist N a row) 0 0) := by
  have hlen := length_nodes_le dist a row hN le_rfl
  have hrow := rowStart_le row hM
  have htotal := hf.total_lt
  have hdeg : ∀ nb ∈ adjacency dist N a row, nb.length < 2 ^ 32 := by
    intro nb hnb
    obtain ⟨g, hg, rfl⟩ := List.mem_map.mp hnb
    exact (length_prune_le dist a ((List.mem_range.mp hg).trans hN) _).trans_lt a.R_lt
  refine ⟨drop_memIndexHdr _, ?_, ?_, rfl⟩
  · rw [length_memIndex, memIndex, hdr_isz _ (by rw [adjacency]; omega)]
  · rw [memIndex, hdr_maxObs _ (maxDegree_lt (by norm_num) hdeg)]

/-- A completed run writes the file of the pruned rows. -/
theorem graphFile_of_ok (hf : Fits M row) (hN : N < 2 ^ 32) {b : Budget} {sched : Schedule}
    {file : List UInt8}
    (h : ourPruning dist N a b sched (candIdx M row) (candIds M row) = .ok file) :
    GraphFile (adjacency dist N a row) file := by
  rw [ourPruning_eq hf hN] at h
  split_ifs at h with hb hM
  cases h
  exact graphFile_memIndex hf hN (Nat.le_of_not_lt hM)

/-- For a candidate pair in its format, every completed run writes, behind a header
with the size and the largest degree of the file, the record of every node once and
in order, pruned from the node's own row; so any two completed runs write the same
file, and a run completes whenever another one with a nonzero budget does. -/
theorem pruning_batch_independent (dist : ℕ → ℕ → δ) (a : Args) (hf : Fits M row)
    (hN : N < 2 ^ 32) :
    (∀ b sched file, ourPruning dist N a b sched (candIdx M row) (candIds M row) = .ok file →
      GraphFile ((List.range N).map fun g => prune dist N a g (row g)) file) ∧
    (∀ b b' sched sched' file file',
      ourPruning dist N a b sched (candIdx M row) (candIds M row) = .ok file →
      ourPruning dist N a b' sched' (candIdx M row) (candIds M row) = .ok file' → file = file') ∧
    ∀ b sched, (∃ file, ourPruning dist N a b sched (candIdx M row) (candIds M row) = .ok file) ↔
      b.effectiveBatchBudget ≠ 0 ∧ N ≤ M := by
  refine ⟨fun b sched file h => graphFile_of_ok hf hN h, ?_, fun b sched => ?_⟩
  · intro b b' sched sched' file file' h h'
    rw [(graphFile_of_ok hf hN h).eq, (graphFile_of_ok hf hN h').eq]
  · rw [ourPruning_eq hf hN]
    split_ifs with hb hM
    · exact iff_of_false (fun ⟨_, h⟩ => by cases h) fun h => h.1 hb
    · exact iff_of_false (fun ⟨_, h⟩ => by cases h) fun h => absurd h.2 (Nat.not_le.mpr hM)
    · exact iff_of_true ⟨_, rfl⟩ ⟨hb, Nat.le_of_not_lt hM⟩

/-- Three nodes on a line; node 0 has the candidates 2 and 1, node 1 none. -/
def lineRow : ℕ → List ℕ
  | 0 => [2, 1]
  | 1 => []
  | _ => [0]

theorem lineRow_fits : Fits 3 lineRow where
  cnt_lt := by decide
  id_lt := by decide
  total_lt := by decide

def twoByOne : Args := ⟨2, 1, two_lt_word, one_lt_word⟩

def inOrder : Schedule := ⟨fun _ k => List.range k, fun _ _ => List.Perm.refl _⟩

def backwards : Schedule := ⟨fun _ k => (List.range k).reverse, fun _ _ => List.reverse_perm _⟩

theorem line_batch_independent : ∃ file,
    ourPruning (fun u v => u - v + (v - u)) 3 twoByOne ⟨0, 1⟩ inOrder (candIdx 3 lineRow)
      (candIds 3 lineRow) = .ok file ∧
    GraphFile [[1, 2], [], [0]] file ∧
    ∀ file', ourPruning (fun u v => u - v + (v - u)) 3 twoByOne ⟨0, 1000⟩ backwards
      (candIdx 3 lineRow) (candIds 3 lineRow) = .ok file' → file = file' := by
  obtain ⟨hfile, hsame, hruns⟩ := pruning_batch_independent (fun u v => u - v + (v - u)) twoByOne
    lineRow_fits (N := 3) (by norm_num)
  obtain ⟨file, h⟩ := (hruns ⟨0, 1⟩ inOrder).mpr ⟨by decide, le_rfl⟩
  have hadj : ((List.range 3).map fun g =>
      prune (fun u v => u - v + (v - u)) 3 twoByOne g (lineRow g)) = [[1, 2], [], [0]] := by
    decide
  rw [hadj] at hfile
  exact ⟨file, h, hfile _ _ _ h, fun file' h' => hsame _ _ _ _ _ _ h h'⟩

end HiDANN.Pruning
