import HiDANN.Pruning.Output

/-! Graph files between the programs. What `save_graph` and the pruning program
write is read back by `load_impl`, by the partition loader, by the scans of the
reverse edges and by the evaluator as the lists that were written, and the size
in the header is that of the file. `save_graph` counts a degree plus one in 32
bits, and writes a degree in 32 bits, so this stops two below `2 ^ 32`. -/

namespace HiDANN.Pruning

open Bytes Scatter Posix Format

/-! ### Reading alike -/

/-- The lists of a graph store with its start node and frozen points. Points are
counted in 32 bits, and the file is no longer than an `off_t`. -/
structure MemGraph where
  adj : List (List ℕ)
  start : ℕ
  frozen : ℕ
  length_lt : adj.length < 2 ^ 32
  id_lt : ∀ nb ∈ adj, ∀ v ∈ nb, v < adj.length
  start_lt : start < 2 ^ 32
  frozen_lt : frozen < 2 ^ 64
  size_lt : 24 + (memIndexNodes adj).length < 2 ^ 63

/-- Every reader finds the lists in the file, in order, and the header its size. -/
structure ReadAlike (adj : List (List ℕ)) (ep nf : ℕ) (file : List UInt8) : Prop where
  isz : readLe 8 file 0 = file.length
  store : ∀ graph expected, adj.length ≤ (loadStore graph expected).length →
    loadImpl graph expected file =
      some (adj ++ (loadStore graph expected).drop adj.length, adj.length, ep, nf)
  partition : ∀ tsize, loadGraphToAdjMemindex tsize file = .ok (adj, adj.length = tsize)
  count : countNodes (file.drop 24) = .ok adj.length
  checked : scanChecked adj.length adj.length (file.drop 24) = .ok adj
  stripe : scanNodes adj.length (file.drop 24) = .ok adj
  evaluator : loadMemIndex file = .ok (ep, adj)

theorem loadMemIndex_nodes {adj : List (List ℕ)} (isz maxObs ep nf : ℕ)
    (h : ∀ nb ∈ adj, FitsNode nb) (hep : ep < 2 ^ 32) :
    loadMemIndex (memIndexHdr isz maxObs ep nf ++ memIndexNodes adj) = .ok (ep, adj) := by
  have hlen : 24 ≤ (memIndexHdr isz maxObs ep nf ++ memIndexNodes adj).length := by
    rw [List.length_append, length_memIndexHdr]
    omega
  rw [loadMemIndex, if_neg (by omega), if_neg (by omega), if_neg (by omega), if_neg (by omega),
    drop_memIndexHdr, readToEnd_nodes _ h, hdr_ep _ hep]
  rfl

theorem readAlike_of_size {adj : List (List ℕ)} {maxObs ep nf : ℕ}
    (hdeg : ∀ nb ∈ adj, nb.length < 2 ^ 32) (hid : ∀ nb ∈ adj, ∀ v ∈ nb, v < adj.length)
    (hlen : adj.length < 2 ^ 32) (hep : ep < 2 ^ 32) (hnf : nf < 2 ^ 64)
    (hsize : 24 + (memIndexNodes adj).length < 2 ^ 64) :
    ReadAlike adj ep nf
      (memIndexHdr (24 + (memIndexNodes adj).length) maxObs ep nf ++ memIndexNodes adj) := by
  have hfits : ∀ nb ∈ adj, FitsNode nb := fun nb hnb =>
    ⟨hdeg nb hnb, fun v hv => (hid nb hnb v hv).trans hlen⟩
  have h24 : ¬ (memIndexHdr (24 + (memIndexNodes adj).length) maxObs ep nf ++
      memIndexNodes adj).length < 24 := by
    rw [List.length_append, length_memIndexHdr]
    omega
  have hbody := List.append_nil (memIndexNodes adj)
  refine ⟨?_, fun graph expected hstore => ?_, fun tsize => ?_, ?_, ?_, ?_, ?_⟩
  · rw [hdr_isz _ hsize, List.length_append, length_memIndexHdr]
  · have hloop := loadLoop_nodes [] hfits [] (loadStore graph expected) (n := 24) hstore
    rw [hbody] at hloop
    rw [loadImpl, if_neg h24, hdr_isz _ hsize, drop_memIndexHdr, hdr_ep _ hep, hdr_nf _ hnf]
    simp only [List.nil_append, List.length_nil, Nat.zero_add] at hloop
    rw [hloop]
    rfl
  · rw [loadGraphToAdjMemindex, if_neg h24, drop_memIndexHdr, readToEnd_nodes _ hfits]
    rfl
  · rw [drop_memIndexHdr, countNodes_nodes hfits]
  · have h := scanChecked_nodes [] hlen.le hdeg hid
    rw [hbody] at h
    rw [drop_memIndexHdr, h]
  · have h := scanNodes_nodes [] hfits
    rw [hbody] at h
    rw [drop_memIndexHdr, h]
  · exact loadMemIndex_nodes _ _ _ _ hfits hep

/-! ### What `save_graph` writes -/

/-- The part of a list that a 32-bit length covers. -/
def written (nb : List ℕ) : List ℕ := nb.take (nb.length % 2 ^ 32)

theorem length_written (nb : List ℕ) : (written nb).length = nb.length % 2 ^ 32 := by
  rw [written, List.length_take]
  exact min_eq_left (Nat.mod_le _ _)

/-- The size `save_graph` counts for the records. -/
def countedSize (adj : List (List ℕ)) : ℕ :=
  (adj.map fun nb => 4 * ((nb.length % 2 ^ 32 + 1) % 2 ^ 32)).sum

theorem foldl_saveStep (adj : List (List ℕ)) (s : Saved) (hs : s.indexSize < 2 ^ 64) :
    (adj.foldl saveStep s).out = s.out ++ memIndexNodes (adj.map written) ∧
      (adj.foldl saveStep s).indexSize = (s.indexSize + countedSize adj) % 2 ^ 64 := by
  induction adj generalizing s with
  | nil => exact ⟨by simp, (Nat.mod_eq_of_lt hs).symm⟩
  | cons nb adj ih =>
    obtain ⟨h1, h2⟩ := ih (saveStep s nb) (Nat.mod_lt _ (by norm_num))
    rw [List.foldl_cons, h1, h2]
    constructor
    · rw [List.map_cons, memIndexNodes_cons, memIndexNode, length_written, saveStep, written]
      simp only [List.append_assoc]
    · rw [saveStep, countedSize, countedSize, List.map_cons, List.sum_cons, Nat.mod_add_mod,
        Nat.add_assoc]

theorem saveGraph_eq (maxObserved start frozen : ℕ) (adj : List (List ℕ)) :
    ∃ maxObs, saveGraph maxObserved start frozen adj =
      memIndexHdr ((24 + countedSize adj) % 2 ^ 64) maxObs start frozen ++
        memIndexNodes (adj.map written) := by
  obtain ⟨h1, h2⟩ := foldl_saveStep adj ⟨memIndexHdr 24 maxObserved start frozen, 24, 0⟩
    (by norm_num)
  rw [saveGraph]
  generalize adj.foldl saveStep ⟨memIndexHdr 24 maxObserved start frozen, 24, 0⟩ = s at h1 h2 ⊢
  have hmid := overwrite_mid (le 8 s.indexSize) (le 4 maxObserved)
    (le 4 start ++ (le 8 frozen ++ memIndexNodes (adj.map written))) (le 4 s.maxDegree) (by simp)
  rw [length_le] at hmid
  refine ⟨s.maxDegree, ?_⟩
  simp only [h1, h2, memIndexHdr, List.append_assoc] at hmid ⊢
  rw [overwrite_front _ _ _ (by simp), hmid]

theorem length_memIndexNodes (adj : List (List ℕ)) :
    (memIndexNodes adj).length = (adj.map fun nb => 4 * (nb.length + 1)).sum := by
  induction adj with
  | nil => rfl
  | cons nb adj ih => rw [memIndexNodes_cons, List.length_append, length_memIndexNode, ih]; rfl

/-- The counted size falls short where a degree plus one wraps. -/
theorem countedSize_le (adj : List (List ℕ)) :
    countedSize adj ≤ (memIndexNodes (adj.map written)).length ∧
      ∀ nb ∈ adj, nb.length % 2 ^ 32 = 2 ^ 32 - 1 →
        countedSize adj < (memIndexNodes (adj.map written)).length := by
  induction adj with
  | nil => exact ⟨le_rfl, by simp⟩
  | cons nb adj ih =>
    have hc : countedSize (nb :: adj) =
        4 * ((nb.length % 2 ^ 32 + 1) % 2 ^ 32) + countedSize adj := rfl
    have hl : (memIndexNodes ((nb :: adj).map written)).length =
        4 * (nb.length % 2 ^ 32 + 1) + (memIndexNodes (adj.map written)).length := by
      rw [List.map_cons, memIndexNodes_cons, List.length_append, length_memIndexNode,
        length_written]
    have hmod := Nat.mod_le (nb.length % 2 ^ 32 + 1) (2 ^ 32)
    rw [hc, hl]
    refine ⟨by omega, fun x hx hwrap => ?_⟩
    rcases List.mem_cons.mp hx with rfl | hx
    · omega
    · have := ih.2 x hx hwrap
      omega

theorem length_memIndexNodes_written_le (adj : List (List ℕ)) :
    (memIndexNodes (adj.map written)).length ≤ (memIndexNodes adj).length := by
  induction adj with
  | nil => exact le_rfl
  | cons nb adj ih =>
    have := Nat.mod_le nb.length (2 ^ 32)
    simp only [List.map_cons, memIndexNodes_cons, List.length_append, length_memIndexNode,
      length_written]
    omega

theorem map_written {adj : List (List ℕ)} (h : ∀ nb ∈ adj, nb.length < 2 ^ 32) :
    adj.map written = adj := by
  conv_rhs => rw [← List.map_id adj]
  refine List.map_congr_left fun nb hnb => ?_
  rw [written, Nat.mod_eq_of_lt (h nb hnb), List.take_length]
  rfl

theorem countedSize_eq {adj : List (List ℕ)} (h : ∀ nb ∈ adj, nb.length + 1 < 2 ^ 32) :
    countedSize adj = (memIndexNodes adj).length := by
  rw [countedSize, length_memIndexNodes]
  congr 1
  refine List.map_congr_left fun nb hnb => ?_
  have := h nb hnb
  rw [Nat.mod_eq_of_lt (show nb.length < 2 ^ 32 by omega), Nat.mod_eq_of_lt this]

/-- What is written is read alike exactly when no degree is within one of `2 ^ 32`. -/
theorem readAlike_saveGraph (G : MemGraph) (maxObserved : ℕ) :
    ReadAlike G.adj G.start G.frozen (saveGraph maxObserved G.start G.frozen G.adj) ↔
      ∀ nb ∈ G.adj, nb.length ≤ 2 ^ 32 - 2 := by
  have hsize := G.size_lt
  have hshort := length_memIndexNodes_written_le G.adj
  obtain ⟨hcount, hwrap⟩ := countedSize_le G.adj
  obtain ⟨maxObs, hsave⟩ := saveGraph_eq maxObserved G.start G.frozen G.adj
  rw [hsave]
  constructor
  · intro h nb hnb
    have hfits : ∀ x ∈ G.adj.map written, FitsNode x := by
      intro x hx
      obtain ⟨y, hy, rfl⟩ := List.mem_map.mp hx
      refine ⟨(length_written y).trans_lt (Nat.mod_lt _ (by norm_num)), fun v hv => ?_⟩
      exact (G.id_lt y hy v (List.mem_of_mem_take hv)).trans G.length_lt
    have hread := h.evaluator
    rw [loadMemIndex_nodes _ _ _ _ hfits G.start_lt] at hread
    have hadj : G.adj.map written = G.adj := (Prod.mk.inj (Except.ok.inj hread)).2
    have hnb' : written nb = nb := List.map_inj_left.mp (hadj.trans (List.map_id _).symm) nb hnb
    have hlen : nb.length % 2 ^ 32 = nb.length := by rw [← length_written, hnb']
    have hisz := h.isz
    rw [hdr_isz _ (Nat.mod_lt _ (by norm_num)), List.length_append, length_memIndexHdr,
      Nat.mod_eq_of_lt (by omega)] at hisz
    by_contra hbig
    have := Nat.mod_lt nb.length (show 0 < 2 ^ 32 by norm_num)
    have := hwrap nb hnb (by omega)
    omega
  · intro h
    have hadj : G.adj.map written = G.adj := map_written fun nb hnb => by
      have := h nb hnb
      omega
    have hcounted : countedSize G.adj = (memIndexNodes G.adj).length :=
      countedSize_eq fun nb hnb => by
        have := h nb hnb
        omega
    rw [hadj, hcounted, Nat.mod_eq_of_lt (by omega)]
    exact readAlike_of_size (fun nb hnb => by have := h nb hnb; omega) G.id_lt G.length_lt
      G.start_lt G.frozen_lt (by omega)

/-! ### Both writers -/

variable {δ : Type*} [LinearOrder δ] {N M : ℕ} {row : ℕ → List ℕ}

/-- The pruning program's file is read alike, whatever the degrees. -/
theorem readAlike_pruning (dist : ℕ → ℕ → δ) (a : Args) (hf : Fits M row) (hN : N < 2 ^ 32)
    {b : Budget} {sched : Schedule} {file : List UInt8}
    (h : ourPruning dist N a b sched (candIdx M row) (candIds M row) = .ok file) :
    ReadAlike (adjacency dist N a row) 0 0 file := by
  have hM : N ≤ M := by
    rw [ourPruning_eq hf hN] at h
    split_ifs at h with hb hM
    omega
  have hlen := length_nodes_le dist a row hN le_rfl
  have hrow := rowStart_le row hM
  have htotal := hf.total_lt
  have hcount : (adjacency dist N a row).length = N := by
    rw [adjacency, List.length_map, List.length_range]
  rw [(graphFile_of_ok hf hN h).eq, memIndex]
  refine readAlike_of_size ?_ ?_ (by rw [hcount]; exact hN) (by norm_num) (by norm_num)
    (by rw [adjacency]; omega)
  · intro nb hnb
    obtain ⟨g, hg, rfl⟩ := List.mem_map.mp hnb
    exact (length_prune_le dist a ((List.mem_range.mp hg).trans hN) _).trans_lt a.R_lt
  · intro nb hnb v hv
    obtain ⟨g, hg, rfl⟩ := List.mem_map.mp hnb
    have := (List.mem_filter.mp (mem_prune dist ((List.mem_range.mp hg).trans hN) hv)).2
    rw [hcount]
    exact (of_decide_eq_true this).1

/-- What `save_graph` writes is read alike by all readers, with its size in the
header, exactly when every degree is at most `2 ^ 32 - 2`; what the pruning program
writes always is. -/
theorem graph_files_read_alike_iff (dist : ℕ → ℕ → δ) (a : Args) (hf : Fits M row)
    (hN : N < 2 ^ 32) (G : MemGraph) (maxObserved : ℕ) :
    (ReadAlike G.adj G.start G.frozen (saveGraph maxObserved G.start G.frozen G.adj) ↔
      ∀ nb ∈ G.adj, nb.length ≤ 2 ^ 32 - 2) ∧
    ∀ b sched file, ourPruning dist N a b sched (candIdx M row) (candIds M row) = .ok file →
      ReadAlike ((List.range N).map fun g => prune dist N a g (row g)) 0 0 file :=
  ⟨readAlike_saveGraph G maxObserved, fun _ _ _ h => readAlike_pruning dist a hf hN h⟩

theorem smallGraph_size : 24 + (memIndexNodes [[1], [0], []]).length < 2 ^ 63 := by
  rw [length_memIndexNodes]
  norm_num

def smallGraph : MemGraph where
  adj := [[1], [0], []]
  start := 0
  frozen := 0
  length_lt := by decide
  id_lt := by decide
  start_lt := zero_lt_word
  frozen_lt := zero_lt_long
  size_lt := smallGraph_size

theorem small_graph_read_alike :
    ReadAlike [[1], [0], []] 0 0 (saveGraph 0 0 0 [[1], [0], []]) ∧
    ∃ file, ourPruning (fun u v => u - v + (v - u)) 3 twoByOne ⟨0, 1⟩ inOrder (candIdx 3 lineRow)
      (candIds 3 lineRow) = .ok file ∧ ReadAlike [[1, 2], [], [0]] 0 0 file := by
  obtain ⟨hsave, hprune⟩ := graph_files_read_alike_iff (fun u v => u - v + (v - u)) twoByOne
    lineRow_fits (N := 3) (by norm_num) smallGraph 0
  have hadj : ((List.range 3).map fun g =>
      prune (fun u v => u - v + (v - u)) 3 twoByOne g (lineRow g)) = [[1, 2], [], [0]] := by
    decide
  rw [hadj] at hprune
  have hrun : ourPruning (fun u v => u - v + (v - u)) 3 twoByOne ⟨0, 1⟩ inOrder (candIdx 3 lineRow)
      (candIds 3 lineRow) = .ok (memIndex [[1, 2], [], [0]] 0 0) := by
    rw [ourPruning_eq lineRow_fits (by norm_num), if_neg (by decide), if_neg (by decide), ← hadj]
    rfl
  exact ⟨hsave.mpr (by decide), _, hrun, hprune ⟨0, 1⟩ inOrder _ hrun⟩

theorem fullGraph_size :
    24 + (memIndexNodes [List.replicate (2 ^ 32 - 1) 0]).length < 2 ^ 63 := by
  rw [memIndexNodes_cons, memIndexNodes_nil, List.append_nil, length_memIndexNode,
    List.length_replicate]
  norm_num

def fullGraph : MemGraph where
  adj := [List.replicate (2 ^ 32 - 1) 0]
  start := 0
  frozen := 0
  length_lt := one_lt_word
  id_lt nb hnb v hv := by
    rw [List.mem_singleton.mp hnb] at hv
    rw [List.eq_of_mem_replicate hv]
    exact Nat.one_pos
  start_lt := zero_lt_word
  frozen_lt := zero_lt_long
  size_lt := fullGraph_size

/-- Its degree plus one wraps to zero, and the header has the size of no record. -/
theorem full_graph_not_read_alike :
    ¬ ReadAlike fullGraph.adj 0 0 (saveGraph 0 0 0 fullGraph.adj) := by
  intro h
  have := (readAlike_saveGraph fullGraph 0).mp h (List.replicate (2 ^ 32 - 1) 0)
    (List.mem_singleton_self _)
  rw [List.length_replicate] at this
  omega

end HiDANN.Pruning
