import HiDANN.Library.Bisect
import HiDANN.Library.Posix
import HiDANN.Format.Candidates
import HiDANN.Format.MemIndex
import HiDANN.Pruning.Prune

/-! The batches of the pruning program. Index rows are read in meta batches, and
within one the nodes are taken in batches whose ids fit a budget: the span of
the ids is read, the threads prune the nodes in some order, and the records are
written behind those of the nodes before. Neither the cuts nor the order shows
in the file. -/

namespace HiDANN.Pruning

open Bytes Scatter Posix Bisect Format

/-! ### The program -/

/-- What the sizes of the batches are computed from: the memory for index rows,
and the bytes a batch may take. -/
structure Budget where
  metaRamTarget : ℕ
  effectiveBatchBudget : ℕ

def Budget.metaBatchRows (b : Budget) : ℕ := min (max (b.metaRamTarget / 16) 10000) 10000000

/-- The order in which the threads get through the `k` nodes of the batch at `u`. -/
structure Schedule where
  order : ℕ → ℕ → List ℕ
  perm : ∀ u k, (order u k).Perm (List.range k)

/-- `meta_buf[i].off_bytes`. -/
def metaOff (buf : List UInt8) (i : ℕ) : ℕ := readLe 8 buf (16 * i)

/-- `meta_buf[i].cnt`. -/
def metaCnt (buf : List UInt8) (i : ℕ) : ℕ := readLe 4 buf (16 * i + 8)

def spanStep (buf : List UInt8) (u : ℕ) (s : ℕ × ℕ) (i : ℕ) : ℕ × ℕ :=
  let off := metaOff buf (u + i)
  let stop := (off + metaCnt buf (u + i) * 4) % 2 ^ 64
  (if off < s.1 then off else s.1, if s.2 < stop then stop else s.2)

/-- `off_min` and `off_max` of `k` rows from row `u` on. -/
def span (buf : List UInt8) (u k : ℕ) : ℕ × ℕ :=
  (List.range k).foldl (spanStep buf u) (2 ^ 64 - 1, 0)

def spanBytes (s : ℕ × ℕ) : ℕ := if s.1 < s.2 then s.2 - s.1 else 0

def pickBatchK (a : Args) (b : Budget) (buf : List UInt8) (u n : ℕ) : ℕ :=
  bisect (fun k => (spanBytes (span buf u k) + 2 * k * (a.R * 4 + 4)) % 2 ^ 64 ≤
    b.effectiveBatchBudget) 1 n 1 Nat.one_pos

theorem pickBatchK_pos (a : Args) (b : Budget) (buf : List UInt8) (u n : ℕ) :
    0 < pickBatchK a b buf u n := by
  unfold pickBatchK
  rcases bisect_mem _ 1 Nat.one_pos with h | h
  · rw [h]
    exact Nat.one_pos
  · exact h.1

theorem pickBatchK_le (a : Args) (b : Budget) (buf : List UInt8) (u : ℕ) {n : ℕ} (hn : 0 < n) :
    pickBatchK a b buf u n ≤ n := by
  unfold pickBatchK
  rcases bisect_mem _ 1 Nat.one_pos with h | h
  · rw [h]
    exact hn
  · exact h.2

/-- The output buffers of a batch: `R` places for every node, and its degree. -/
structure Buffers where
  adj : ℕ → ℕ
  deg : ℕ → ℕ

/-- The output file, `out_off` and `max_observed_deg`. -/
structure Out where
  file : List UInt8
  off : ℕ
  maxDeg : ℕ

variable {δ : Type*} [LinearOrder δ] (dist : ℕ → ℕ → δ) (N : ℕ) (a : Args)

def pruneNode (chunk buf : List UInt8) (offMin uGlobal uLocal : ℕ) (w : Buffers) (i : ℕ) :
    Buffers :=
  let cand := readCells 4 (metaCnt buf (uLocal + i))
    (chunk.drop (metaOff buf (uLocal + i) - offMin))
  let out := prune dist N a (uGlobal + (uLocal + i)) cand
  ⟨store w.adj (i * a.R) out, Function.update w.deg i out.length⟩

def serialize (w : Buffers) (k : ℕ) : List UInt8 :=
  (List.range k).flatMap fun i =>
    le 4 (w.deg i) ++ cells 4 ((List.range (w.deg i)).map fun j => w.adj (i * a.R + j))

/-- One batch: read, prune in the order of the schedule, write. -/
def pruneBatch (sched : Schedule) (ids buf : List UInt8) (uGlobal uLocal k : ℕ) (s : Out) :
    Except String Out :=
  let offs := span buf uLocal k
  match preadAll ids (32 + offs.1) (spanBytes offs) [] with
  | none => .error "pread ids batch"
  | some chunk =>
    let w := (sched.order (uGlobal + uLocal) k).foldl
      (pruneNode dist N a chunk buf offs.1 uGlobal uLocal) ⟨fun _ => 0, fun _ => 0⟩
    let outChunk := serialize a w k
    .ok {
      file := pwriteAll (64 * 1024 * 1024) s.off outChunk s.file 0
      off := s.off + outChunk.length
      maxDeg := (List.range k).foldl (fun m i => if m < w.deg i then w.deg i else m) s.maxDeg }

/-- The batches of a meta batch of `rows` rows. -/
def metaLoop (b : Budget) (sched : Schedule) (ids buf : List UInt8) (uGlobal rows uLocal : ℕ)
    (s : Out) : Except String Out :=
  if uLocal < rows then
    match pruneBatch dist N a sched ids buf uGlobal uLocal
        (pickBatchK a b buf uLocal (rows - uLocal)) s with
    | .error e => .error e
    | .ok s' =>
      metaLoop b sched ids buf uGlobal rows
        (uLocal + pickBatchK a b buf uLocal (rows - uLocal)) s'
  else .ok s
termination_by rows - uLocal
decreasing_by
  have := pickBatchK_pos a b buf uLocal (rows - uLocal)
  omega

def pruneLoop (b : Budget) (sched : Schedule) (idx ids : List UInt8) (uGlobal : ℕ) (s : Out) :
    Except String Out :=
  if uGlobal < N then
    let rows := min (N - uGlobal) b.metaBatchRows
    let buf := pread idx (32 + uGlobal * 16) (rows * 16)
    if buf.length ≠ rows * 16 then .error "read meta batch failed"
    else match metaLoop dist N a b sched ids buf uGlobal rows 0 s with
      | .error e => .error e
      | .ok s' => pruneLoop b sched idx ids (uGlobal + rows) s'
  else .ok s
termination_by N - uGlobal
decreasing_by
  have : 0 < b.metaBatchRows := by simp [Budget.metaBatchRows]
  omega

/-- The program, from the candidate files to the graph file. -/
def ourPruning (b : Budget) (sched : Schedule) (idx ids : List UInt8) :
    Except String (List UInt8) :=
  if idx.length < 32 then .error "read cand.idx header"
  else if b.effectiveBatchBudget = 0 then .error "effective pruning batch budget is zero"
  else
    match pruneLoop dist N a b sched idx ids 0 ⟨overwrite [] 0 (memIndexHdr 0 a.R 0 0), 24, 0⟩ with
    | .error e => .error e
    | .ok s => .ok (overwrite s.file 0 (memIndexHdr s.off s.maxDeg 0 0))

/-! ### The files as the program sees them -/

variable {M : ℕ} {row : ℕ → List ℕ}

theorem readLe_slice (w : ℕ) (xs : List UInt8) {a n b : ℕ} (h : b + w ≤ n) :
    readLe w (slice xs a n) b = readLe w xs (a + b) := by
  rw [readLe, readLe, slice_slice _ h]

section Buffer

variable {uGlobal rows u : ℕ} (hf : Fits M row) (hrows : uGlobal + rows ≤ M) (hu : u < rows)

include hf hrows hu

theorem metaOff_eq : metaOff (slice (candIdx M row) (32 + uGlobal * 16) (rows * 16)) u =
    4 * rowStart row (uGlobal + u) := by
  rw [metaOff, readLe_slice _ _ (by omega), ← rowOff_candIdx hf (g := uGlobal + u) (by omega),
    rowOff]
  congr 1
  ring

theorem metaCnt_eq : metaCnt (slice (candIdx M row) (32 + uGlobal * 16) (rows * 16)) u =
    (row (uGlobal + u)).length := by
  rw [metaCnt, readLe_slice _ _ (by omega), ← rowCnt_candIdx hf (g := uGlobal + u) (by omega),
    rowCnt]
  congr 1
  ring

end Buffer

theorem rowStart_succ (row : ℕ → List ℕ) (g : ℕ) :
    rowStart row (g + 1) = rowStart row g + (row g).length := rfl

theorem span_eq (hf : Fits M row) {uGlobal rows u k : ℕ} (hrows : uGlobal + rows ≤ M)
    (hk : u + k ≤ rows) (hpos : 0 < k) :
    span (slice (candIdx M row) (32 + uGlobal * 16) (rows * 16)) u k =
      (4 * rowStart row (uGlobal + u), 4 * rowStart row (uGlobal + u + k)) := by
  have htotal := hf.total_lt
  have hlt : ∀ i ≤ k, 4 * rowStart row (uGlobal + u + i) < 2 ^ 64 - 1 := by
    intro i hi
    have := rowStart_le row (show uGlobal + u + i ≤ M by omega)
    omega
  induction k with
  | zero => exact absurd hpos (lt_irrefl 0)
  | succ k ih =>
    have hoff := metaOff_eq hf hrows (show u + k < rows by omega)
    have hcnt := metaCnt_eq hf hrows (show u + k < rows by omega)
    rw [← Nat.add_assoc] at hoff hcnt
    have hend : (4 * rowStart row (uGlobal + u + k) + (row (uGlobal + u + k)).length * 4) % 2 ^ 64 =
        4 * rowStart row (uGlobal + u + (k + 1)) := by
      have := hlt (k + 1) le_rfl
      rw [← Nat.add_assoc, rowStart_succ] at this ⊢
      rw [Nat.mod_eq_of_lt (by omega)]
      ring
    have hround : ∀ s, spanStep (slice (candIdx M row) (32 + uGlobal * 16) (rows * 16)) u s k =
        (min s.1 (4 * rowStart row (uGlobal + u + k)),
          max s.2 (4 * rowStart row (uGlobal + u + (k + 1)))) := by
      intro s
      simp only [spanStep, hoff, hcnt, hend]
      congr 1
      · split_ifs <;> omega
      · split_ifs <;> omega
    have hlast := hlt (k + 1) le_rfl
    have hle := rowStart_le row (show uGlobal + u + k ≤ uGlobal + u + (k + 1) by omega)
    rw [span, List.range_succ, List.foldl_append, List.foldl_cons, List.foldl_nil, hround, ← span]
    rcases Nat.eq_zero_or_pos k with rfl | hk0
    · rw [Nat.add_zero] at hle
      rw [span, List.range_zero, List.foldl_nil]
      exact Prod.ext (by simp only [Nat.add_zero]; omega) (by simp only; omega)
    · have hle' := rowStart_le row (show uGlobal + u ≤ uGlobal + u + k by omega)
      rw [ih (by omega) hk0 fun i hi => hlt i (by omega)]
      exact Prod.ext (by simp only; omega) (by simp only; omega)

/-! ### One batch -/

/-- The adjacency list the file should hold for a node. -/
def pruned (row : ℕ → List ℕ) (g : ℕ) : List ℕ := prune dist N a g (row g)

/-- The output once the nodes below `g` are written. -/
structure Emitted (row : ℕ → List ℕ) (g : ℕ) (s : Out) : Prop where
  file : s.file = memIndexHdr 0 a.R 0 0 ++ memIndexNodes ((List.range g).map (pruned dist N a row))
  off : s.off = s.file.length
  maxDeg : s.maxDeg = maxDegree ((List.range g).map (pruned dist N a row))

theorem foldl_update {β : Type*} {order : List ℕ} {f : ℕ → β} {i : ℕ} (hi : i ∈ order)
    (d : ℕ → β) : order.foldl (fun d u => Function.update d u (f u)) d i = f i := by
  induction order using List.reverseRecOn with
  | nil => cases hi
  | append_singleton order u ih =>
    rw [List.foldl_append, List.foldl_cons, List.foldl_nil, Function.update_apply]
    split_ifs with h
    · rw [h]
    · refine ih ?_
      rcases List.mem_append.mp hi with hi | hi
      · exact hi
      · exact absurd (List.mem_singleton.mp hi) h

variable {dist N a}

theorem map_range_add {β : Type*} (p : ℕ → β) (g k : ℕ) : (List.range (g + k)).map p =
    (List.range g).map p ++ (List.range k).map fun i => p (g + i) := by
  rw [List.range_add, List.map_append, List.map_map]
  rfl

section Batch

variable {sched : Schedule} {uGlobal rows u k : ℕ} (hf : Fits M row) (hN : N < 2 ^ 32)
  (hMN : uGlobal + rows ≤ N) (hrows : uGlobal + rows ≤ M) (hk : u + k ≤ rows) (hpos : 0 < k)

theorem readCells_chunk (hf : Fits M row) (hrows : uGlobal + rows ≤ M) (hk : u + k ≤ rows) {i : ℕ}
    (hi : i < k) :
    readCells 4 (metaCnt (slice (candIdx M row) (32 + uGlobal * 16) (rows * 16)) (u + i))
      ((slice (candIds M row) (32 + 4 * rowStart row (uGlobal + u))
        (4 * rowStart row (uGlobal + u + k) - 4 * rowStart row (uGlobal + u))).drop
        (metaOff (slice (candIdx M row) (32 + uGlobal * 16) (rows * 16)) (u + i) -
          4 * rowStart row (uGlobal + u))) = row (uGlobal + (u + i)) := by
  have h1 := rowStart_le row (show uGlobal + u ≤ uGlobal + (u + i) by omega)
  have h2 := rowStart_le row (show uGlobal + (u + i) + 1 ≤ uGlobal + u + k by omega)
  rw [rowStart_succ] at h2
  have hrow := candRow_eq hf (show uGlobal + (u + i) < M by omega)
  rw [candRow, rowCnt_candIdx hf (by omega), rowOff_candIdx hf (by omega)] at hrow
  rw [metaCnt_eq hf hrows (by omega), metaOff_eq hf hrows (by omega),
    readCells_slice _ _ _ (by omega), show 32 + 4 * rowStart row (uGlobal + u) +
      (4 * rowStart row (uGlobal + (u + i)) - 4 * rowStart row (uGlobal + u)) =
      32 + 4 * rowStart row (uGlobal + (u + i)) by omega]
  exact hrow

theorem foldl_pruneNode (hf : Fits M row) (hrows : uGlobal + rows ≤ M) (hk : u + k ≤ rows)
    (order : List ℕ) (hmem : ∀ i ∈ order, i < k) (w : Buffers) :
    order.foldl (pruneNode dist N a (slice (candIds M row) (32 + 4 * rowStart row (uGlobal + u))
        (4 * rowStart row (uGlobal + u + k) - 4 * rowStart row (uGlobal + u)))
      (slice (candIdx M row) (32 + uGlobal * 16) (rows * 16)) (4 * rowStart row (uGlobal + u))
      uGlobal u) w =
    ⟨order.foldl (fun m i => store m (i * a.R) (pruned dist N a row (uGlobal + u + i))) w.adj,
      order.foldl (fun d i => Function.update d i (pruned dist N a row (uGlobal + u + i)).length)
        w.deg⟩ := by
  induction order generalizing w with
  | nil => rfl
  | cons i order ih =>
    rw [List.foldl_cons, ih fun j hj => hmem j (by simp [hj]), pruneNode,
      readCells_chunk hf hrows hk (hmem i (by simp)), ← Nat.add_assoc]
    rfl

theorem serialize_eq {order : List ℕ} (horder : order.Perm (List.range k)) {f : ℕ → List ℕ}
    (hR : ∀ i < k, (f i).length ≤ a.R) (w : Buffers)
    (hadj : w.adj = order.foldl (fun m i => store m (i * a.R) (f i)) fun _ => 0)
    (hdeg : w.deg = order.foldl (fun d i => Function.update d i (f i).length) fun _ => 0) :
    serialize a w k = memIndexNodes ((List.range k).map f) ∧ ∀ i < k, w.deg i = (f i).length := by
  have hmem : ∀ i, i ∈ order ↔ i < k := fun i => by rw [horder.mem_iff, List.mem_range]
  have hnd : order.Nodup := horder.nodup_iff.mpr List.nodup_range
  have hdeg' : ∀ i < k, w.deg i = (f i).length := fun i hi => by
    rw [hdeg, foldl_update ((hmem i).mpr hi)]
  refine ⟨?_, hdeg'⟩
  rw [serialize, memIndexNodes, List.flatMap_map]
  refine List.flatMap_congr fun i hi => ?_
  have hi : i < k := List.mem_range.mp hi
  have hlist : (List.range (f i).length).map (fun j => w.adj (i * a.R + j)) = f i := by
    refine List.ext_getElem (by simp) fun j h1 h2 => ?_
    rw [List.getElem_map, List.getElem_range, hadj,
      foldl_store_blocks hnd (fun u hu => hR u ((hmem u).mp hu)) ((hmem i).mpr hi) h2]
  rw [hdeg' i hi, hlist, memIndexNode]

include hf hN hMN hrows hk hpos in
theorem pruneBatch_emitted {s : Out} (hs : Emitted dist N a row (uGlobal + u) s) :
    ∃ s', pruneBatch dist N a sched (candIds M row)
        (slice (candIdx M row) (32 + uGlobal * 16) (rows * 16)) uGlobal u k s = .ok s' ∧
      Emitted dist N a row (uGlobal + u + k) s' := by
  have hlen : 32 + 4 * rowStart row (uGlobal + u) +
      (4 * rowStart row (uGlobal + u + k) - 4 * rowStart row (uGlobal + u)) ≤
      (candIds M row).length := by
    have h1 := rowStart_le row (show uGlobal + u ≤ uGlobal + u + k by omega)
    have h2 := rowStart_le row (show uGlobal + u + k ≤ M by omega)
    rw [length_candIds]
    omega
  have hbytes : spanBytes (4 * rowStart row (uGlobal + u), 4 * rowStart row (uGlobal + u + k)) =
      4 * rowStart row (uGlobal + u + k) - 4 * rowStart row (uGlobal + u) := by
    unfold spanBytes
    split_ifs with h
    · rfl
    · simp only at h
      omega
  have hmem : ∀ i ∈ sched.order (uGlobal + u) k, i < k := fun i hi =>
    List.mem_range.mp ((sched.perm _ _).mem_iff.mp hi)
  obtain ⟨hser, hdeg⟩ := serialize_eq (a := a) (sched.perm (uGlobal + u) k)
    (f := fun i => pruned dist N a row (uGlobal + u + i))
    (fun i hi => length_prune_le dist a (by omega) _)
    ⟨(sched.order (uGlobal + u) k).foldl (fun m i => store m (i * a.R)
        (pruned dist N a row (uGlobal + u + i))) fun _ => 0,
      (sched.order (uGlobal + u) k).foldl (fun d i =>
        Function.update d i (pruned dist N a row (uGlobal + u + i)).length) fun _ => 0⟩ rfl rfl
  rw [pruneBatch, span_eq hf hrows hk hpos]
  simp only
  rw [hbytes, preadAll_eq hlen]
  simp only
  rw [foldl_pruneNode hf hrows hk _ hmem]
  simp only
  rw [hser]
  refine ⟨_, rfl, ?_, ?_, ?_⟩
  · rw [pwriteAll_eq (by norm_num) hs.off.le, hs.off, overwrite_end, hs.file,
      map_range_add (pruned dist N a row) (uGlobal + u) k, memIndexNodes_append, List.append_assoc]
  · rw [pwriteAll_eq (by norm_num) hs.off.le, hs.off, overwrite_end, List.length_append]
  · rw [map_range_add (pruned dist N a row) (uGlobal + u) k, maxDegree, List.foldl_append,
      ← maxDegree, ← hs.maxDeg, List.foldl_map]
    refine List.foldl_ext _ _ _ fun m i hi => ?_
    have hd := hdeg i (List.mem_range.mp hi)
    simp only at hd ⊢
    rw [hd]
    split_ifs with h
    · exact (max_eq_right h.le).symm
    · exact (max_eq_left (Nat.le_of_not_lt h)).symm

end Batch

/-! ### All batches -/

section Loops

variable {b : Budget} {sched : Schedule} (hf : Fits M row) (hN : N < 2 ^ 32)

include hf hN in
theorem metaLoop_emitted {uGlobal rows u : ℕ} (hMN : uGlobal + rows ≤ N)
    (hrows : uGlobal + rows ≤ M) (hu : u ≤ rows) {s : Out}
    (hs : Emitted dist N a row (uGlobal + u) s) :
    ∃ s', metaLoop dist N a b sched (candIds M row)
        (slice (candIdx M row) (32 + uGlobal * 16) (rows * 16)) uGlobal rows u s = .ok s' ∧
      Emitted dist N a row (uGlobal + rows) s' := by
  rw [metaLoop]
  by_cases hlt : u < rows
  · have hpos := pickBatchK_pos a b (slice (candIdx M row) (32 + uGlobal * 16) (rows * 16)) u
      (rows - u)
    have hle := pickBatchK_le a b (slice (candIdx M row) (32 + uGlobal * 16) (rows * 16)) u
      (show 0 < rows - u by omega)
    obtain ⟨s₁, h₁, hs₁⟩ := pruneBatch_emitted hf hN hMN hrows
      (show u + _ ≤ rows by omega) hpos hs
    rw [if_pos hlt, h₁]
    simp only
    rw [Nat.add_assoc] at hs₁
    exact metaLoop_emitted hMN hrows (by omega) hs₁
  · obtain rfl : u = rows := by omega
    exact ⟨s, by rw [if_neg hlt], hs⟩
termination_by rows - u
decreasing_by omega

/-- The rows of a meta batch are there exactly when the index file has them all. -/
theorem length_metaBatch (row : ℕ → List ℕ) {g rows : ℕ} (hrows : rows ≤ 10000000) (hg : g ≤ M) :
    (pread (candIdx M row) (32 + g * 16) (rows * 16)).length = rows * 16 ↔ g + rows ≤ M := by
  have hlen : (candIdx M row).length = 32 + 16 * M := by
    rw [candIdx, List.length_append, length_candIdxHdr,
      length_flatMap_const _ (w := 16) _ (by simp), List.length_range]
  rw [pread, length_slice, hlen, maxRwCount]
  omega

include hf hN in
theorem pruneLoop_eq {g : ℕ} (hgN : g ≤ N) (hgM : g ≤ M) {s : Out}
    (hs : Emitted dist N a row g s) :
    (N ≤ M → ∃ s', pruneLoop dist N a b sched (candIdx M row) (candIds M row) g s = .ok s' ∧
      Emitted dist N a row N s') ∧
    (M < N → pruneLoop dist N a b sched (candIdx M row) (candIds M row) g s =
      .error "read meta batch failed") := by
  rw [pruneLoop]
  by_cases hlt : g < N
  · have hmax : b.metaBatchRows ≤ 10000000 := min_le_right _ _
    have hmin : 10000 ≤ b.metaBatchRows := le_min (le_max_right _ _) (by norm_num)
    have hlen := length_metaBatch row (g := g)
      ((min_le_right (N - g) b.metaBatchRows).trans hmax) hgM
    rw [if_pos hlt]
    simp only [ne_eq, hlen]
    by_cases hin : g + min (N - g) b.metaBatchRows ≤ M
    · have hbuf : pread (candIdx M row) (32 + g * 16) (min (N - g) b.metaBatchRows * 16) =
          slice (candIdx M row) (32 + g * 16) (min (N - g) b.metaBatchRows * 16) := by
        rw [pread, min_eq_left]
        rw [maxRwCount]
        omega
      obtain ⟨s₁, h₁, hs₁⟩ := metaLoop_emitted (b := b) hf hN (u := 0)
        (show g + min (N - g) b.metaBatchRows ≤ N by omega) hin (Nat.zero_le _) hs
      rw [if_neg (not_not.mpr hin), hbuf, h₁]
      simp only
      exact pruneLoop_eq (by omega) hin hs₁
    · rw [if_pos hin]
      exact ⟨fun h => absurd h (by omega), fun _ => rfl⟩
  · obtain rfl : g = N := by omega
    rw [if_neg hlt]
    exact ⟨fun _ => ⟨s, rfl, hs⟩, fun h => absurd h (by omega)⟩
termination_by N - g
decreasing_by omega

include hf hN in
/-- What the program leaves behind: the file of the pruned rows. -/
theorem ourPruning_eq : ourPruning dist N a b sched (candIdx M row) (candIds M row) =
    if b.effectiveBatchBudget = 0 then .error "effective pruning batch budget is zero"
    else if M < N then .error "read meta batch failed"
    else .ok (memIndex ((List.range N).map (pruned dist N a row)) 0 0) := by
  have hlen : ¬ (candIdx M row).length < 32 := by
    rw [candIdx, List.length_append, length_candIdxHdr]
    omega
  have hstart : Emitted dist N a row 0 ⟨overwrite [] 0 (memIndexHdr 0 a.R 0 0), 24, 0⟩ := by
    refine ⟨?_, ?_, rfl⟩ <;> simp [overwrite]
  rw [ourPruning, if_neg hlen]
  by_cases hb : b.effectiveBatchBudget = 0
  · rw [if_pos hb, if_pos hb]
  · obtain ⟨hok, herr⟩ := pruneLoop_eq (b := b) hf hN (Nat.zero_le N)
      (Nat.zero_le M) hstart
    rw [if_neg hb, if_neg hb]
    by_cases hMN : M < N
    · rw [herr hMN, if_pos hMN]
    · obtain ⟨s, hs, he⟩ := hok (Nat.le_of_not_lt hMN)
      rw [hs, if_neg hMN]
      simp only
      rw [he.off, he.maxDeg, he.file, overwrite_front _ _ _ (by simp), List.length_append,
        length_memIndexHdr, memIndex]

end Loops

end HiDANN.Pruning
