import HiDANN.Library.Bytes
import HiDANN.Pruning.ChunkOffsets
import HiDANN.Pruning.Distance
import Mathlib.Algebra.BigOperators.Group.Finset.Basic
import Mathlib.Algebra.Order.BigOperators.Group.Finset
import Mathlib.Algebra.Order.Ring.Defs
import Mathlib.Tactic.Ring

/-! The pivot file of a product quantizer and the distances that are computed from it. The
file has four blocks, and the first one tells where the others begin. Two programs read
it: the pruning program takes the pivots and the offsets of the chunks for its tables, and
the search decodes a vector by adding the centroid to the selected pivots. A distance that
adds up entries of the tables is the squared distance of the decoded vectors, if the
arithmetic is exact. -/

namespace HiDANN.Pruning

open Bytes Scatter

/-! ### Writing the pivots -/

def metadataSize : ℕ := 4096

/-- What a stream reads at a position. -/
def readExact (short : String) (file : List UInt8) (pos n : ℕ) : Except String (List UInt8) :=
  if pos + n ≤ file.length then .ok (slice file pos n) else .error short

/-- `load_bin` at an offset: the data and its two dimensions. -/
def loadBin (width : ℕ) (file : List UInt8) (offset : ℕ) : Except String (List ℕ × ℕ × ℕ) := do
  let npts ← readExact "FileException" file offset 4
  let dim ← readExact "FileException" file (offset + 4) 4
  let data ← readExact "FileException" file (offset + 8) (width * (val npts * val dim))
  return (readCells width (val npts * val dim) data, val npts, val dim)

/-- What `save_bin` writes. -/
def binBytes (width : ℕ) (data : List ℕ) (npts ndims : ℕ) : List UInt8 :=
  le 4 npts ++ (le 4 ndims ++ cells width (data.take (npts * ndims)))

/-- What `save_bin` returns. -/
def bytesWritten (width npts ndims : ℕ) : ℕ := npts * ndims * width + 2 * 4

/-- A pivot file of the same dimensions is left as it is, and one that is too short stops
the program. -/
def keepsPivots (old : Option (List UInt8)) (dim numCenters : ℕ) : Bool :=
  match old with
  | none => false
  | some file =>
    match loadBin 4 file metadataSize with
    | .error _ => true
    | .ok (_, fileNumCenters, fileDim) => fileDim = dim ∧ fileNumCenters = numCenters

/-- `generate_pq_pivots` from the pivots of the chunks and the centroid on: the file, or `none`
when it is not written. The buffer of the pivots is allocated for a 32-bit number of
them. -/
def generatePqPivots (old : Option (List UInt8)) (dim numCenters numPqChunks : ℕ)
    (fullPivotData centroid : ℕ → ℕ) : Option (List UInt8) :=
  if dim < numPqChunks then none
  else if keepsPivots old dim numCenters then none
  else match chunkOffsets dim numPqChunks with
    | none => none
    | some offsets =>
      if numCenters * dim % 2 ^ 32 < numCenters * dim then none
      else
        let cumul0 := metadataSize
        let cumul1 := cumul0 + bytesWritten 4 numCenters dim
        let cumul2 := cumul1 + bytesWritten 4 dim 1
        let cumul3 := cumul2 + bytesWritten 4 offsets.length 1
        let pivots := (List.range (numCenters * dim)).map fullPivotData
        let file := overwrite (old.getD []) cumul0 (binBytes 4 pivots numCenters dim)
        let file := overwrite file cumul1 (binBytes 4 ((List.range dim).map centroid) dim 1)
        let file := overwrite file cumul2 (binBytes 4 offsets offsets.length 1)
        some (overwrite file 0 (binBytes 8 [cumul0, cumul1, cumul2, cumul3] 4 1))

/-! ### The tables of the pruning program -/

/-- What `load_pivots_with_offsets` takes from the file. -/
structure PivotTables where
  pivots : List ℕ
  chunkOff : List ℕ
  D : ℕ
  QD : ℕ

def loadPivotsWithOffsets (file : List UInt8) : Except String PivotTables := do
  let _ ← readExact "short read" file 0 4
  let _ ← readExact "short read" file 4 4
  let begins ← readExact "short read" file 8 (8 * 4)
  let begins := readCells 8 4 begins
  let at0 := begins.getD 0 0
  let r ← readExact "short read" file at0 4
  let D ← readExact "short read" file (at0 + 4) 4
  if val r ≠ 256 then throw "pivots rows != 256"
  let pivots ← readExact "short read" file (at0 + 8) (4 * (256 * val D))
  let at2 := begins.getD 2 0
  let r ← readExact "short read" file at2 4
  let c ← readExact "short read" file (at2 + 4) 4
  if val c ≠ 1 then throw "chunkOffsets dims second != 1"
  let chunkOff ← readExact "short read" file (at2 + 8) (4 * val r)
  if val r < 2 then throw "chunkOffsets too short"
  return ⟨readCells 4 (256 * val D) pivots, readCells 4 (val r) chunkOff, val D, val r - 1⟩

/-- What `load_codes_bin` takes from a file. -/
structure CodesBin where
  npts : ℕ
  nch : ℕ
  codes : List UInt8

def loadCodesBin (file : List UInt8) : Except String CodesBin := do
  let npts ← readExact "short read" file 0 4
  let nch ← readExact "short read" file 4 4
  let codes ← readExact "short read" file 8 (val npts * val nch)
  return ⟨val npts, val nch, codes⟩

section

variable {ν δ ε : Type*} [LinearOrder δ] [LinearOrder ε]

/-- The quantized points. `value` is the number that the bits of a pivot stand for. -/
def pqSymL2 (ops : FloatOps ν δ ε) (value : ℕ → ν) (tables : PivotTables) (codes : CodesBin) :
    PQSymL2 ν δ ε where
  ops := ops
  N := codes.npts % 2 ^ 32
  QD := codes.nch
  pivots a j := value (tables.pivots.getD (a * tables.D + j) 0)
  chunkOff m := tables.chunkOff.getD m 0
  codes u m := (codes.codes.getD (u * codes.nch + m) 0).toNat
  N_lt := Nat.mod_lt _ zero_lt_word

/-- Both files are loaded before the tables of the chunks are built. -/
def loadPq (ops : FloatOps ν δ ε) (value : ℕ → ν) (pivotsFile codesFile : List UInt8) :
    Except String (PQSymL2 ν δ ε) :=
  match loadPivotsWithOffsets pivotsFile with
  | .error e => .error e
  | .ok tables =>
    match loadCodesBin codesFile with
    | .error e => .error e
    | .ok codes =>
      if tables.chunkOff.length = codes.nch + 1 then .ok (pqSymL2 ops value tables codes)
      else .error "chunk_off/QD mismatch"

end

/-! ### The vectors that are decoded -/

structure FixedChunkPQTable where
  tables : List ℕ
  centroid : List ℕ
  chunkOffsets : List ℕ
  ndims : ℕ
  nChunks : ℕ

namespace FixedChunkPQTable

/-- `load_pq_centroid_bin`, without a file of a rotation. -/
def loadPqCentroidBin (file : List UInt8) (numChunks : ℕ) : Except String FixedChunkPQTable := do
  let (begins, nr, _) ← loadBin 8 file 0
  if nr ≠ 4 ∧ nr ≠ 5 then throw "Error reading pq_pivots file at offsets data."
  let chunkOffsetsIndex := if nr = 5 then 3 else 2
  let (tables, nr, ndims) ← loadBin 4 file (begins.getD 0 0)
  if nr ≠ 256 then throw "Error reading pq_pivots file at pivots data."
  let (centroid, nr, nc) ← loadBin 4 file (begins.getD 1 0)
  if nr ≠ ndims ∨ nc ≠ 1 then throw "Error reading pq_pivots file at centroid data."
  let (chunkOffsets, nr, nc) ← loadBin 4 file (begins.getD chunkOffsetsIndex 0)
  if nc ≠ 1 ∨ nr ≠ numChunks + 1 ∧ numChunks ≠ 0 then throw "Error loading chunk offsets file"
  return ⟨tables, centroid, chunkOffsets, ndims, nr - 1⟩

variable {K : Type*} [Add K] [Zero K] (t : FixedChunkPQTable) (value : ℕ → K)

/-- The dimensions of a chunk, read through the transposed table. -/
def inflateChunk (baseVec : ℕ → ℕ) (outVec : ℕ → K) (chunk : ℕ) : ℕ → K :=
  let begins := t.chunkOffsets.getD chunk 0
  let ends := t.chunkOffsets.getD (chunk + 1) 0
  (List.range' begins (ends - begins)).foldl
    (fun outVec j => Function.update outVec j
      (value (t.tables.getD (baseVec chunk * t.ndims + j) 0) + value (t.centroid.getD j 0)))
    outVec

def inflateVector (baseVec : ℕ → ℕ) : ℕ → K :=
  (List.range t.nChunks).foldl (t.inflateChunk value baseVec) fun _ => 0

end FixedChunkPQTable

/-! ### Reading the file back -/

variable {file bytes : List UInt8} {pos width : ℕ}

theorem readExact_eq (h : HasAt file pos bytes) (short : String) {n : ℕ} (hn : bytes.length = n) :
    readExact short file pos n = .ok bytes := by
  rw [readExact, ← hn, if_pos h.le_length, h.slice_eq]

/-- A block of a pivot file: two 32-bit dimensions and as many numbers. -/
structure HasBin (width : ℕ) (file : List UInt8) (pos npts ndims : ℕ) (data : List ℕ) : Prop where
  hasAt : HasAt file pos (le 4 npts ++ (le 4 ndims ++ cells width data))
  npts_lt : npts < 2 ^ 32
  ndims_lt : ndims < 2 ^ 32
  length_eq : data.length = npts * ndims

theorem ok_bind {ε α β : Type} (a : α) (f : α → Except ε β) : (Except.ok a >>= f) = f a := rfl

section HasBin

variable {n m : ℕ} {data : List ℕ} (h : HasBin width file pos n m data)

include h

theorem HasBin.readNpts (short : String) : readExact short file pos 4 = .ok (le 4 n) :=
  readExact_eq h.hasAt.left short (length_le 4 n)

theorem HasBin.readNdims (short : String) : readExact short file (pos + 4) 4 = .ok (le 4 m) := by
  have hright := h.hasAt.right
  rw [length_le] at hright
  exact readExact_eq hright.left short (length_le 4 m)

theorem HasBin.readData (short : String) :
    readExact short file (pos + 8) (width * (n * m)) = .ok (cells width data) := by
  have hright := h.hasAt.right.right
  rw [length_le, length_le] at hright
  refine readExact_eq hright short ?_
  rw [length_cells, h.length_eq]

theorem HasBin.val_npts : val (le 4 n) = n := val_le_of_lt h.npts_lt

theorem HasBin.val_ndims : val (le 4 m) = m := val_le_of_lt h.ndims_lt

theorem HasBin.readCells_data :
    readCells width (n * m) (cells width data) = data.map fun k => k % 256 ^ width := by
  have hcells := readCells_cells_mod (w := width) data []
  rwa [List.append_nil, h.length_eq] at hcells

theorem HasBin.loadBin :
    Pruning.loadBin width file pos = .ok (data.map fun k => k % 256 ^ width, n, m) := by
  rw [Pruning.loadBin, h.readNpts, ok_bind, h.readNdims, ok_bind, h.val_npts, h.val_ndims,
    h.readData, ok_bind, h.readCells_data]
  rfl

end HasBin

theorem hasBin_overwrite {n m : ℕ} {data : List ℕ} (hn : n < 2 ^ 32) (hm : m < 2 ^ 32)
    (hlen : data.length = n * m) {file : List UInt8} {off width : ℕ} :
    HasBin width (overwrite file off (binBytes width data n m)) off n m data := by
  have hat := hasAt_overwrite file (binBytes width data n m) off
  rw [binBytes, List.take_of_length_le hlen.le] at hat ⊢
  exact ⟨hat, hn, hm, hlen⟩

structure PivotFile (dim q : ℕ) (fullPivotData centroid : ℕ → ℕ) (file : List UInt8)
    (begins : List ℕ) : Prop where
  size : 256 * dim < 2 ^ 32
  length_eq : begins.length = 4
  hasBegins : HasBin 8 file 0 4 1 begins
  fits : ∀ b ∈ begins, b < 256 ^ 8
  hasPivots : HasBin 4 file (begins.getD 0 0) 256 dim ((List.range (256 * dim)).map fullPivotData)
  hasCentroid : HasBin 4 file (begins.getD 1 0) dim 1 ((List.range dim).map centroid)
  hasOffsets : HasBin 4 file (begins.getD 2 0) (q + 1) 1
    ((List.range (q + 1)).map (offset (chunkSize dim q)))

theorem HasBin.overwrite_behind {n m off : ℕ} {data : List ℕ} (h : HasBin width file pos n m data)
    (bs : List UInt8) (hle : pos + (8 + width * (n * m)) ≤ off) :
    HasBin width (overwrite file off bs) pos n m data := by
  refine ⟨h.hasAt.overwrite_behind bs ?_, h.npts_lt, h.ndims_lt, h.length_eq⟩
  rw [List.length_append, List.length_append, length_le, length_le, length_cells, h.length_eq]
  omega

theorem HasBin.overwrite_before {n m off : ℕ} {data : List ℕ} (h : HasBin width file pos n m data)
    (bs : List UInt8) (hle : off + bs.length ≤ pos) :
    HasBin width (overwrite file off bs) pos n m data :=
  ⟨h.hasAt.overwrite_before bs hle, h.npts_lt, h.ndims_lt, h.length_eq⟩

theorem length_binBytes {n m : ℕ} {data : List ℕ} (hlen : data.length = n * m) :
    (binBytes width data n m).length = 8 + width * (n * m) := by
  rw [binBytes, List.take_of_length_le hlen.le, List.length_append, List.length_append, length_le,
    length_le, length_cells, hlen]
  omega

/-- The four blocks keep clear of each other. -/
theorem hasBin_blocks {n d k : ℕ} {pivots centroid offsets begins : List ℕ} (hn : n < 2 ^ 32)
    (hd : d < 2 ^ 32) (hk : k < 2 ^ 32) (hpivots : pivots.length = n * d)
    (hcentroid : centroid.length = d * 1) (hoffsets : offsets.length = k * 1)
    (hbegins : begins.length = 4 * 1) {at1 at2 : ℕ}
    (h1 : at1 = metadataSize + bytesWritten 4 n d) (h2 : at2 = at1 + bytesWritten 4 d 1)
    (hfile : file = overwrite
      (overwrite (overwrite (overwrite bytes metadataSize (binBytes 4 pivots n d)) at1
        (binBytes 4 centroid d 1)) at2 (binBytes 4 offsets k 1)) 0 (binBytes 8 begins 4 1)) :
    HasBin 8 file 0 4 1 begins ∧ HasBin 4 file metadataSize n d pivots ∧
      HasBin 4 file at1 d 1 centroid ∧ HasBin 4 file at2 k 1 offsets := by
  have hfront : 0 + (binBytes 8 begins 4 1).length ≤ metadataSize := by
    rw [length_binBytes hbegins]
    decide
  rw [bytesWritten] at h1 h2
  subst hfile
  refine ⟨hasBin_overwrite (by decide) one_lt_word hbegins, ?_, ?_, ?_⟩
  · exact (((hasBin_overwrite hn hd hpivots).overwrite_behind _ (by omega)).overwrite_behind _
      (by omega)).overwrite_before _ hfront
  · exact ((hasBin_overwrite hd one_lt_word hcentroid).overwrite_behind _
      (by omega)).overwrite_before _ (by omega)
  · exact (hasBin_overwrite hk one_lt_word hoffsets).overwrite_before _ (by omega)

theorem pivotFile_of_generate {old : Option (List UInt8)} {dim q : ℕ}
    {fullPivotData centroid : ℕ → ℕ} (hq : 0 < q) (hle : q ≤ dim) (hdim : dim < 2 ^ 32)
    (hfile : generatePqPivots old dim 256 q fullPivotData centroid = some file) :
    ∃ begins, PivotFile dim q fullPivotData centroid file begins := by
  rw [generatePqPivots, if_neg (Nat.not_lt.mpr hle), chunkOffsets_eq hq hle hdim] at hfile
  dsimp only at hfile
  split_ifs at hfile with hkept hwrap
  have hsize : 256 * dim < 2 ^ 32 := by
    by_contra hlarge
    exact hwrap ((Nat.mod_lt _ zero_lt_word).trans_le (Nat.le_of_not_lt hlarge))
  rw [List.length_map, List.length_range] at hfile
  have hone : ∀ n (f : ℕ → ℕ), ((List.range n).map f).length = n * 1 := by simp
  obtain ⟨hbegins, hpivots, hcentroid, hoffsets⟩ := hasBin_blocks (by decide) hdim (by omega)
    (by simp) (hone dim centroid) (hone (q + 1) _) rfl rfl rfl (Option.some.inj hfile).symm
  refine ⟨_, hsize, rfl, hbegins, ?_, hpivots, hcentroid, hoffsets⟩
  simp only [metadataSize, bytesWritten, List.mem_cons, List.not_mem_nil, or_false]
  rintro b (rfl | rfl | rfl | rfl) <;> omega

/-- Where there is no file yet, it is written unless the pivots are too many. -/
theorem exists_generate {dim q : ℕ} (hq : 0 < q) (hle : q ≤ dim) (hsize : 256 * dim < 2 ^ 32)
    (fullPivotData centroid : ℕ → ℕ) :
    ∃ file, generatePqPivots none dim 256 q fullPivotData centroid = some file := by
  have hnone : ¬ keepsPivots none dim 256 = true := Bool.false_ne_true
  rw [generatePqPivots, if_neg (Nat.not_lt.mpr hle), if_neg hnone,
    chunkOffsets_eq hq hle (by omega)]
  dsimp only
  rw [Nat.mod_eq_of_lt hsize, if_neg (lt_irrefl _)]
  exact ⟨_, rfl⟩

section Loaded

variable {dim q : ℕ} {fullPivotData centroid : ℕ → ℕ} {begins : List ℕ}

def savedWords (f : ℕ → ℕ) (n : ℕ) : List ℕ := (List.range n).map fun i => f i % 2 ^ 32

theorem map_saved (f : ℕ → ℕ) (n : ℕ) :
    ((List.range n).map f).map (fun k => k % 256 ^ 4) = savedWords f n := by
  rw [List.map_map]
  rfl

theorem map_offsets (hq : 0 < q) (hdim : dim < 2 ^ 32) :
    ((List.range (q + 1)).map (offset (chunkSize dim q))).map (fun k => k % 256 ^ 4) =
      (List.range (q + 1)).map (offset (chunkSize dim q)) := by
  rw [List.map_map]
  refine List.map_congr_left fun b hb => ?_
  have hle := offset_le (chunkSize dim q) (Nat.le_of_lt_succ (List.mem_range.mp hb))
  rw [offset_chunkSize_all hq] at hle
  exact Nat.mod_eq_of_lt (hle.trans_lt hdim)

theorem PivotFile.loadPivots (h : PivotFile dim q fullPivotData centroid file begins) (hq : 0 < q)
    (hdim : dim < 2 ^ 32) :
    loadPivotsWithOffsets file = .ok ⟨savedWords fullPivotData (256 * dim),
      (List.range (q + 1)).map (offset (chunkSize dim q)), dim, q⟩ := by
  have hbegins : readCells 8 4 (cells 8 begins) = begins := by
    have hcells := readCells_cells (w := 8) begins h.fits []
    rwa [List.append_nil, h.length_eq] at hcells
  have hmeta : readExact "short read" file 8 (8 * 4) = .ok (cells 8 begins) :=
    h.hasBegins.readData "short read"
  have hp := h.hasPivots
  have ho := h.hasOffsets
  have hoffsets := ho.readData "short read"
  have hcells := ho.readCells_data
  rw [Nat.mul_one] at hoffsets hcells
  rw [loadPivotsWithOffsets]
  simp only [h.hasBegins.readNpts, h.hasBegins.readNdims, hmeta, hbegins, hp.readNpts, hp.readNdims,
    hp.val_npts, hp.val_ndims, hp.readData, ho.readNpts, ho.readNdims, ho.val_npts, ho.val_ndims,
    hoffsets, hcells, hp.readCells_data, ok_bind]
  rw [if_neg fun hne => hne rfl, if_neg fun hne => hne rfl, if_neg (by omega), map_saved,
    map_offsets hq hdim]
  rfl

theorem PivotFile.loadPqCentroidBin (h : PivotFile dim q fullPivotData centroid file begins)
    (hq : 0 < q) (hdim : dim < 2 ^ 32) :
    FixedChunkPQTable.loadPqCentroidBin file q = .ok
      ⟨savedWords fullPivotData (256 * dim), savedWords centroid dim,
        (List.range (q + 1)).map (offset (chunkSize dim q)), dim, q⟩ := by
  have hbegins : begins.map (fun k => k % 256 ^ 8) = begins := by
    rw [List.map_congr_left fun k hk => Nat.mod_eq_of_lt (h.fits k hk), List.map_id']
  rw [FixedChunkPQTable.loadPqCentroidBin]
  simp only [h.hasBegins.loadBin, hbegins, h.hasPivots.loadBin, h.hasCentroid.loadBin, ok_bind]
  rw [if_neg fun hne => hne.1 rfl, if_neg fun hne => hne rfl,
    if_neg (not_or.mpr ⟨fun hne => hne rfl, fun hne => hne rfl⟩), if_neg (by decide),
    h.hasOffsets.loadBin, ok_bind]
  dsimp only
  rw [if_neg (not_or.mpr ⟨fun hne => hne rfl, fun hne => hne.1 rfl⟩), map_saved, map_saved,
    map_offsets hq hdim]
  rfl

end Loaded

/-- A codes file: the number of points, the number of chunks, and the code words. -/
def codesBin (N q : ℕ) (codes : List UInt8) : List UInt8 := le 4 N ++ (le 4 q ++ codes)

theorem loadCodesBin_codesBin {N q : ℕ} {codes : List UInt8} (hN : N < 2 ^ 32) (hq : q < 2 ^ 32)
    (hlen : codes.length = N * q) : loadCodesBin (codesBin N q codes) = .ok ⟨N, q, codes⟩ := by
  have hat : HasAt (codesBin N q codes) 0 (le 4 N ++ (le 4 q ++ codes)) :=
    ⟨[], [], (List.append_nil _).symm, rfl⟩
  have hright := hat.right
  have hcodes := hright.right
  rw [length_le] at hright hcodes
  rw [length_le] at hcodes
  rw [loadCodesBin, readExact_eq hat.left _ (length_le 4 N), ok_bind,
    readExact_eq hright.left _ (length_le 4 q), ok_bind, val_le_of_lt hN, val_le_of_lt hq,
    readExact_eq hcodes _ hlen, ok_bind]
  rfl

/-! ### Exact arithmetic -/

section Exact

variable {K : Type*} [CommRing K] [LinearOrder K] [IsStrictOrderedRing K]

/-- Arithmetic without rounding. -/
def exactOps (K : Type*) [CommRing K] [LinearOrder K] [IsStrictOrderedRing K] : FloatOps K K K where
  zero := 0
  add := (· + ·)
  sqDiff x y := (x - y) * (x - y)
  toFloat := id
  ofFloat := id
  add_zero := add_zero 0
  le_add x y h := le_add_of_nonneg_right h
  sqDiff_self x := by rw [sub_self, mul_zero]
  sqDiff_nonneg x y := mul_self_nonneg (x - y)
  toFloat_mono := monotone_id
  ofFloat_mono := monotone_id
  ofFloat_zero := rfl

open Finset in
theorem exactOps_sum (n : ℕ) (x : ℕ → K) : (exactOps K).sum n x = ∑ k ∈ range n, x k := by
  induction n with
  | zero => rfl
  | succ n ih =>
    rw [FloatOps.sum_succ, ih, sum_range_succ]
    rfl

open Finset in
/-- A sum over all dimensions goes through the chunks. -/
theorem sum_chunks {M : Type*} [AddCommMonoid M] (size : ℕ → ℕ) (q : ℕ) (f : ℕ → M) :
    ∑ d ∈ range (offset size q), f d =
      ∑ m ∈ range q, ∑ k ∈ range (size m), f (offset size m + k) := by
  induction q with
  | zero => rfl
  | succ q ih => rw [offset, sum_range_add, ih, sum_range_succ]

end Exact

/-! ### Decoding -/

theorem foldl_update_range' {K : Type*} (g : ℕ → K) (begins len : ℕ) (out : ℕ → K) (d : ℕ) :
    (List.range' begins len).foldl (fun out j => Function.update out j (g j)) out d =
      if begins ≤ d ∧ d < begins + len then g d else out d := by
  induction len generalizing begins out with
  | zero =>
    rw [if_neg (by omega)]
    rfl
  | succ len ih =>
    rw [List.range'_succ, List.foldl_cons, ih]
    by_cases hd : d = begins
    · rw [if_neg (by omega), if_pos (by omega), hd, Function.update_self]
    · rw [Function.update_of_ne hd]
      exact if_congr (by omega) rfl rfl

namespace FixedChunkPQTable

variable {K : Type*} [Add K] [Zero K] {t : FixedChunkPQTable} {size : ℕ → ℕ} {n : ℕ}

/-- Every dimension is decoded in its own chunk. -/
theorem inflateVector_eq (hoffsets : t.chunkOffsets = (List.range (n + 1)).map (offset size))
    (hchunks : t.nChunks = n) (value : ℕ → K) (baseVec : ℕ → ℕ) {m k : ℕ} (hm : m < n)
    (hk : k < size m) :
    t.inflateVector value baseVec (offset size m + k) =
      value (t.tables.getD (baseVec m * t.ndims + (offset size m + k)) 0) +
        value (t.centroid.getD (offset size m + k) 0) := by
  have hget : ∀ b ≤ n, t.chunkOffsets.getD b 0 = offset size b := by
    intro b hb
    rw [hoffsets, List.getD_eq_getElem _ _ (by simp; omega), List.getElem_map, List.getElem_range]
  have hrun : ∀ c ≤ n, m < c →
      (List.range c).foldl (t.inflateChunk value baseVec) (fun _ => 0) (offset size m + k) =
        value (t.tables.getD (baseVec m * t.ndims + (offset size m + k)) 0) +
          value (t.centroid.getD (offset size m + k) 0) := by
    intro c
    induction c with
    | zero => exact fun _ hlt => absurd hlt (Nat.not_lt_zero m)
    | succ c ih =>
      intro hc hlt
      have hends : offset size (c + 1) = offset size c + size c := rfl
      rw [List.range_succ, List.foldl_append, List.foldl_cons, List.foldl_nil, inflateChunk,
        hget c (by omega), hget (c + 1) hc, foldl_update_range', hends, Nat.add_sub_cancel_left]
      rcases Nat.lt_succ_iff_lt_or_eq.mp hlt with hbefore | rfl
      · have hle := offset_add_len_le size hbefore
        rw [if_neg (by omega)]
        exact ih (by omega) hbefore
      · rw [if_pos (by omega)]
  rw [inflateVector, hchunks]
  exact hrun n le_rfl hm

end FixedChunkPQTable

/-! ### Distances -/

section Exact

variable {K : Type*} [CommRing K] [LinearOrder K] [IsStrictOrderedRing K] {dim q : ℕ}

def codeWord (codes : List UInt8) (q u m : ℕ) : ℕ := (codes.getD (u * q + m) 0).toNat

theorem cc_eq (value : ℕ → K) (words : List ℕ) (codes : CodesBin) (hq : 0 < q)
    (hdim : dim < 2 ^ 32) {m : ℕ} (hm : m < q) (x y : ℕ) :
    (pqSymL2 (exactOps K) value ⟨words, (List.range (q + 1)).map (offset (chunkSize dim q)), dim, q⟩
        codes).cc m x y =
      ∑ k ∈ Finset.range (chunkSize dim q m),
        (value (words.getD (x * dim + (offset (chunkSize dim q) m + k)) 0) -
          value (words.getD (y * dim + (offset (chunkSize dim q) m + k)) 0)) ^ 2 := by
  have hget : ∀ b ≤ q, ((List.range (q + 1)).map (offset (chunkSize dim q))).getD b 0 =
      offset (chunkSize dim q) b := by
    intro b hb
    rw [List.getD_eq_getElem _ _ (by simp; omega), List.getElem_map, List.getElem_range]
  have hlast := offset_le (chunkSize dim q) (Nat.succ_le_of_lt hm)
  rw [offset_chunkSize_all hq] at hlast
  have hends : offset (chunkSize dim q) (m + 1) =
      offset (chunkSize dim q) m + chunkSize dim q m := rfl
  rw [PQSymL2.cc, pqSymL2]
  dsimp only
  rw [hget m hm.le, hget (m + 1) hm, hends]
  have hlen : (offset (chunkSize dim q) m + chunkSize dim q m +
      (2 ^ 32 - offset (chunkSize dim q) m % 2 ^ 32)) % 2 ^ 32 = chunkSize dim q m := by
    rw [hends] at hlast
    omega
  have hsq : ∀ a b : K, (exactOps K).sqDiff a b = (a - b) ^ 2 := fun a b => (sq (a - b)).symm
  rw [hlen, exactOps_sum]
  simp only [hsq]
  rfl

/-- Distances of the points of a vector table. -/
structure SquaredDistances (pq : PQSymL2 K K K) (dim N : ℕ) (x : ℕ → ℕ → K) : Prop where
  dist_eq : ∀ u < N, ∀ v < N, pq.dist u v = ∑ d ∈ Finset.range dim, (x u d - x v d) ^ 2
  dist_comm : ∀ u < N, ∀ v < N, pq.dist u v = pq.dist v u
  dist_nonneg : ∀ u < N, ∀ v < N, 0 ≤ pq.dist u v
  dist_eq_zero : ∀ u < N, ∀ v < N, (∀ m < pq.QD, pq.codes u m = pq.codes v m) → pq.dist u v = 0

/-- What adds up the entries of the tables adds up all dimensions. -/
theorem dist_pqSymL2 (value : ℕ → K) (words centroid : List ℕ) {N : ℕ} (codes : List UInt8)
    (hq : 0 < q) (hdim : dim < 2 ^ 32) :
    SquaredDistances
      (pqSymL2 (exactOps K) value
        ⟨words, (List.range (q + 1)).map (offset (chunkSize dim q)), dim, q⟩ ⟨N, q, codes⟩)
      dim N
      fun u => FixedChunkPQTable.inflateVector
        ⟨words, centroid, (List.range (q + 1)).map (offset (chunkSize dim q)), dim, q⟩ value
        (codeWord codes q u) := by
  set pq := pqSymL2 (exactOps K) value
    ⟨words, (List.range (q + 1)).map (offset (chunkSize dim q)), dim, q⟩ ⟨N, q, codes⟩ with hpq
  have hchunks : ∀ u v, pq.dist u v = ∑ m ∈ Finset.range q, pq.cc m (pq.codes u m) (pq.codes v m) :=
    fun u v => exactOps_sum q _
  have hdist : ∀ u v, pq.dist u v = ∑ m ∈ Finset.range q, ∑ k ∈ Finset.range (chunkSize dim q m),
      (value (words.getD (codeWord codes q u m * dim + (offset (chunkSize dim q) m + k)) 0) -
        value (words.getD (codeWord codes q v m * dim + (offset (chunkSize dim q) m + k)) 0)) ^ 2 := by
    intro u v
    rw [hchunks]
    refine Finset.sum_congr rfl fun m hm => ?_
    exact cc_eq value words ⟨N, q, codes⟩ hq hdim (Finset.mem_range.mp hm) _ _
  constructor
  · intro u _ v _
    have hall := sum_chunks (chunkSize dim q) q fun d =>
      (FixedChunkPQTable.inflateVector
          ⟨words, centroid, (List.range (q + 1)).map (offset (chunkSize dim q)), dim, q⟩ value
          (codeWord codes q u) d -
        FixedChunkPQTable.inflateVector
          ⟨words, centroid, (List.range (q + 1)).map (offset (chunkSize dim q)), dim, q⟩ value
          (codeWord codes q v) d) ^ 2
    rw [offset_chunkSize_all hq] at hall
    rw [hall, hdist]
    refine Finset.sum_congr rfl fun m hm => Finset.sum_congr rfl fun k hk => ?_
    have hm := Finset.mem_range.mp hm
    have hk := Finset.mem_range.mp hk
    rw [FixedChunkPQTable.inflateVector_eq rfl rfl value _ hm hk,
      FixedChunkPQTable.inflateVector_eq rfl rfl value _ hm hk, add_sub_add_right_eq_sub]
  · intro u _ v _
    rw [hdist, hdist]
    refine Finset.sum_congr rfl fun m _ => Finset.sum_congr rfl fun k _ => ?_
    rw [← neg_sub, neg_sq]
  · intro u _ v _
    rw [hdist]
    exact Finset.sum_nonneg fun m _ => Finset.sum_nonneg fun k _ => sq_nonneg _
  · intro u _ v _ hcodes
    rw [hchunks]
    refine Finset.sum_eq_zero fun m hm => ?_
    rw [hcodes m (Finset.mem_range.mp hm)]
    exact pq.cc_self m _

/-- The chunks in order: from zero to the number of dimensions, each of them the quotient
rounded down or up. -/
structure TilesDims (dim q : ℕ) (offsets : List ℕ) : Prop where
  length_eq : offsets.length = q + 1
  first : offsets.getD 0 0 = 0
  last : offsets.getD q 0 = dim
  size : ∀ b < q, offsets.getD (b + 1) 0 = offsets.getD b 0 + dim / q ∨
    offsets.getD (b + 1) 0 = offsets.getD b 0 + (dim + q - 1) / q

theorem tilesDims (hq : 0 < q) : TilesDims dim q ((List.range (q + 1)).map (offset (chunkSize dim q))) := by
  have hget : ∀ b ≤ q, ((List.range (q + 1)).map (offset (chunkSize dim q))).getD b 0 =
      offset (chunkSize dim q) b := by
    intro b hb
    rw [List.getD_eq_getElem _ _ (by simp; omega), List.getElem_map, List.getElem_range]
  refine ⟨by simp, hget 0 (Nat.zero_le q), ?_, fun b hb => ?_⟩
  · rw [hget q le_rfl, offset_chunkSize_all hq]
  · rw [hget b hb.le, hget (b + 1) hb, offset, chunkSize]
    split_ifs with hlt
    · right
      have hdecomp := Nat.div_add_mod' dim q
      have hmod := Nat.mod_lt dim hq
      have hup : (dim + q - 1) / q = dim / q + 1 := by
        rw [Nat.div_eq_iff hq, Nat.add_mul, Nat.one_mul]
        omega
      rw [hup]
    · exact .inl rfl

/-- The chunks tile the dimensions; and for every pivot file that is written and all code
words, the distances of the pruning program are those of the vectors that the search
decodes. -/
theorem pq_distances_exact (value : ℕ → K) (hq : 1 ≤ q) (hle : q ≤ dim) (hdim : dim < 2 ^ 32) :
    (∃ offsets, chunkOffsets dim q = some offsets ∧ TilesDims dim q offsets) ∧
      ∀ old fullPivotData centroid file,
        generatePqPivots old dim 256 q fullPivotData centroid = some file →
        ∀ N codes, N < 2 ^ 32 → codes.length = N * q →
          ∃ pq table, loadPq (exactOps K) value file (codesBin N q codes) = .ok pq ∧
            pq.N = N ∧ pq.QD = q ∧ pq.codes = codeWord codes q ∧
            FixedChunkPQTable.loadPqCentroidBin file q = .ok table ∧
            SquaredDistances pq dim N fun u => table.inflateVector value (codeWord codes q u) := by
  refine ⟨⟨_, chunkOffsets_eq hq hle hdim, tilesDims hq⟩, ?_⟩
  intro old fullPivotData centroid file hfile N codes hN hlen
  obtain ⟨begins, h⟩ := pivotFile_of_generate hq hle hdim hfile
  refine ⟨_, _, ?_, Nat.mod_eq_of_lt hN, rfl, rfl, h.loadPqCentroidBin hq hdim,
    dist_pqSymL2 value (savedWords fullPivotData (256 * dim)) (savedWords centroid dim) codes hq hdim⟩
  rw [loadPq, h.loadPivots hq hdim, loadCodesBin_codesBin hN (by omega) hlen]
  exact if_pos (by simp)

end Exact

/-- Three points of three dimensions in two chunks; the first two have the same words, and the
third differs in the last dimension, where the pivots 9 and 8 are 29 and 26. -/
theorem three_points_distances :
    ∃ file pq, generatePqPivots none 3 256 2 (fun i => i) (fun _ => 7) = some file ∧
      loadPq (exactOps ℤ) (fun n => (n : ℤ)) file (codesBin 3 2 [5, 9, 5, 9, 5, 8]) = .ok pq ∧
      pq.dist 0 1 = 0 ∧ pq.dist 0 2 = 9 ∧ pq.dist 2 0 = 9 := by
  obtain ⟨file, hfile⟩ := exists_generate (by decide : 0 < 2) (by decide : 2 ≤ 3) (by decide)
    (fun i => i) fun _ => 7
  obtain ⟨pq, table, hload, -, hQD, hcodes, htable, h⟩ :=
    (pq_distances_exact (fun n => (n : ℤ)) (by decide) (by decide : 2 ≤ 3) (by decide)).2 none
      (fun i => i) (fun _ => 7) file hfile 3 [5, 9, 5, 9, 5, 8] (by decide) (by decide)
  have hsame : ∀ m < pq.QD, pq.codes 0 m = pq.codes 1 m := by
    rw [hQD, hcodes]
    decide
  -- the table that the search loads, which the sum of the squares is evaluated on
  obtain ⟨begins, hp⟩ := pivotFile_of_generate (by decide) (by decide) (by decide) hfile
  rw [hp.loadPqCentroidBin (by decide) (by decide), Except.ok.injEq] at htable
  have hthird : pq.dist 0 2 = 9 := by
    rw [h.dist_eq 0 (by decide) 2 (by decide), ← htable]
    decide +kernel
  have hcomm := h.dist_comm 0 (by decide) 2 (by decide)
  exact ⟨file, pq, hfile, hload, h.dist_eq_zero 0 (by decide) 1 (by decide) hsame, hthird,
    hcomm.symm.trans hthird⟩

end HiDANN.Pruning
