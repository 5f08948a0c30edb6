import HiDANN.Library.Packing
import HiDANN.Format.MemIndex
import HiDANN.Disk.CachedIO

/-! `create_disk_layout`: the disk index of a base vector file and a memory-index
graph. A sector with the metadata is followed by the nodes, a record each: the vector,
the number of neighbours and the neighbours, as many as the width of the graph allows.
Several records share a sector if they fit one, without crossing into the next; a
larger record has sectors of its own. -/

namespace HiDANN.Disk

open Bytes Packing Format

def sectorLen : ℕ := 4096

/-- The length of a record: the vector, the count and `width` neighbours. -/
def maxNodeLen (elemSize ndims width : ℕ) : ℕ := (width + 1) * 4 + ndims * elemSize

/-- The streams of the writer and the node to write. -/
structure LayoutState where
  vamana : Ifstream
  base : CachedIfstream
  writer : CachedOfstream
  curNodeId : ℕ

/-- Read a node from the graph and from the base file, and put its record together. -/
def nodeRecord (vecLen width : ℕ) (s : LayoutState) : Except String (List UInt8 × LayoutState) :=
  let (count, vamana) := s.vamana.read 4
  let nnbrs := val count
  let kept := min nnbrs width
  let (nhood, vamana) := vamana.read (kept * 4)
  let vamana := if width < nnbrs then vamana.skip ((nnbrs - width) * 4) else vamana
  match s.base.read vecLen with
  | .error e => .error e
  | .ok (coords, base) =>
    .ok (coords ++ le 4 kept ++ nhood ++ List.replicate ((width - kept) * 4) 0,
      { s with vamana := vamana, base := base, curNodeId := s.curNodeId + 1 })

/-- The records of a sector that has room for `room` more. -/
def sectorRecords (vecLen width npts : ℕ) :
    ℕ → LayoutState → Except String (List UInt8 × LayoutState)
  | 0, s => .ok ([], s)
  | room + 1, s =>
    if s.curNodeId < npts then
      match nodeRecord vecLen width s with
      | .error e => .error e
      | .ok (record, s) =>
        match sectorRecords vecLen width npts room s with
        | .error e => .error e
        | .ok (records, s) => .ok (record ++ records, s)
    else .ok ([], s)

def writeSector (vecLen width npts nnodesPerSector : ℕ) (s : LayoutState) :
    Except String LayoutState :=
  match sectorRecords vecLen width npts nnodesPerSector s with
  | .error e => .error e
  | .ok (records, s) => .ok { s with writer := s.writer.write (padTo 0 sectorLen records) }

/-- One node that has sectors of its own. -/
def writeMultiSector (vecLen width nsectorsPerNode : ℕ) (s : LayoutState) :
    Except String LayoutState :=
  match nodeRecord vecLen width s with
  | .error e => .error e
  | .ok (record, s) =>
    .ok { s with writer := s.writer.write (padTo 0 (nsectorsPerNode * sectorLen) record) }

/-- A step of the writer, `n` times. -/
def writeTimes (step : LayoutState → Except String LayoutState) :
    ℕ → LayoutState → Except String LayoutState
  | 0, s => .ok s
  | n + 1, s => match step s with
    | .error e => .error e
    | .ok s => writeTimes step n s

def nSectors (npts maxNodeLen : ℕ) : ℕ :=
  if 0 < sectorLen / maxNodeLen then divRoundUp npts (sectorLen / maxNodeLen)
  else npts * divRoundUp maxNodeLen sectorLen

/-- `output_file_meta`, without data for reordering. -/
def outputFileMeta (npts ndims medoid maxNodeLen frozenNum : ℕ) : List ℕ :=
  [npts, ndims, medoid, maxNodeLen, sectorLen / maxNodeLen, frozenNum,
    if frozenNum = 1 then medoid else 0, 0, (nSectors npts maxNodeLen + 1) * sectorLen]

/-- `save_bin` of 64-bit values as one column, over the front of a file. -/
def saveBin (file : List UInt8) (data : List ℕ) : List UInt8 :=
  overwrite file 0 (le 4 data.length ++ le 4 1 ++ cells 8 data)

/-- The nodes, written behind the sector of the metadata. -/
def writeNodes (vecLen width npts maxNodeLen : ℕ) (s : LayoutState) : Except String LayoutState :=
  let nnodesPerSector := sectorLen / maxNodeLen
  if 0 < nnodesPerSector then
    writeTimes (writeSector vecLen width npts nnodesPerSector) (nSectors npts maxNodeLen) s
  else writeTimes (writeMultiSector vecLen width (divRoundUp maxNodeLen sectorLen)) npts s

/-- `create_disk_layout`, without data for reordering. -/
def createDiskLayout (elemSize : ℕ) (baseFile memIndexFile : List UInt8) :
    Except String (List UInt8) :=
  let blkSize := 64 * 1024 * 1024
  match (CachedIfstream.openFile baseFile blkSize).read 4 with
  | .error e => .error e
  | .ok (npts, base) =>
    match base.read 4 with
    | .error e => .error e
    | .ok (ndims, base) =>
      let npts := val npts
      let ndims := val ndims
      let (indexFileSize, vamana) := (⟨true, memIndexFile⟩ : Ifstream).read 8
      if val indexFileSize ≠ memIndexFile.length then
        .error "Vamana Index file size does not match expected size per meta-data."
      else
        let (width, vamana) := vamana.read 4
        let (medoid, vamana) := vamana.read 4
        let (frozenNum, vamana) := vamana.read 8
        let width := val width
        let len := maxNodeLen elemSize ndims width
        let writer := (CachedOfstream.openFile blkSize).write (List.replicate sectorLen 0)
        match writeNodes (ndims * elemSize) width npts len ⟨vamana, base, writer, 0⟩ with
        | .error e => .error e
        | .ok s =>
          .ok (saveBin s.writer.close (outputFileMeta npts ndims (val medoid) len (val frozenNum)))

/-! ### What is written -/

/-- A base vector file and a graph over the same nodes. -/
structure DiskInput where
  elemSize : ℕ
  ndims : ℕ
  width : ℕ
  medoid : ℕ
  frozenNum : ℕ
  vecs : List (List UInt8)
  adj : List (List ℕ)
  ndims_lt : ndims < 2 ^ 32
  width_lt : width < 2 ^ 32
  medoid_lt : medoid < 2 ^ 32
  frozenNum_lt : frozenNum < 2 ^ 64
  npts_lt : vecs.length < 2 ^ 32
  length_adj : adj.length = vecs.length
  vec_length : ∀ v ∈ vecs, v.length = ndims * elemSize
  node_fits : ∀ nb ∈ adj, FitsNode nb
  size_lt : 24 + (memIndexNodes adj).length < 2 ^ 64

namespace DiskInput

variable (D : DiskInput)

def npts : ℕ := D.vecs.length

def vecLen : ℕ := D.ndims * D.elemSize

def nodeLen : ℕ := maxNodeLen D.elemSize D.ndims D.width

def vec (i : ℕ) : List UInt8 := D.vecs.getD i []

def nbr (i : ℕ) : List ℕ := D.adj.getD i []

/-- The neighbours of a node that have room in its record. -/
def kept (i : ℕ) : List ℕ := (D.nbr i).take D.width

def baseFile : List UInt8 := le 4 D.npts ++ le 4 D.ndims ++ D.vecs.flatten

def memIndexFile : List UInt8 :=
  memIndexHdr (24 + (memIndexNodes D.adj).length) D.width D.medoid D.frozenNum ++
    memIndexNodes D.adj

def record (i : ℕ) : List UInt8 :=
  D.vec i ++ le 4 (D.kept i).length ++ cells 4 (D.kept i) ++
    List.replicate ((D.width - (D.kept i).length) * 4) 0

variable {D}

theorem length_vec {i : ℕ} (hi : i < D.npts) : (D.vec i).length = D.vecLen := by
  rw [vec, List.getD_eq_getElem _ _ hi]
  exact D.vec_length _ (List.getElem_mem hi)

theorem nbr_fits {i : ℕ} (hi : i < D.npts) : FitsNode (D.nbr i) := by
  have hi' : i < D.adj.length := hi.trans_eq D.length_adj.symm
  rw [nbr, List.getD_eq_getElem _ _ hi']
  exact D.node_fits _ (List.getElem_mem hi')

theorem length_record {i : ℕ} (hi : i < D.npts) : (D.record i).length = D.nodeLen := by
  have hk : (D.kept i).length ≤ D.width := List.length_take_le _ _
  simp only [record, List.length_append, length_vec hi, length_le, length_cells,
    List.length_replicate]
  rw [nodeLen, maxNodeLen, vecLen]
  omega

structure At (D : DiskInput) (i : ℕ) (s : LayoutState) : Prop where
  vamana : s.vamana = ⟨true, memIndexNodes (D.adj.drop i)⟩
  base : s.base.contents = (D.vecs.drop i).flatten
  cur : s.curNodeId = i

theorem At.nodeRecord {i : ℕ} {s : LayoutState} (h : At D i s) (hi : i < D.npts) :
    ∃ s', nodeRecord D.vecLen D.width s = .ok (D.record i, s') ∧ At D (i + 1) s' ∧
      s'.writer = s.writer := by
  have hi' : i < D.adj.length := hi.trans_eq D.length_adj.symm
  have hnbr : D.adj[i] = D.nbr i := by rw [nbr, List.getD_eq_getElem _ _ hi']
  have hi'' : i < D.vecs.length := hi
  have hvec : D.vecs[i] = D.vec i := by rw [vec, List.getD_eq_getElem _ _ hi'']
  have hkept : min (D.nbr i).length D.width = (D.kept i).length := by
    rw [kept, List.length_take, min_comm]
  have hcells : cells 4 (D.nbr i) = cells 4 (D.kept i) ++ cells 4 ((D.nbr i).drop D.width) := by
    rw [← cells_append, kept, List.take_append_drop]
  have hgraph : s.vamana = ⟨true, le 4 (D.nbr i).length ++ (cells 4 (D.kept i) ++
      (cells 4 ((D.nbr i).drop D.width) ++ memIndexNodes (D.adj.drop (i + 1))))⟩ := by
    rw [h.vamana, List.drop_eq_getElem_cons hi', memIndexNodes_cons, hnbr, memIndexNode, hcells]
    simp only [List.append_assoc]
  have hcount : val (le 4 (D.nbr i).length) = (D.nbr i).length :=
    val_le_of_lt ((nbr_fits hi).deg_lt.trans_eq (by norm_num))
  have hnhood := Ifstream.read_append (n := (D.kept i).length * 4) (cells 4 (D.kept i))
    (cells 4 ((D.nbr i).drop D.width) ++ memIndexNodes (D.adj.drop (i + 1)))
    (by rw [length_cells, Nat.mul_comm])
  -- the neighbours that have no room are passed over
  have hskip : (if D.width < (D.nbr i).length then
      Ifstream.skip ⟨true, cells 4 ((D.nbr i).drop D.width) ++ memIndexNodes (D.adj.drop (i + 1))⟩
        (((D.nbr i).length - D.width) * 4)
      else ⟨true, cells 4 ((D.nbr i).drop D.width) ++ memIndexNodes (D.adj.drop (i + 1))⟩) =
      ⟨true, memIndexNodes (D.adj.drop (i + 1))⟩ := by
    split_ifs with hw
    · exact Ifstream.skip_append _ _ (by rw [length_cells, List.length_drop, Nat.mul_comm])
    · rw [List.drop_of_length_le (by omega)]
      rfl
  have hbase : s.base.contents = D.vec i ++ (D.vecs.drop (i + 1)).flatten := by
    rw [h.base, List.drop_eq_getElem_cons hi'', List.flatten_cons, hvec]
  obtain ⟨base, hread, hrest⟩ := CachedIfstream.read_eq (r := s.base) (n := D.vecLen) (by
    rw [hbase, List.length_append, length_vec hi]
    omega)
  rw [hbase, List.take_left' (length_vec hi)] at hread
  rw [hbase, List.drop_left' (length_vec hi)] at hrest
  refine ⟨⟨⟨true, memIndexNodes (D.adj.drop (i + 1))⟩, base, s.writer, s.curNodeId + 1⟩, ?_,
    ⟨rfl, hrest, congrArg (· + 1) h.cur⟩, rfl⟩
  rw [Disk.nodeRecord, hgraph, Ifstream.read_append _ _ (length_le 4 _)]
  dsimp only
  rw [hcount, hkept, hnhood]
  dsimp only
  rw [hskip, hread]
  rfl

theorem At.sectorRecords {i : ℕ} {s : LayoutState} (room : ℕ) (h : At D i s) :
    ∃ s', sectorRecords D.vecLen D.width D.npts room s =
        .ok ((List.range' i (min room (D.npts - i))).flatMap D.record, s') ∧
      At D (i + min room (D.npts - i)) s' ∧ s'.writer = s.writer := by
  induction room generalizing i s with
  | zero =>
    refine ⟨s, ?_, ?_, rfl⟩
    · rw [Disk.sectorRecords, Nat.zero_min]
      rfl
    · rwa [Nat.zero_min]
  | succ room ih =>
    rw [Disk.sectorRecords, h.cur]
    by_cases hi : i < D.npts
    · obtain ⟨s₁, h₁, hat₁, hw₁⟩ := h.nodeRecord hi
      obtain ⟨s₂, h₂, hat₂, hw₂⟩ := ih hat₁
      have hcount : min (room + 1) (D.npts - i) = min room (D.npts - (i + 1)) + 1 := by omega
      refine ⟨s₂, ?_, ?_, hw₂.trans hw₁⟩
      · rw [if_pos hi, h₁]
        dsimp only
        rw [h₂, hcount, List.range'_succ, List.flatMap_cons]
      · rwa [hcount, ← Nat.add_assoc, Nat.add_right_comm]
    · have hcount : min (room + 1) (D.npts - i) = 0 := by omega
      refine ⟨s, ?_, ?_, rfl⟩
      · rw [if_neg hi, hcount]
        rfl
      · rwa [hcount]

/-- Blocks of records are written one after another. -/
theorem writeTimes_pack {S k : ℕ} {step : LayoutState → Except String LayoutState}
    (hstep : ∀ b s, b * k < D.npts → At D (b * k) s → ∃ s', step s = .ok s' ∧
      At D (min D.npts ((b + 1) * k)) s' ∧
      s'.writer.close = s.writer.close ++ padTo 0 S (blockRecords k D.npts D.record b))
    (m b : ℕ) {s : LayoutState} (hat : At D (min D.npts (b * k)) s)
    (hm : ∀ b' < b + m, b' * k < D.npts) {front : List UInt8}
    (hclose : s.writer.close = front ++ pack 0 S k D.npts D.record b) :
    ∃ s', writeTimes step m s = .ok s' ∧
      s'.writer.close = front ++ pack 0 S k D.npts D.record (b + m) := by
  induction m generalizing b s with
  | zero => exact ⟨s, rfl, hclose⟩
  | succ m ih =>
    have hlt := hm b (by omega)
    rw [min_eq_right hlt.le] at hat
    obtain ⟨s₁, h₁, hat₁, hw₁⟩ := hstep b s hlt hat
    rw [hclose, List.append_assoc, ← pack_succ] at hw₁
    obtain ⟨s₂, h₂, hw₂⟩ := ih (b + 1) hat₁ (fun b' hb' => hm b' (by omega)) hw₁
    refine ⟨s₂, ?_, ?_⟩
    · rw [writeTimes, h₁]
      exact h₂
    · rw [hw₂, Nat.add_right_comm, Nat.add_assoc]

variable (D)

def perBlock : ℕ := if 0 < sectorLen / D.nodeLen then sectorLen / D.nodeLen else 1

def blockSize : ℕ := roundUp D.nodeLen sectorLen

def nodeBlocks : List UInt8 :=
  pack 0 D.blockSize D.perBlock D.npts D.record (divRoundUp D.npts D.perBlock)

def fileMeta : List ℕ := outputFileMeta D.npts D.ndims D.medoid D.nodeLen D.frozenNum

def metaSector : List UInt8 :=
  le 4 9 ++ le 4 1 ++ cells 8 D.fileMeta ++ List.replicate (sectorLen - 80) 0

variable {D}

theorem nodeLen_pos : 0 < D.nodeLen := by
  rw [nodeLen, maxNodeLen]
  omega

theorem sectorLen_pos : 0 < sectorLen := by decide

theorem perBlock_pos : 0 < D.perBlock := by
  unfold perBlock
  split_ifs with h
  · exact h
  · exact Nat.one_pos

/-- Records that share a sector make blocks of one sector. -/
theorem blockSize_of_shared (h : 0 < sectorLen / D.nodeLen) : D.blockSize = sectorLen :=
  roundUp_of_le nodeLen_pos (Nat.div_pos_iff.mp h).2

theorem nodeLen_mul_perBlock : D.nodeLen * D.perBlock ≤ D.blockSize := by
  unfold perBlock
  split_ifs with h
  · rw [blockSize_of_shared h]
    exact Nat.mul_div_le _ _
  · rw [Nat.mul_one]
    exact le_roundUp sectorLen_pos

theorem length_metaSector : D.metaSector.length = sectorLen := by
  have hmeta : D.fileMeta.length = 9 := rfl
  simp only [metaSector, List.length_append, length_le, length_cells, List.length_replicate, hmeta]
  decide

theorem At.writeSector {b : ℕ} {s : LayoutState} (hnn : 0 < sectorLen / D.nodeLen)
    (hb : b * D.perBlock < D.npts) (hat : At D (b * D.perBlock) s) :
    ∃ s', Disk.writeSector D.vecLen D.width D.npts D.perBlock s = .ok s' ∧
      At D (min D.npts ((b + 1) * D.perBlock)) s' ∧ s'.writer.close = s.writer.close ++
        padTo 0 D.blockSize (blockRecords D.perBlock D.npts D.record b) := by
  have hS : D.blockSize = sectorLen := blockSize_of_shared hnn
  have hnext : min D.npts ((b + 1) * D.perBlock) =
      b * D.perBlock + min D.perBlock (D.npts - b * D.perBlock) := by
    rw [Nat.add_mul, Nat.one_mul]
    omega
  obtain ⟨s', h', hat', hw'⟩ := hat.sectorRecords D.perBlock
  refine ⟨{ s' with writer := s'.writer.write (padTo 0 sectorLen
    (blockRecords D.perBlock D.npts D.record b)) }, ?_, ?_, ?_⟩
  · rw [Disk.writeSector, h']
    rfl
  · rw [hnext]
    exact ⟨hat'.vamana, hat'.base, hat'.cur⟩
  · rw [CachedOfstream.close_write, hw', hS]

theorem At.writeMultiSector {b : ℕ} {s : LayoutState} (hnn : ¬ 0 < sectorLen / D.nodeLen)
    (hb : b * D.perBlock < D.npts) (hat : At D (b * D.perBlock) s) :
    ∃ s', Disk.writeMultiSector D.vecLen D.width (divRoundUp D.nodeLen sectorLen) s = .ok s' ∧
      At D (min D.npts ((b + 1) * D.perBlock)) s' ∧ s'.writer.close = s.writer.close ++
        padTo 0 D.blockSize (blockRecords D.perBlock D.npts D.record b) := by
  have hk : D.perBlock = 1 := if_neg hnn
  have hS : D.blockSize = divRoundUp D.nodeLen sectorLen * sectorLen := rfl
  rw [hk, Nat.mul_one] at hb hat
  obtain ⟨s', h', hat', hw'⟩ := hat.nodeRecord hb
  have hblock : blockRecords D.perBlock D.npts D.record b = D.record b := by
    rw [hk, blockRecords, Nat.mul_one, min_eq_left (by omega), List.range'_one,
      List.flatMap_singleton]
  refine ⟨{ s' with writer := s'.writer.write (padTo 0
    (divRoundUp D.nodeLen sectorLen * sectorLen) (D.record b)) }, ?_, ?_, ?_⟩
  · rw [Disk.writeMultiSector, h']
  · rw [hk, Nat.mul_one, min_eq_right (by omega)]
    exact ⟨hat'.vamana, hat'.base, hat'.cur⟩
  · rw [CachedOfstream.close_write, hw', hS, hblock]

theorem writeNodes_ok {s : LayoutState} (h : At D 0 s) :
    ∃ s', writeNodes D.vecLen D.width D.npts D.nodeLen s = .ok s' ∧
      s'.writer.close = s.writer.close ++ D.nodeBlocks := by
  have hat : At D (min D.npts (0 * D.perBlock)) s := by rwa [Nat.zero_mul, Nat.min_zero]
  have hblocks : ∀ b < 0 + divRoundUp D.npts D.perBlock, b * D.perBlock < D.npts := by
    intro b hb
    rw [Nat.zero_add] at hb
    exact mul_lt_of_lt_divRoundUp perBlock_pos hb
  have hfront : s.writer.close =
      s.writer.close ++ pack 0 D.blockSize D.perBlock D.npts D.record 0 := by
    rw [pack, List.range_zero, List.flatMap_nil, List.append_nil]
  have hrun : ∀ step : LayoutState → Except String LayoutState,
      (∀ b s, b * D.perBlock < D.npts → At D (b * D.perBlock) s → ∃ s', step s = .ok s' ∧
        At D (min D.npts ((b + 1) * D.perBlock)) s' ∧ s'.writer.close = s.writer.close ++
          padTo 0 D.blockSize (blockRecords D.perBlock D.npts D.record b)) →
      ∃ s', writeTimes step (divRoundUp D.npts D.perBlock) s = .ok s' ∧
        s'.writer.close = s.writer.close ++ D.nodeBlocks := by
    intro step hstep
    have := writeTimes_pack hstep _ 0 hat hblocks hfront
    rwa [Nat.zero_add] at this
  unfold writeNodes
  by_cases hnn : 0 < sectorLen / D.nodeLen
  · have hk : D.perBlock = sectorLen / D.nodeLen := if_pos hnn
    have hn : nSectors D.npts D.nodeLen = divRoundUp D.npts D.perBlock := by
      rw [nSectors, if_pos hnn, hk]
    rw [if_pos hnn, hn, ← hk]
    exact hrun _ fun b s hb hat => hat.writeSector hnn hb
  · have hk : D.perBlock = 1 := if_neg hnn
    have hn : D.npts = divRoundUp D.npts D.perBlock := by
      rw [hk, divRoundUp_one]
    rw [if_neg hnn]
    conv =>
      enter [1, s', 1, 1]
      rw [hn]
    exact hrun _ fun b s hb hat => hat.writeMultiSector hnn hb

/-- Saving the metadata fills the front of the sector that was left for it. -/
theorem saveBin_fileMeta (D : DiskInput) :
    saveBin (List.replicate sectorLen 0 ++ D.nodeBlocks) D.fileMeta =
      D.metaSector ++ D.nodeBlocks := by
  have hmeta : D.fileMeta.length = 9 := rfl
  have hsplit : List.replicate sectorLen (0 : UInt8) =
      List.replicate 80 0 ++ List.replicate (sectorLen - 80) 0 := by
    rw [← List.replicate_add]
    rfl
  rw [saveBin, hmeta, hsplit, List.append_assoc, overwrite_front _ _ _ (by
    simp only [List.length_append, length_le, length_cells, List.length_replicate, hmeta]),
    metaSector]
  simp only [List.append_assoc]

theorem createDiskLayout_eq (D : DiskInput) :
    createDiskLayout D.elemSize D.baseFile D.memIndexFile = .ok (D.metaSector ++ D.nodeBlocks) := by
  have hval : ∀ {w n : ℕ}, n < 256 ^ w → val (le w n) = n := val_le_of_lt
  have hnpts : val (le 4 D.npts) = D.npts := hval (D.npts_lt.trans_eq (by norm_num))
  have hndims : val (le 4 D.ndims) = D.ndims := hval (D.ndims_lt.trans_eq (by norm_num))
  have hwidth : val (le 4 D.width) = D.width := hval (D.width_lt.trans_eq (by norm_num))
  have hmedoid : val (le 4 D.medoid) = D.medoid := hval (D.medoid_lt.trans_eq (by norm_num))
  have hfrozen : val (le 8 D.frozenNum) = D.frozenNum :=
    hval (D.frozenNum_lt.trans_eq (by norm_num))
  have hsize : val (le 8 (24 + (memIndexNodes D.adj).length)) = D.memIndexFile.length := by
    rw [hval (D.size_lt.trans_eq (by norm_num)), memIndexFile, List.length_append,
      length_memIndexHdr]
  have hgraph : D.memIndexFile = le 8 (24 + (memIndexNodes D.adj).length) ++ (le 4 D.width ++
      (le 4 D.medoid ++ (le 8 D.frozenNum ++ memIndexNodes D.adj))) := by
    rw [memIndexFile, memIndexHdr]
    simp only [List.append_assoc]
  -- the header of the base file
  obtain ⟨b₁, hread₁, hrest₁⟩ := CachedIfstream.read_eq
    (r := CachedIfstream.openFile D.baseFile (64 * 1024 * 1024)) (n := 4) (by simp [baseFile])
  rw [CachedIfstream.contents_openFile, baseFile, List.append_assoc,
    List.take_left' (length_le 4 _)] at hread₁
  rw [CachedIfstream.contents_openFile, baseFile, List.append_assoc,
    List.drop_left' (length_le 4 _)] at hrest₁
  obtain ⟨b₂, hread₂, hrest₂⟩ := CachedIfstream.read_eq (r := b₁) (n := 4) (by
    rw [hrest₁]
    simp)
  rw [hrest₁, List.take_left' (length_le 4 _)] at hread₂
  rw [hrest₁, List.drop_left' (length_le 4 _)] at hrest₂
  -- the nodes
  have hwriter := CachedOfstream.close_write (CachedOfstream.openFile (64 * 1024 * 1024))
    (List.replicate sectorLen 0)
  rw [CachedOfstream.close_openFile, List.nil_append] at hwriter
  generalize hw : (CachedOfstream.openFile (64 * 1024 * 1024)).write
    (List.replicate sectorLen 0) = w at hwriter
  have hat : At D 0 ⟨⟨true, memIndexNodes D.adj⟩, b₂, w, 0⟩ := ⟨rfl, hrest₂, rfl⟩
  obtain ⟨s, hrun, hclose⟩ := writeNodes_ok hat
  rw [show (LayoutState.writer ⟨⟨true, memIndexNodes D.adj⟩, b₂, w, 0⟩) = w from rfl,
    hwriter] at hclose
  rw [createDiskLayout]
  dsimp only
  rw [baseFile, List.append_assoc, hread₁]
  dsimp only
  rw [hread₂]
  dsimp only
  rw [hnpts, hndims, hgraph, Ifstream.read_append _ _ (length_le 8 _)]
  dsimp only
  rw [Ifstream.read_append _ _ (length_le 4 _)]
  dsimp only
  rw [Ifstream.read_append _ _ (length_le 4 _)]
  dsimp only
  rw [Ifstream.read_append _ _ (length_le 8 _)]
  dsimp only
  rw [hw, hsize, ← hgraph, if_neg (not_not.mpr rfl), hwidth, hmedoid, hfrozen]
  change (match writeNodes D.vecLen D.width D.npts D.nodeLen _ with
    | .error e => Except.error e
    | .ok s => _) = _
  rw [hrun]
  refine congrArg Except.ok ?_
  rw [hclose]
  exact D.saveBin_fileMeta

end DiskInput

end HiDANN.Disk
