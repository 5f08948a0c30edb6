import HiDANN.Disk.Sources

/-! The disk index is read back. The search takes from the metadata what the writer put
there; the window it reads for a node is the block of sectors that holds the node's
record, and what it decodes is the node's vector and as many of its neighbours as the
width of the graph allows. Lengths are 32-bit on the search side, so the block and a
sector more have to be. -/

namespace HiDANN.Disk

open Bytes Packing

namespace DiskInput

variable (D : DiskInput)

/-- What the writer puts into the metadata. -/
def metadata : DiskIndexMetadata :=
  ⟨D.npts, D.ndims, D.medoid, D.nodeLen, sectorLen / D.nodeLen, D.frozenNum,
    if D.frozenNum = 1 then D.medoid else 0, 0⟩

def search : SigmaSearch := .ofMetadata D.elemSize D.metadata

/-- The lengths of the search side do not wrap. -/
def Readable : Prop := D.blockSize + sectorLen < 2 ^ 32

instance : Decidable D.Readable := inferInstanceAs (Decidable (_ < _))

/-! ### Windows -/

section Window

variable {D}

theorem nnodesPerSectorOf_nodeLen : nnodesPerSectorOf D.nodeLen = sectorLen / D.nodeLen := by
  have hpos := D.nodeLen_pos
  unfold nnodesPerSectorOf
  split_ifs with h
  · have hle : 4096 / D.nodeLen ≤ 4096 := Nat.div_le_self _ _
    exact Nat.mod_eq_of_lt (by omega)
  · exact (Nat.div_eq_of_lt (show sectorLen < D.nodeLen from Nat.lt_of_not_le h)).symm

theorem absOffset_eq (id : ℕ) : absOffset (nnodesPerSectorOf D.nodeLen) D.nodeLen id =
    sectorLen + (D.blockSize * (id / D.perBlock) + D.nodeLen * (id % D.perBlock)) := by
  rw [nnodesPerSectorOf_nodeLen, absOffset]
  unfold perBlock
  split_ifs with h
  · rw [blockSize_of_shared h, sectorLen]
    ring
  · rw [blockSize, roundUp, divRoundUp_eq sectorLen_pos, sectorLen, Nat.div_one, Nat.mod_one]
    ring

theorem record_in_block (id : ℕ) :
    D.nodeLen * (id % D.perBlock) + D.nodeLen ≤ D.blockSize := by
  rw [← Nat.mul_succ]
  exact (Nat.mul_le_mul_left _ (Nat.mod_lt id D.perBlock_pos)).trans D.nodeLen_mul_perBlock

theorem record_sectors (id : ℕ) : D.nodeLen * (id % D.perBlock) < sectorLen ∧
    D.blockSize < D.nodeLen * (id % D.perBlock) + D.nodeLen + sectorLen := by
  have hpos := D.nodeLen_pos
  by_cases h : 0 < sectorLen / D.nodeLen
  · have hin := record_in_block (D := D) id
    rw [blockSize_of_shared h] at hin ⊢
    omega
  · have hk : D.perBlock = 1 := if_neg h
    have hlt : D.blockSize < D.nodeLen + sectorLen := roundUp_lt sectorLen_pos
    have hsec := sectorLen_pos
    rw [hk, Nat.mod_one, Nat.mul_zero]
    omega

theorem sectorWindow_eq (id : ℕ) : sectorWindow (nnodesPerSectorOf D.nodeLen) D.nodeLen id =
    ⟨sectorLen + D.blockSize * (id / D.perBlock), D.blockSize % 2 ^ 32⟩ := by
  have hpos := sectorLen_pos
  have hin := record_in_block (D := D) id
  obtain ⟨hfirst, hlast⟩ := record_sectors (D := D) id
  rw [sectorWindow, absOffset_eq]
  generalize id / D.perBlock = b
  generalize D.nodeLen * (id % D.perBlock) = o at *
  obtain ⟨q, hq⟩ : ∃ q, D.blockSize = q * sectorLen := ⟨_, rfl⟩
  have hblock : (1 + q * b) * sectorLen = sectorLen + D.blockSize * b := by
    rw [hq]
    ring
  have hnext : (1 + q * b + q) * sectorLen = sectorLen + D.blockSize * b + D.blockSize := by
    rw [Nat.add_mul, hblock, hq]
  have hstart : (sectorLen + (D.blockSize * b + o)) / sectorLen = 1 + q * b := by
    rw [Nat.div_eq_iff hpos, hblock]
    omega
  have hend : (sectorLen + (D.blockSize * b + o) + D.nodeLen + sectorLen - 1) / sectorLen =
      1 + q * b + q := by
    rw [Nat.div_eq_iff hpos, hnext]
    omega
  rw [hstart, hend, hblock, hnext, Nat.add_sub_cancel_left]

theorem readBufferSize_eq : readBufferSize D.nodeLen = (D.blockSize + sectorLen) % 2 ^ 32 := by
  rw [readBufferSize, roundUp_add_self sectorLen_pos]
  rfl

end Window

/-! ### Records -/

section Record

variable {D}

theorem count_record {i : ℕ} (hi : i < D.npts) :
    readLe 4 (D.record i) D.vecLen = (D.kept i).length := by
  have hlt : (D.kept i).length < 256 ^ 4 := by
    have := (nbr_fits hi).deg_lt
    have hle : (D.kept i).length ≤ (D.nbr i).length := List.length_take_le' _ _
    norm_num
    omega
  have hs := slice_mid (D.vec i) (le 4 (D.kept i).length)
    (cells 4 (D.kept i) ++ List.replicate ((D.width - (D.kept i).length) * 4) 0)
  rw [length_vec hi, length_le] at hs
  rw [readLe, record]
  simp only [List.append_assoc]
  rw [hs, val_le_of_lt hlt]

theorem neighbors_record {i : ℕ} (hi : i < D.npts) :
    readCells 4 (D.kept i).length ((D.record i).drop (D.vecLen + 4)) = D.kept i := by
  have hlen : (D.vec i ++ le 4 (D.kept i).length).length = D.vecLen + 4 := by
    rw [List.length_append, length_vec hi, length_le]
  rw [record, List.append_assoc _ (cells 4 _), List.drop_left' hlen]
  refine readCells_cells _ (fun v hv => ?_) _
  exact ((nbr_fits hi).id_lt v (List.mem_of_mem_take hv)).trans_eq (by norm_num)

theorem vec_record {i : ℕ} (hi : i < D.npts) : slice (D.record i) 0 D.vecLen = D.vec i := by
  rw [record, slice, List.drop_zero]
  simp only [List.append_assoc]
  exact List.take_left' (length_vec hi)

theorem neighborsAt_eq {i o : ℕ} (hi : i < D.npts) {buf : List UInt8}
    (hbuf : slice buf o D.nodeLen = D.record i) {s : DiskANNGraphSource}
    (hs : s.maxDegree = D.width) : s.neighborsAt buf (o + D.vecLen) = D.kept i := by
  have hk : (D.kept i).length ≤ D.width := List.length_take_le _ _
  have hlen : D.nodeLen = (D.width + 1) * 4 + D.vecLen := rfl
  have hcount : readLe 4 buf (o + D.vecLen) = (D.kept i).length := by
    rw [← count_record hi, ← hbuf, readLe, readLe, slice_slice _ (by omega)]
  rw [DiskANNGraphSource.neighborsAt, hcount, hs, if_neg (by omega), Nat.add_assoc,
    ← readCells_slice 4 _ buf (n := D.nodeLen) (by omega), hbuf]
  exact neighbors_record hi

theorem vecAt_eq {i o : ℕ} (hi : i < D.npts) {buf : List UInt8}
    (hbuf : slice buf o D.nodeLen = D.record i) : slice buf o D.vecLen = D.vec i := by
  have hlen : D.nodeLen = (D.width + 1) * 4 + D.vecLen := rfl
  have h := slice_slice buf (a := o) (n := D.nodeLen) (b := 0) (m := D.vecLen) (by omega)
  rw [hbuf, vec_record hi, Nat.add_zero] at h
  exact h.symm

end Record

/-! ### The parameters of the search -/

/-- The metadata sector is read as it was saved. -/
theorem loadBin_file (D : DiskInput) : loadBin (D.metaSector ++ D.nodeBlocks) =
    .ok (9, 1, D.fileMeta.map fun n => n % 256 ^ 8) := by
  have hsectorLen : sectorLen = 4096 := rfl
  have hmeta : D.fileMeta.length = 9 := rfl
  have hfile : D.metaSector ++ D.nodeBlocks = le 4 9 ++ (le 4 1 ++ (cells 8 D.fileMeta ++
      (List.replicate (sectorLen - 80) 0 ++ D.nodeBlocks))) := by
    simp only [metaSector, List.append_assoc]
  have hdata := readCells_cells_mod (w := 8) D.fileMeta
    (List.replicate (sectorLen - 80) 0 ++ D.nodeBlocks)
  have h0 : readLe 4 (D.metaSector ++ D.nodeBlocks) 0 = 9 := by
    rw [hfile]
    rfl
  have h4 : readLe 4 (D.metaSector ++ D.nodeBlocks) 4 = 1 := by
    rw [hfile]
    rfl
  have h8 : (D.metaSector ++ D.nodeBlocks).drop 8 = cells 8 D.fileMeta ++
      (List.replicate (sectorLen - 80) 0 ++ D.nodeBlocks) := by
    rw [hfile]
    rfl
  rw [hmeta] at hdata
  rw [loadBin, h0, h4, h8, if_neg, hdata]
  rw [List.length_append, D.length_metaSector]
  omega

section Load

variable {D} (hlen : D.nodeLen < 2 ^ 64)

include hlen

theorem search_eq : D.search =
    { elemSize := D.elemSize
      numPoints := D.npts
      dataDim := D.ndims
      medoid := D.medoid
      maxNodeLen := D.nodeLen
      nnodesPerSector := nnodesPerSectorOf D.nodeLen
      maxDegree := D.width
      graphSource := ⟨D.nodeLen, D.width, D.vecLen, nnodesPerSectorOf D.nodeLen⟩
      vectorSource := ⟨D.nodeLen, nnodesPerSectorOf D.nodeLen⟩ } := by
  have hnode : D.nodeLen = (D.width + 1) * 4 + D.vecLen := rfl
  have hwidth := D.width_lt
  have hbytes : D.ndims * D.elemSize % 2 ^ 64 = D.vecLen := Nat.mod_eq_of_lt (by
    rw [← vecLen]
    omega)
  have hsub : SigmaSearch.sub64 D.nodeLen D.vecLen = (D.width + 1) * 4 := by
    rw [SigmaSearch.sub64]
    omega
  have hsub' : SigmaSearch.sub64 ((D.width + 1) * 4) 4 = D.width * 4 := by
    rw [SigmaSearch.sub64]
    omega
  have hdegree : SigmaSearch.sub64 (SigmaSearch.sub64 D.nodeLen D.vecLen) 4 / 4 % 2 ^ 32 =
      D.width := by
    rw [hsub, hsub', Nat.mul_div_cancel _ (by norm_num), Nat.mod_eq_of_lt hwidth]
  rw [search, SigmaSearch.ofMetadata, metadata]
  dsimp only
  rw [hbytes, hdegree, Nat.mod_eq_of_lt D.medoid_lt]
  rfl

theorem load_eq (hpts : 0 < D.npts) (hdims : 0 < D.ndims) (hmedoid : D.medoid < D.npts)
    (diskIndexFile : String) : SigmaSearch.load D.elemSize diskIndexFile
      (D.metaSector ++ D.nodeBlocks) = .ok D.search := by
  have hpos := D.nodeLen_pos
  have hnpts : D.npts < 2 ^ 32 := D.npts_lt
  have hndims := D.ndims_lt
  have hlt := D.medoid_lt
  have hfrozen := D.frozenNum_lt
  have hsector : sectorLen / D.nodeLen ≤ sectorLen := Nat.div_le_self _ _
  have hsectorLen : sectorLen = 4096 := rfl
  have hmod : ∀ n, n < 2 ^ 64 → n % 256 ^ 8 = n := fun n h =>
    Nat.mod_eq_of_lt (h.trans_eq (by norm_num))
  have hloc : (if D.frozenNum = 1 then D.medoid else 0) < 2 ^ 64 := by
    split_ifs <;> omega
  have hdata : (D.fileMeta.map fun n => n % 256 ^ 8) =
      [D.npts, D.ndims, D.medoid, D.nodeLen, sectorLen / D.nodeLen, D.frozenNum,
        if D.frozenNum = 1 then D.medoid else 0, 0,
        (nSectors D.npts D.nodeLen + 1) * sectorLen % 256 ^ 8] := by
    simp only [fileMeta, outputFileMeta, List.map_cons, List.map_nil]
    rw [hmod _ (by omega), hmod _ (by omega), hmod _ (by omega), hmod _ hlen, hmod _ (by omega),
      hmod _ hfrozen, hmod _ hloc, Nat.zero_mod]
  rw [SigmaSearch.load, loadDiskIndexMetadata, loadBin_file, hdata]
  simp only [List.getD_cons_zero, List.getD_cons_succ]
  rw [if_neg (by norm_num), if_neg (by norm_num), if_neg (by omega), if_neg (by omega),
    if_neg (by omega), if_neg (by omega)]
  rfl

end Load

/-! ### Reading a node back -/

/-- What the search gets for a node from a disk index. -/
structure ReadBack (file : List UInt8) (id : ℕ) : Prop where
  aligned : (D.search.graphSource.prepareNodeRead id).offset % sectorLen = 0 ∧
    (D.search.graphSource.prepareNodeRead id).len % sectorLen = 0
  in_file : (D.search.graphSource.prepareNodeRead id).offset +
    (D.search.graphSource.prepareNodeRead id).len ≤ file.length
  covers : (D.search.graphSource.prepareNodeRead id).offset ≤
      absOffset D.search.nnodesPerSector D.search.maxNodeLen id ∧
    absOffset D.search.nnodesPerSector D.search.maxNodeLen id + D.nodeLen ≤
      (D.search.graphSource.prepareNodeRead id).offset +
        (D.search.graphSource.prepareNodeRead id).len
  fits_graph : (D.search.graphSource.prepareNodeRead id).len ≤
    D.search.graphSource.getReadBufferSize
  fits_vector : (D.search.graphSource.prepareNodeRead id).len ≤
    D.search.vectorSource.getReadBufferSize
  batch_agrees : D.search.vectorSource.prepareBatchRead [id] =
    [D.search.graphSource.prepareNodeRead id]
  frontier_agrees : D.search.frontierRead id = D.search.graphSource.prepareNodeRead id
  neighbors : D.search.graphSource.getNeighborsPtr id
    ((D.search.graphSource.prepareNodeRead id).bytes file) = (D.nbr id).take D.width
  parsed : D.search.graphSource.parseNeighbors id
    ((D.search.graphSource.prepareNodeRead id).bytes file) = (D.nbr id).take D.width
  vector : slice ((D.search.graphSource.prepareNodeRead id).bytes file)
    (D.search.vectorSource.getVectorPtr id) (D.search.dataDim * D.search.elemSize) = D.vec id

variable {D}

theorem slice_block {id : ℕ} (hid : id < D.npts) :
    slice (slice (D.metaSector ++ D.nodeBlocks)
      (sectorLen + D.blockSize * (id / D.perBlock)) D.blockSize)
      (D.nodeLen * (id % D.perBlock)) D.nodeLen = D.record id := by
  have hrec : ∀ i < D.npts, (D.record i).length = D.nodeLen := fun i hi => length_record hi
  have hfront := slice_append_add D.metaSector D.nodeBlocks
    (D.blockSize * (id / D.perBlock)) D.blockSize
  rw [length_metaSector] at hfront
  rw [hfront, slice_slice _ (record_in_block id)]
  exact slice_pack 0 hrec nodeLen_mul_perBlock hid (div_lt_divRoundUp perBlock_pos hid)
    perBlock_pos

theorem length_file (D : DiskInput) : (D.metaSector ++ D.nodeBlocks).length =
    sectorLen + D.blockSize * divRoundUp D.npts D.perBlock := by
  rw [List.length_append, length_metaSector, nodeBlocks,
    length_pack 0 (fun i hi => length_record hi) nodeLen_mul_perBlock]

/-- The record's place in the buffer is its offset less the start of the sector. -/
theorem absOffset_sub_sector (id : ℕ) :
    absOffset (nnodesPerSectorOf D.nodeLen) D.nodeLen id -
      absOffset (nnodesPerSectorOf D.nodeLen) D.nodeLen id / sectorLen * sectorLen =
        D.nodeLen * (id % D.perBlock) := by
  have hoff := congrArg AlignedRead.offset (sectorWindow_eq (D := D) id)
  rw [sectorWindow] at hoff
  dsimp only at hoff
  rw [hoff, absOffset_eq]
  omega

/-- The search computes the place in the sector without the offset of the record. -/
theorem mod_nnodesPerSectorOf_mul (id : ℕ) :
    (if 0 < nnodesPerSectorOf D.nodeLen then id % nnodesPerSectorOf D.nodeLen * D.nodeLen else 0) =
      D.nodeLen * (id % D.perBlock) := by
  rw [nnodesPerSectorOf_nodeLen]
  unfold perBlock
  split_ifs
  · exact Nat.mul_comm _ _
  · rw [Nat.mod_one, Nat.mul_zero]

theorem Readable.readBack (h : D.Readable) {id : ℕ} (hid : id < D.npts) :
    D.ReadBack (D.metaSector ++ D.nodeBlocks) id := by
  have hsize : D.blockSize + sectorLen < 2 ^ 32 := h
  have hnode : D.nodeLen ≤ D.blockSize := le_roundUp sectorLen_pos
  have hsearch := search_eq (D := D) (by omega)
  have hin := record_in_block (D := D) id
  have hsector : D.blockSize % sectorLen = 0 := Nat.mul_mod_left _ _
  have hwindow : D.search.graphSource.prepareNodeRead id =
      ⟨sectorLen + D.blockSize * (id / D.perBlock), D.blockSize⟩ := by
    rw [hsearch, DiskANNGraphSource.prepareNodeRead, sectorWindow_eq, Nat.mod_eq_of_lt (by omega)]
  have hbytes : (D.search.graphSource.prepareNodeRead id).bytes
      (D.metaSector ++ D.nodeBlocks) = slice (D.metaSector ++ D.nodeBlocks)
        (sectorLen + D.blockSize * (id / D.perBlock)) D.blockSize := by
    rw [hwindow]
    rfl
  have hrecord := slice_block hid
  have hbuf : readBufferSize D.nodeLen = D.blockSize + sectorLen := by
    rw [readBufferSize_eq, Nat.mod_eq_of_lt hsize]
  refine ⟨?aligned, ?in_file, ?covers, ?fits_graph, ?fits_vector, ?batch, ?frontier, ?neighbors,
    ?parsed, ?vector⟩
  case aligned =>
    rw [hwindow]
    refine ⟨?_, hsector⟩
    rw [Nat.add_mod_left, Nat.mul_mod, hsector, Nat.zero_mul, Nat.zero_mod]
  case in_file =>
    have hlt := div_lt_divRoundUp D.perBlock_pos hid
    have hle := Nat.mul_le_mul_left D.blockSize (show id / D.perBlock + 1 ≤ _ from hlt)
    rw [Nat.mul_succ] at hle
    rw [hwindow, length_file]
    dsimp only
    omega
  case covers =>
    rw [hwindow, hsearch]
    dsimp only
    rw [absOffset_eq]
    omega
  case fits_graph =>
    rw [hwindow, hsearch, DiskANNGraphSource.getReadBufferSize, hbuf]
    dsimp only
    omega
  case fits_vector =>
    rw [hwindow, hsearch, DiskANNVectorSource.getReadBufferSize, hbuf]
    dsimp only
    omega
  case batch =>
    rw [hsearch]
    rfl
  case frontier =>
    rw [hsearch]
    rfl
  case neighbors =>
    rw [hbytes, hsearch, DiskANNGraphSource.getNeighborsPtr]
    dsimp only
    rw [mod_nnodesPerSectorOf_mul]
    exact neighborsAt_eq hid hrecord rfl
  case parsed =>
    rw [hbytes, hsearch, DiskANNGraphSource.parseNeighbors]
    dsimp only
    rw [absOffset_sub_sector]
    exact neighborsAt_eq hid hrecord rfl
  case vector =>
    rw [hbytes, hsearch, DiskANNVectorSource.getVectorPtr]
    dsimp only
    rw [absOffset_sub_sector]
    exact vecAt_eq hid hrecord

/-- Where a length wraps, the window no longer holds the record or exceeds the buffer. -/
theorem not_readBack (hlen : D.nodeLen < 2 ^ 64) (h : ¬ D.Readable) (file : List UInt8) (id : ℕ) :
    ¬ D.ReadBack file id := by
  intro hread
  have hover : ¬ D.blockSize + sectorLen < 2 ^ 32 := h
  have hnode : D.blockSize < D.nodeLen + sectorLen := roundUp_lt sectorLen_pos
  have hsectorLen : sectorLen = 4096 := rfl
  have hcovers := hread.covers.2
  have hfits := hread.fits_graph
  rw [search_eq hlen, DiskANNGraphSource.prepareNodeRead, sectorWindow_eq] at hcovers hfits
  rw [DiskANNGraphSource.getReadBufferSize, readBufferSize_eq] at hfits
  dsimp only at hcovers hfits
  rw [absOffset_eq] at hcovers
  omega

end DiskInput

/-- The writer of the disk index and the search side of it are inverse where the lengths
of the search side do not wrap. -/
theorem disk_index_reads_back (D : DiskInput) (h : D.Readable) : ∃ file,
    createDiskLayout D.elemSize D.baseFile D.memIndexFile = .ok file ∧
    (0 < D.npts → 0 < D.ndims → D.medoid < D.npts → ∀ diskIndexFile,
      SigmaSearch.load D.elemSize diskIndexFile file = .ok D.search) ∧
    ∀ id < D.npts, D.ReadBack file id := by
  have hsize : D.blockSize + sectorLen < 2 ^ 32 := h
  have hnode : D.nodeLen ≤ D.blockSize := le_roundUp DiskInput.sectorLen_pos
  refine ⟨_, D.createDiskLayout_eq, ?_, fun id hid => h.readBack hid⟩
  exact fun hpts hdims hmedoid name => DiskInput.load_eq (by omega) hpts hdims hmedoid name

/-- Three points of one coordinate, one of them with more neighbours than there is room. -/
def threePoints : DiskInput where
  elemSize := 1
  ndims := 1
  width := 1
  medoid := 0
  frozenNum := 0
  vecs := [[5], [7], [9]]
  adj := [[1, 2], [], [0]]
  ndims_lt := by decide
  width_lt := by decide
  medoid_lt := by decide
  frozenNum_lt := by decide
  npts_lt := by decide
  length_adj := rfl
  vec_length := by decide
  node_fits nb hnb := by
    simp only [List.mem_cons, List.not_mem_nil, or_false] at hnb
    rcases hnb with rfl | rfl | rfl <;> exact ⟨by decide, by decide⟩
  size_lt := by decide

theorem three_points_read_back : ∃ file,
    createDiskLayout 1 threePoints.baseFile threePoints.memIndexFile = .ok file ∧
    SigmaSearch.load 1 "disk.index" file = .ok threePoints.search ∧
    threePoints.search.graphSource.getNeighborsPtr 0
      ((threePoints.search.graphSource.prepareNodeRead 0).bytes file) = [1] := by
  obtain ⟨file, hfile, hload, hread⟩ := disk_index_reads_back threePoints (by decide)
  exact ⟨file, hfile, hload (by decide) (by decide) (by decide) _,
    (hread 0 (by decide)).neighbors⟩

/-- One point whose record has room for `2 ^ 30` neighbours. -/
def wideRecord : DiskInput where
  elemSize := 4
  ndims := 1
  width := 2 ^ 30
  medoid := 0
  frozenNum := 0
  vecs := [[0, 0, 0, 0]]
  adj := [[]]
  ndims_lt := by decide
  width_lt := by norm_num
  medoid_lt := by decide
  frozenNum_lt := by decide
  npts_lt := by decide
  length_adj := rfl
  vec_length := by decide
  node_fits nb hnb := by
    rw [List.mem_singleton.mp hnb]
    exact ⟨by decide, by decide⟩
  size_lt := by decide

/-- The length of the window of a wide record wraps. -/
theorem wide_record_not_read_back : ∃ file,
    createDiskLayout wideRecord.elemSize wideRecord.baseFile wideRecord.memIndexFile = .ok file ∧
      ¬ wideRecord.ReadBack file 0 := by
  have hlen : wideRecord.nodeLen = 2 ^ 32 + 8 := by
    rw [DiskInput.nodeLen, maxNodeLen]
    rfl
  have hle : wideRecord.nodeLen ≤ wideRecord.blockSize := le_roundUp (by decide)
  refine ⟨_, wideRecord.createDiskLayout_eq, DiskInput.not_readBack ?_ (fun h => ?_) _ 0⟩
  · rw [hlen]
    norm_num
  · have hsize : wideRecord.blockSize + sectorLen < 2 ^ 32 := h
    omega

end HiDANN.Disk
