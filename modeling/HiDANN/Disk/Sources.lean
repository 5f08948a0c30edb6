import HiDANN.Disk.Layout

/-! The search side of the disk index. `SigmaSearch::load` takes its parameters from
the metadata in the first sector. A node is read through a window of whole sectors
around its record; the graph source, the vector source and the beam search compute the
window each for itself, and decode the record where they expect it in the buffer. -/

namespace HiDANN.Disk

open Bytes Packing

/-! ### The metadata -/

structure DiskIndexMetadata where
  numPoints : ℕ
  dataDim : ℕ
  medoid : ℕ
  maxNodeLen : ℕ
  nnodesPerSector : ℕ
  frozenNum : ℕ
  frozenLoc : ℕ
  appendReorderData : ℕ

/-- `load_bin<uint64_t>`: the rows, the columns and the values. -/
def loadBin (file : List UInt8) : Except String (ℕ × ℕ × List ℕ) :=
  let npts := readLe 4 file 0
  let dim := readLe 4 file 4
  if file.length < 8 + npts * dim * 8 then .error "read beyond the end of the file"
  else .ok (npts, dim, readCells 8 (npts * dim) (file.drop 8))

/-- `load_disk_index_metadata`; entries the file does not have are zero. -/
def loadDiskIndexMetadata (file : List UInt8) : Except String DiskIndexMetadata :=
  match loadBin file with
  | .error e => .error e
  | .ok (metaCount, metaDim, data) =>
    if metaDim ≠ 1 then .error ("metadata dim must be 1, got " ++ toString metaDim)
    else if metaCount < 4 then
      .error ("metadata must contain at least 4 uint64 entries, got " ++ toString metaCount)
    else
      let parsed : DiskIndexMetadata :=
        ⟨data.getD 0 0, data.getD 1 0, data.getD 2 0, data.getD 3 0, data.getD 4 0, data.getD 5 0,
          data.getD 6 0, data.getD 7 0⟩
      if parsed.numPoints = 0 then .error "num_points must be > 0"
      else if parsed.dataDim = 0 then .error "data_dim must be > 0"
      else if parsed.maxNodeLen = 0 then .error "max_node_len must be > 0"
      else if parsed.numPoints ≤ parsed.medoid then
        .error ("medoid " ++ toString parsed.medoid ++ " is out of range for num_points " ++
          toString parsed.numPoints)
      else .ok parsed

/-! ### Windows -/

/-- A request to the reader; where it reads to is left out. -/
structure AlignedRead where
  offset : ℕ
  len : ℕ

/-- The records in a sector, none for records that have sectors of their own. -/
def nnodesPerSectorOf (maxNodeLen : ℕ) : ℕ :=
  if maxNodeLen ≤ 4096 then 4096 / maxNodeLen % 2 ^ 32 else 0

/-- Where the record of a node starts. -/
def absOffset (nnodesPerSector maxNodeLen id : ℕ) : ℕ :=
  if 0 < nnodesPerSector then
    (id / nnodesPerSector + 1) * 4096 + id % nnodesPerSector * maxNodeLen
  else 4096 + id * ((maxNodeLen + 4095) / 4096 * 4096)

/-- The sectors around the record; the length is 32-bit. -/
def sectorWindow (nnodesPerSector maxNodeLen id : ℕ) : AlignedRead :=
  let start := absOffset nnodesPerSector maxNodeLen id / sectorLen * sectorLen
  let stop := (absOffset nnodesPerSector maxNodeLen id + maxNodeLen + sectorLen - 1) /
    sectorLen * sectorLen
  ⟨start, (stop - start) % 2 ^ 32⟩

/-- `get_read_buffer_size`, 32-bit. -/
def readBufferSize (maxNodeLen : ℕ) : ℕ := roundUp (maxNodeLen + sectorLen) sectorLen % 2 ^ 32

/-! ### The sources -/

structure DiskANNGraphSource where
  maxNodeLen : ℕ
  maxDegree : ℕ
  diskBytesPerPoint : ℕ
  nnodesPerSector : ℕ

namespace DiskANNGraphSource

def new (maxNodeLen maxDegree diskBytesPerPoint : ℕ) : DiskANNGraphSource :=
  ⟨maxNodeLen, maxDegree, diskBytesPerPoint, nnodesPerSectorOf maxNodeLen⟩

variable (s : DiskANNGraphSource)

def prepareNodeRead (id : ℕ) : AlignedRead := sectorWindow s.nnodesPerSector s.maxNodeLen id

def getReadBufferSize : ℕ := readBufferSize s.maxNodeLen

/-- The list whose count stands at `ptr`, with the count limited by the degree. -/
def neighborsAt (buf : List UInt8) (ptr : ℕ) : List ℕ :=
  let k := readLe 4 buf ptr
  let k := if s.maxDegree < k then s.maxDegree else k
  readCells 4 k (buf.drop (ptr + 4))

def parseNeighbors (id : ℕ) (buf : List UInt8) : List ℕ :=
  let offset := absOffset s.nnodesPerSector s.maxNodeLen id
  s.neighborsAt buf (offset - offset / sectorLen * sectorLen + s.diskBytesPerPoint)

/-- `get_neighbors_ptr`, as the list it points to. -/
def getNeighborsPtr (id : ℕ) (buf : List UInt8) : List ℕ :=
  let offsetInBuf :=
    if 0 < s.nnodesPerSector then id % s.nnodesPerSector * s.maxNodeLen else 0
  s.neighborsAt buf (offsetInBuf + s.diskBytesPerPoint)

end DiskANNGraphSource

structure DiskANNVectorSource where
  maxNodeLen : ℕ
  nnodesPerSector : ℕ

namespace DiskANNVectorSource

def new (maxNodeLen : ℕ) : DiskANNVectorSource := ⟨maxNodeLen, nnodesPerSectorOf maxNodeLen⟩

variable (s : DiskANNVectorSource)

def prepareBatchRead (ids : List ℕ) : List AlignedRead :=
  ids.map (sectorWindow s.nnodesPerSector s.maxNodeLen)

def getReadBufferSize : ℕ := readBufferSize s.maxNodeLen

/-- `get_vector_ptr`, as a position in the buffer. -/
def getVectorPtr (id : ℕ) : ℕ :=
  let offset := absOffset s.nnodesPerSector s.maxNodeLen id
  offset - offset / sectorLen * sectorLen

end DiskANNVectorSource

/-- What `SigmaSearch::load` keeps of the disk index. -/
structure SigmaSearch where
  elemSize : ℕ
  numPoints : ℕ
  dataDim : ℕ
  medoid : ℕ
  maxNodeLen : ℕ
  nnodesPerSector : ℕ
  maxDegree : ℕ
  graphSource : DiskANNGraphSource
  vectorSource : DiskANNVectorSource

namespace SigmaSearch

/-- `a - b` on 64 bits. -/
def sub64 (a b : ℕ) : ℕ := (a + (2 ^ 64 - b % 2 ^ 64)) % 2 ^ 64

def ofMetadata (elemSize : ℕ) (m : DiskIndexMetadata) : SigmaSearch :=
  let diskBytesPerPoint := m.dataDim * elemSize % 2 ^ 64
  let maxDegree := sub64 (sub64 m.maxNodeLen diskBytesPerPoint) 4 / 4 % 2 ^ 32
  { elemSize := elemSize
    numPoints := m.numPoints
    dataDim := m.dataDim
    medoid := m.medoid % 2 ^ 32
    maxNodeLen := m.maxNodeLen
    nnodesPerSector := nnodesPerSectorOf m.maxNodeLen
    maxDegree := maxDegree
    graphSource := .new m.maxNodeLen maxDegree diskBytesPerPoint
    vectorSource := .new m.maxNodeLen }

/-- The part of `load` that opens the disk index. -/
def load (elemSize : ℕ) (diskIndexFile : String) (file : List UInt8) :
    Except String SigmaSearch :=
  match loadDiskIndexMetadata file with
  | .error e => .error ("Invalid disk index metadata for " ++ diskIndexFile ++ ": " ++ e)
  | .ok m => .ok (ofMetadata elemSize m)

variable (s : SigmaSearch)

/-- The window as the beam search computes it. -/
def frontierRead (id : ℕ) : AlignedRead := sectorWindow s.nnodesPerSector s.maxNodeLen id

end SigmaSearch

/-- What the reader puts into the buffer of a request. -/
def AlignedRead.bytes (r : AlignedRead) (file : List UInt8) : List UInt8 :=
  slice file r.offset r.len

end HiDANN.Disk
