import HiDANN.Library.Words
import HiDANN.Search.CacheLoad

/-! The separate layout: a graph file of records of one length, and a file of vectors. A
record starts anywhere, so the blocks of 512 bytes around it may be one more than its
length fills. The graph source leaves room for that in its buffers and the vector source
does not; and the cache generator takes a record of the graph file for four bytes longer
than it is. -/

namespace HiDANN.Search

open Disk Bytes Packing

/-! ### The graph file -/

namespace FixedGraphSource

variable (s : FixedGraphSource)

/-- Where `get_neighbors_ptr` finds the record in the buffer. -/
def nodePtr (id : ℕ) : ℕ := s.offset id - s.offset id / 512 * 512

def parseNeighbors (id : ℕ) (buf : List UInt8) : List ℕ :=
  let count := readLe 4 buf (s.nodePtr id)
  let count := if s.maxDegree < count then s.maxDegree else count
  readCells 4 count (buf.drop (s.nodePtr id + 4))

/-- `get_read_buffer_size`, 32-bit. -/
def getReadBufferSize : ℕ := roundUp (s.nodeSizeBytes + 512) 512 % 2 ^ 32

end FixedGraphSource

/-- The number of nodes that the cache generator derives from the size of the file, with a
record size of 32 bits; there is none when that is zero. -/
def fixedLayoutNumNodes (R fileSz : ℕ) : Option ℕ :=
  let nodeSize := (4 + 4 + R * 4) % 2 ^ 32
  if nodeSize = 0 then none else some (Words.sub 64 fileSz 16 / nodeSize)

/-- A graph in the records of `FixedGraphSource`, behind a header of 16 bytes. -/
structure FixedGraph where
  maxDegree : ℕ
  hdr : List UInt8
  adj : List (List ℕ)
  length_hdr : hdr.length = 16
  degree_le : ∀ nbrs ∈ adj, nbrs.length ≤ maxDegree
  degree_lt : maxDegree < 2 ^ 32
  id_lt : ∀ nbrs ∈ adj, ∀ v ∈ nbrs, v < 2 ^ 32

namespace FixedGraph

variable (G : FixedGraph)

def nodeRecord (nbrs : List ℕ) : List UInt8 :=
  le 4 nbrs.length ++ (cells 4 nbrs ++ List.replicate (4 * (G.maxDegree - nbrs.length)) 0)

def file : List UInt8 := G.hdr ++ G.adj.flatMap G.nodeRecord

def source : GraphSource := FixedGraphSource.source ⟨G.maxDegree⟩

end FixedGraph

/-! ### The vector file -/

/-- `BinVectorSource`: vectors of `dim` floats behind a header of 8 bytes. -/
structure BinVectorSource where
  dim : ℕ

namespace BinVectorSource

variable (s : BinVectorSource)

def vecSizeBytes : ℕ := s.dim * 4 % 2 ^ 64

def offset (id : ℕ) : ℕ := (8 + id * s.vecSizeBytes) % 2 ^ 64

def vectorRead (id : ℕ) : AlignedRead :=
  let alignedOff := s.offset id / 512 * 512
  ⟨alignedOff, roundUp (s.offset id - alignedOff + s.vecSizeBytes) 512 % 2 ^ 32⟩

def prepareBatchRead (ids : List ℕ) : List AlignedRead := ids.map s.vectorRead

def getVectorPtr (id : ℕ) : ℕ := s.offset id - s.offset id / 512 * 512

/-- `get_read_buffer_size`, 32-bit. -/
def getReadBufferSize : ℕ := roundUp s.vecSizeBytes 512 % 2 ^ 32

end BinVectorSource

/-! ### Windows -/

/-- The request for a record is made of whole blocks, covers it and fits the buffer, and the
record is where it is decoded. -/
structure InWindow (offset size ptr bufSize : ℕ) (req : AlignedRead) : Prop where
  aligned : req.offset % 512 = 0 ∧ req.len % 512 = 0
  covers : req.offset ≤ offset ∧ offset + size ≤ req.offset + req.len
  fits : req.len ≤ bufSize
  decoded : req.offset + ptr = offset ∧ ptr + size ≤ req.len

def GraphInWindow (R : ℕ) : Prop :=
  ∀ id < 2 ^ 32, InWindow (16 + id * (4 + R * 4)) (4 + R * 4) (FixedGraphSource.nodePtr ⟨R⟩ id)
    (FixedGraphSource.getReadBufferSize ⟨R⟩) (FixedGraphSource.prepareNodeRead ⟨R⟩ id)

def VectorsInWindow (dim : ℕ) : Prop :=
  ∀ id < 2 ^ 32, InWindow (8 + id * (dim * 4)) (dim * 4) (BinVectorSource.getVectorPtr ⟨dim⟩ id)
    (BinVectorSource.getReadBufferSize ⟨dim⟩) (BinVectorSource.vectorRead ⟨dim⟩ id)

/-- The cache generator finds the number of nodes of every file of `N` nodes. -/
def CountExact (R N : ℕ) : Prop :=
  ∀ G : FixedGraph, G.maxDegree = R → G.adj.length = N →
    fixedLayoutNumNodes R G.file.length = some N

/-- The sources of the separate layout and the cache generator agree on it. -/
structure LayoutConsistent (R dim N : ℕ) : Prop where
  graph : GraphInWindow R
  vectors : VectorsInWindow dim
  count : CountExact R N

theorem roundUp_block (x : ℕ) : roundUp x 512 = (x + 511) / 512 * 512 := by
  rw [roundUp, divRoundUp_eq (by norm_num)]

/-! ### The graph source -/

/-- The buffers of the graph source have room for a block more than a record fills. -/
theorem graphInWindow_iff (R : ℕ) : GraphInWindow R ↔ R + 257 ≤ 2 ^ 30 := by
  constructor
  · intro h
    obtain ⟨-, ⟨-, hcovers⟩, hfits, -⟩ := h 0 (by norm_num)
    simp only [FixedGraphSource.prepareNodeRead, FixedGraphSource.getReadBufferSize,
      FixedGraphSource.offset, FixedGraphSource.nodeSizeBytes, roundUp_block] at hcovers hfits
    omega
  · intro hR id hid
    have hoff : 16 + id * (4 + R * 4) < 2 ^ 64 := by
      have : id * (4 + R * 4) ≤ 2 ^ 32 * (4 + R * 4) := Nat.mul_le_mul_right _ hid.le
      omega
    have heq : FixedGraphSource.offset ⟨R⟩ id = 16 + id * (4 + R * 4) := Nat.mod_eq_of_lt hoff
    constructor <;>
      simp only [FixedGraphSource.prepareNodeRead, FixedGraphSource.getReadBufferSize,
        FixedGraphSource.nodePtr, FixedGraphSource.nodeSizeBytes, roundUp_block, heq] <;>
      generalize 16 + id * (4 + R * 4) = o <;> omega

/-! ### The vector source -/

section

variable {dim : ℕ}

/-- Where a vector starts in its block, in floats. -/
theorem offset_mod (hdim : dim < 2 ^ 30) {id : ℕ} (hid : id < 2 ^ 32) :
    BinVectorSource.offset ⟨dim⟩ id = 8 + id * (dim * 4) ∧
      (8 + id * (dim * 4)) % 512 = (2 + id * (dim % 128)) % 128 * 4 := by
  have hle : id * (dim * 4) ≤ 2 ^ 32 * (2 ^ 32 - 4) := Nat.mul_le_mul hid.le (by omega)
  have hvec : BinVectorSource.vecSizeBytes ⟨dim⟩ = dim * 4 :=
    Nat.mod_eq_of_lt (show dim * 4 < 2 ^ 64 by omega)
  constructor
  · rw [BinVectorSource.offset, hvec, Nat.mod_eq_of_lt (by omega)]
  · have hmod := Nat.mul_mod id dim 128
    have hmod' := Nat.mul_mod id (dim % 128) 128
    rw [Nat.mod_mod] at hmod'
    have hassoc : id * (dim * 4) = id * dim * 4 := (Nat.mul_assoc _ _ _).symm
    omega

/-- A vector never crosses the end of the block that its length alone would fill exactly when
it leaves one or two floats over. -/
theorem remainder_cases {r : ℕ} (hr : r < 128)
    (h : ∀ id < 128, (2 + id * r) % 128 + r ≤ 128 ∧ r ≠ 0) : r = 1 ∨ r = 2 := by
  have hr0 := (h 0 (by norm_num)).2
  -- the first vectors end exactly with the first block, the next ones with the second
  have hfirst : ∀ r < 128, r ≠ 0 → (2 + 126 / r * r) % 128 + r ≤ 128 →
      (2 + (126 / r + 128 / r) % 128 * r) % 128 + r ≤ 128 → r = 1 ∨ r = 2 := by decide
  refine hfirst r hr hr0 (h _ ?_).1 (h _ (Nat.mod_lt _ (by norm_num))).1
  exact (Nat.div_le_self _ _).trans_lt (by norm_num)

/-- The buffers of the vector source have no room for a block more than a vector fills. -/
theorem vectorsInWindow_iff (dim : ℕ) :
    VectorsInWindow dim ↔ (dim % 128 = 1 ∨ dim % 128 = 2) ∧ dim < 2 ^ 30 - 128 := by
  constructor
  · intro h
    obtain ⟨-, ⟨-, hcovers⟩, hfits, -⟩ := h 0 (by norm_num)
    simp only [BinVectorSource.vectorRead, BinVectorSource.getReadBufferSize,
      BinVectorSource.offset, BinVectorSource.vecSizeBytes, roundUp_block] at hcovers hfits
    have hdim : dim * 4 + 520 ≤ 2 ^ 32 := by omega
    have hrem : dim % 128 = 1 ∨ dim % 128 = 2 := by
      refine remainder_cases (Nat.mod_lt _ (by norm_num)) fun id hid => ?_
      obtain ⟨hoff, hmod⟩ := offset_mod (show dim < 2 ^ 30 by omega)
        (show id < 2 ^ 32 by omega)
      obtain ⟨-, ⟨-, hcovers'⟩, hfits', -⟩ := h id (by omega)
      simp only [BinVectorSource.vectorRead, BinVectorSource.getReadBufferSize,
        BinVectorSource.vecSizeBytes, roundUp_block, hoff] at hcovers' hfits'
      generalize 8 + id * (dim * 4) = o at hmod hcovers' hfits'
      generalize (2 + id * (dim % 128)) % 128 = e at hmod ⊢
      omega
    omega
  · rintro ⟨hrem, hdim⟩ id hid
    obtain ⟨hoff, hmod⟩ := offset_mod (show dim < 2 ^ 30 by omega) hid
    have hroom : (2 + id * (dim % 128)) % 128 + dim % 128 ≤ 128 := by
      rcases hrem with h | h <;> rw [h] <;> omega
    constructor <;>
      simp only [BinVectorSource.vectorRead, BinVectorSource.getReadBufferSize,
        BinVectorSource.getVectorPtr, BinVectorSource.vecSizeBytes, roundUp_block, hoff] <;>
      generalize 8 + id * (dim * 4) = o at hmod ⊢ <;>
      generalize (2 + id * (dim % 128)) % 128 = e at hmod hroom <;> omega

end

/-! ### The number of nodes -/

namespace FixedGraph

variable {G : FixedGraph}

theorem length_nodeRecord {nbrs : List ℕ} (h : nbrs ∈ G.adj) :
    (G.nodeRecord nbrs).length = 4 + G.maxDegree * 4 := by
  have hle := G.degree_le nbrs h
  simp only [nodeRecord, List.length_append, length_le, length_cells, List.length_replicate]
  omega

theorem length_file : G.file.length = 16 + G.adj.length * (4 + G.maxDegree * 4) := by
  rw [file, List.length_append, G.length_hdr,
    length_flatMap_const _ _ fun nbrs h => length_nodeRecord h, Nat.mul_comm]

end FixedGraph

namespace FixedGraph

/-- The record of a node lies where the graph source looks for it. -/
theorem slice_file (G : FixedGraph) {id : ℕ} (hid : id < G.adj.length) :
    slice G.file (16 + id * (4 + G.maxDegree * 4)) (4 + G.maxDegree * 4) =
      G.nodeRecord G.adj[id] := by
  have h := slice_append_add G.hdr (G.adj.flatMap G.nodeRecord)
    ((4 + G.maxDegree * 4) * id) (4 + G.maxDegree * 4)
  rw [G.length_hdr, Nat.mul_comm] at h
  rw [file, h, Nat.mul_comm]
  exact slice_flatMap _ _ (fun nbrs h => length_nodeRecord h) id hid

theorem onDisk_eq (G : FixedGraph) (hR : GraphInWindow G.maxDegree) {id : ℕ}
    (hid : id < G.adj.length) (hid' : id < 2 ^ 32) : G.source.onDisk G.file id = G.adj[id] := by
  obtain ⟨-, -, -, hptr, hinside⟩ := hR id hid'
  have hnbrs : G.adj[id] ∈ G.adj := List.getElem_mem hid
  have hdeg := G.degree_le _ hnbrs
  have hlt := G.degree_lt
  set s : FixedGraphSource := ⟨G.maxDegree⟩
  set buf := (s.prepareNodeRead id).bytes G.file with hb
  have hbuf : slice buf (s.nodePtr id) (4 + G.maxDegree * 4) = G.nodeRecord G.adj[id] := by
    rw [hb, AlignedRead.bytes, slice_slice _ hinside, hptr, G.slice_file hid]
  have hcount : readLe 4 buf (s.nodePtr id) = G.adj[id].length := by
    have h := slice_slice buf (a := s.nodePtr id) (n := 4 + G.maxDegree * 4) (b := 0) (m := 4)
      (by omega)
    rw [Nat.add_zero, hbuf] at h
    rw [readLe, ← h, nodeRecord, slice, List.drop_zero, List.take_left' (length_le 4 _),
      val_le_of_lt (by omega)]
  have hlist : readCells 4 G.adj[id].length (buf.drop (s.nodePtr id + 4)) = G.adj[id] := by
    rw [← readCells_slice 4 _ buf (n := 4 + G.maxDegree * 4) (by omega), hbuf, nodeRecord,
      List.drop_left' (length_le 4 _)]
    exact readCells_cells _ (fun v hv => (G.id_lt _ hnbrs v hv).trans_eq (by norm_num)) _
  change readCells 4 (if s.maxDegree < readLe 4 buf (s.nodePtr id) then s.maxDegree
    else readLe 4 buf (s.nodePtr id)) (buf.drop (s.nodePtr id + 4)) = _
  rw [hcount, if_neg (Nat.not_lt.mpr hdeg), hlist]

end FixedGraph

def edgeless (R N : ℕ) (hR : R < 2 ^ 32) : FixedGraph where
  maxDegree := R
  hdr := List.replicate 16 0
  adj := List.replicate N []
  length_hdr := List.length_replicate
  degree_le nbrs h := by simp [List.eq_of_mem_replicate h]
  degree_lt := hR
  id_lt nbrs h := by simp [List.eq_of_mem_replicate h]

/-- Counted in records that are too long, only the empty file has the right number. -/
theorem countExact_iff {R N : ℕ} (hR : R + 257 ≤ 2 ^ 30) : CountExact R N ↔ N = 0 := by
  have hsize : (4 + 4 + R * 4) % 2 ^ 32 = 8 + R * 4 := by omega
  constructor
  · intro h
    have hcount := h (edgeless R N (by omega)) rfl List.length_replicate
    rw [FixedGraph.length_file, fixedLayoutNumNodes] at hcount
    dsimp only [edgeless] at hcount
    rw [hsize, if_neg (by omega), List.length_replicate, Option.some.injEq] at hcount
    have hle : Words.sub 64 (16 + N * (4 + R * 4)) 16 ≤ N * (4 + R * 4) := by
      rw [Words.sub]
      omega
    have hdiv := Nat.div_mul_le_self (Words.sub 64 (16 + N * (4 + R * 4)) 16) (8 + R * 4)
    rw [hcount] at hdiv
    have : N * (8 + R * 4) = N * (4 + R * 4) + N * 4 := by ring
    omega
  · rintro rfl G rfl hlen
    rw [FixedGraph.length_file, hlen, fixedLayoutNumNodes, hsize, if_neg (by omega), Nat.zero_mul, Nat.add_zero,
      Words.sub_of_le le_rfl (by norm_num), Nat.sub_self, Nat.zero_div]

/-- The separate layout is consistent if and only if the degree leaves the windows within 32
bits, a vector leaves one or two floats over, and there is no node. -/
theorem layoutConsistent_iff (R dim N : ℕ) : LayoutConsistent R dim N ↔
    R + 257 ≤ 2 ^ 30 ∧ ((dim % 128 = 1 ∨ dim % 128 = 2) ∧ dim < 2 ^ 30 - 128) ∧ N = 0 := by
  constructor
  · rintro ⟨hgraph, hvectors, hcount⟩
    have hR := (graphInWindow_iff R).mp hgraph
    exact ⟨hR, (vectorsInWindow_iff dim).mp hvectors, (countExact_iff hR).mp hcount⟩
  · rintro ⟨hR, hdim, hN⟩
    exact ⟨(graphInWindow_iff R).mpr hR, (vectorsInWindow_iff dim).mpr hdim,
      (countExact_iff hR).mpr hN⟩

/-- Vectors of 128 floats, and one node of degree 70. -/
theorem not_layoutConsistent : ¬ VectorsInWindow 128 ∧ ¬ CountExact 70 1 ∧
    (BinVectorSource.vectorRead ⟨128⟩ 0).len = 1024 ∧
    BinVectorSource.getReadBufferSize ⟨128⟩ = 512 ∧ fixedLayoutNumNodes 70 (16 + 284) = some 0 :=
  ⟨fun h => absurd ((vectorsInWindow_iff 128).mp h) (by decide),
    fun h => absurd ((countExact_iff (by norm_num)).mp h) (by decide), by decide, by decide,
    by decide⟩

end HiDANN.Search
