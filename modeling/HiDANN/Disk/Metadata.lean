import HiDANN.Disk.Sources
import HiDANN.Library.Words

/-! What the metadata of a disk index promises. The loader checks that no entry it needs
is zero and that the medoid is a point. The search and the cache generator then derive
the degree from the length of a record by two 64-bit differences, and do not ask
whether a record has room for a vector and a count. -/

namespace HiDANN.Disk

open Bytes

/-! ### The derived degree -/

/-- The types the search is instantiated for. -/
inductive ElemType where
  | float
  | int8
  | uint8
  deriving DecidableEq

def ElemType.size : ElemType → ℕ
  | .float => 4
  | .int8 => 1
  | .uint8 => 1

/-- The combined layout in the cache generator, whose vectors are floats. -/
def combinedLayoutSource (m : DiskIndexMetadata) : DiskANNGraphSource :=
  let diskBytesPerPoint := m.dataDim * 4 % 2 ^ 64
  let maxDegree :=
    SigmaSearch.sub64 (SigmaSearch.sub64 m.maxNodeLen diskBytesPerPoint) 4 / 4 % 2 ^ 32
  .new m.maxNodeLen maxDegree diskBytesPerPoint

/-- The degree of a record length, with elements of `size` bytes. -/
def degreeOf (size : ℕ) (m : DiskIndexMetadata) : ℕ :=
  Words.sub 64 (Words.sub 64 m.maxNodeLen (m.dataDim * size % 2 ^ 64)) 4 / 4 % 2 ^ 32

@[simp] theorem maxDegree_ofMetadata (size : ℕ) (m : DiskIndexMetadata) :
    (SigmaSearch.ofMetadata size m).maxDegree = degreeOf size m := rfl

@[simp] theorem maxDegree_combinedLayoutSource (m : DiskIndexMetadata) :
    (combinedLayoutSource m).maxDegree = degreeOf 4 m := rfl

/-- The product, the two differences and the 32-bit quotient are what they are in ℕ. -/
structure NoWrap (size : ℕ) (m : DiskIndexMetadata) : Prop where
  bytes_lt : m.dataDim * size < 2 ^ 64
  bytes_le : m.dataDim * size ≤ m.maxNodeLen
  count_le : 4 ≤ m.maxNodeLen - m.dataDim * size
  degree_lt : (m.maxNodeLen - m.dataDim * size - 4) / 4 < 2 ^ 32

/-- The metadata is enough to decode the records of vectors of a type. -/
structure Sufficient (t : ElemType) (m : DiskIndexMetadata) : Prop where
  load : NoWrap t.size m
  cacheGen : NoWrap 4 m
  same : (SigmaSearch.ofMetadata t.size m).maxDegree = (combinedLayoutSource m).maxDegree
  fits : m.dataDim * t.size + 4 + 4 * (SigmaSearch.ofMetadata t.size m).maxDegree ≤ m.maxNodeLen

/-! ### The loader -/

/-- What the loader makes sure of. -/
structure DiskIndexMetadata.Accepted (m : DiskIndexMetadata) : Prop where
  numPoints_ne : m.numPoints ≠ 0
  dataDim_ne : m.dataDim ≠ 0
  maxNodeLen_ne : m.maxNodeLen ≠ 0
  medoid_lt : m.medoid < m.numPoints
  maxNodeLen_lt : m.maxNodeLen < 2 ^ 64

theorem getD_readCells_lt (k : ℕ) (bs : List UInt8) (i : ℕ) :
    (readCells 8 k bs).getD i 0 < 2 ^ 64 := by
  rw [List.getD_eq_getElem?_getD]
  cases hget : (readCells 8 k bs)[i]? with
  | none => exact zero_lt_long
  | some v => exact (readCells_lt 8 k bs v (List.mem_of_getElem? hget)).trans_eq (by norm_num)

theorem accepted_of_load {file : List UInt8} {m : DiskIndexMetadata}
    (h : loadDiskIndexMetadata file = .ok m) : m.Accepted := by
  unfold loadDiskIndexMetadata loadBin at h
  dsimp only at h
  split_ifs at h with hlen
  dsimp only at h
  split_ifs at h with hdim hcount hpoints hdata hnode hmedoid
  cases h
  exact ⟨hpoints, hdata, hnode, not_le.mp hmedoid, getD_readCells_lt ..⟩

/-! ### Enough metadata -/

section

variable {m : DiskIndexMetadata} {size : ℕ}

theorem degreeOf_eq (h : NoWrap size m) (hlen : m.maxNodeLen < 2 ^ 64) :
    degreeOf size m = (m.maxNodeLen - m.dataDim * size - 4) / 4 := by
  have hle := Nat.sub_le m.maxNodeLen (m.dataDim * size)
  rw [degreeOf, Nat.mod_eq_of_lt h.bytes_lt, Words.sub_of_le h.bytes_le hlen,
    Words.sub_of_le h.count_le (by omega), Nat.mod_eq_of_lt h.degree_lt]

theorem noWrap_iff (hlen : m.maxNodeLen < 2 ^ 64) :
    NoWrap size m ↔ m.dataDim * size + 4 ≤ m.maxNodeLen ∧
      (m.maxNodeLen - m.dataDim * size - 4) / 4 < 2 ^ 32 := by
  constructor
  · intro h
    have := h.bytes_le
    have := h.count_le
    exact ⟨by omega, h.degree_lt⟩
  · rintro ⟨hroom, hdegree⟩
    exact ⟨by omega, by omega, by omega, hdegree⟩

/-- A record has room for as many ids as the degree says. -/
theorem record_fits (h : NoWrap size m) (hlen : m.maxNodeLen < 2 ^ 64) :
    m.dataDim * size + 4 + 4 * degreeOf size m ≤ m.maxNodeLen := by
  rw [degreeOf_eq h hlen]
  have := h.bytes_le
  have := h.count_le
  omega

/-- Bytes leave room for more ids than floats, except in records of one element. -/
theorem degreeOf_one_iff (h1 : NoWrap 1 m) (h4 : NoWrap 4 m) (hm : m.Accepted) :
    degreeOf 1 m = degreeOf 4 m ↔ m.dataDim = 1 ∧ 4 ∣ m.maxNodeLen := by
  have hdim := hm.dataDim_ne
  have hbytes := h4.bytes_le
  have hcount := h4.count_le
  rw [degreeOf_eq h1 hm.maxNodeLen_lt, degreeOf_eq h4 hm.maxNodeLen_lt]
  omega

end

/-- The metadata the loader accepts is enough exactly when a record has room for a vector
of floats and a count, the rest of it for fewer ids than a 32-bit number counts, and,
with elements of one byte, there is one element and the length is a multiple of four. -/
theorem sufficient_iff {file : List UInt8} {m : DiskIndexMetadata} (t : ElemType)
    (h : loadDiskIndexMetadata file = .ok m) :
    Sufficient t m ↔ m.dataDim * 4 + 4 ≤ m.maxNodeLen ∧
      (m.maxNodeLen - m.dataDim * 4 - 4) / 4 < 2 ^ 32 ∧
      (t = .float ∨ m.dataDim = 1 ∧ 4 ∣ m.maxNodeLen) := by
  have hm := accepted_of_load h
  have hsame : NoWrap t.size m → NoWrap 4 m →
      (degreeOf t.size m = degreeOf 4 m ↔ t = .float ∨ m.dataDim = 1 ∧ 4 ∣ m.maxNodeLen) := by
    intro hload hgen
    cases t with
    | float => simp [ElemType.size]
    | int8 => simpa [ElemType.size] using degreeOf_one_iff hload hgen hm
    | uint8 => simpa [ElemType.size] using degreeOf_one_iff hload hgen hm
  constructor
  · intro hs
    obtain ⟨hroom, hdegree⟩ := (noWrap_iff hm.maxNodeLen_lt).mp hs.cacheGen
    exact ⟨hroom, hdegree, (hsame hs.load hs.cacheGen).mp hs.same⟩
  · rintro ⟨hroom, hdegree, htype⟩
    have hgen : NoWrap 4 m := (noWrap_iff hm.maxNodeLen_lt).mpr ⟨hroom, hdegree⟩
    have hload : NoWrap t.size m := by
      rw [noWrap_iff hm.maxNodeLen_lt]
      rcases htype with rfl | ⟨hdim, hdvd⟩
      · exact ⟨hroom, hdegree⟩
      · cases t <;> simp only [ElemType.size] <;> omega
    exact ⟨hload, hgen, (hsame hload hgen).mpr htype, record_fits hload hm.maxNodeLen_lt⟩

/-- The metadata of points of one dimension, in records of the given length. -/
def lineFile (numPoints maxNodeLen : ℕ) : List UInt8 :=
  le 4 4 ++ le 4 1 ++ cells 8 [numPoints, 1, 0, maxNodeLen]

def line (numPoints maxNodeLen : ℕ) : DiskIndexMetadata :=
  ⟨numPoints, 1, 0, maxNodeLen, 0, 0, 0, 0⟩

/-- A float, a count and two ids. -/
theorem line_sufficient : Sufficient .float (line 1023 16) :=
  (sufficient_iff .float
    (rfl : loadDiskIndexMetadata (lineFile 1023 16) = .ok (line 1023 16))).mpr
    ⟨by decide, by decide, .inl rfl⟩

/-- Records of one byte are accepted, and the search derives a degree of 2³² - 2. -/
theorem line_insufficient : loadDiskIndexMetadata (lineFile 1 1) = .ok (line 1 1) ∧
    ¬ Sufficient .float (line 1 1) ∧
    (SigmaSearch.ofMetadata 4 (line 1 1)).maxDegree = 2 ^ 32 - 2 :=
  ⟨rfl, fun h => absurd h.load.bytes_le (by decide), by decide⟩

end HiDANN.Disk
