import HiDANN.Library.Bytes
import HiDANN.Library.Scatter
import Mathlib.Tactic.NormNum

/-! The candidate file pair. `cand.idx` is a 32-byte header and one 16-byte row
`(off_bytes, cnt, flags, pad)` per node, `cand.ids` a 32-byte header and the ids
as 32-bit integers. `candIdx` and `candIds` are the pair whose rows follow one
another in node order; a node's ids are found again through its row. -/

namespace HiDANN.Format

open Bytes Scatter

/-- `CandIdxHdr{magic, version, N, rsv}`. -/
def candIdxHdr (N : ℕ) : List UInt8 := le 4 0x43494458 ++ le 4 1 ++ le 8 N ++ le 8 0 ++ le 8 0

/-- `CandIdsHdr{magic, version, total_ids, rsv}`. -/
def candIdsHdr (total : ℕ) : List UInt8 :=
  le 4 0x43494553 ++ le 4 1 ++ le 8 total ++ le 8 0 ++ le 8 0

/-- `CandIdxRow{off_bytes, cnt, flags, pad}`. -/
def candIdxRow (offBytes cnt : ℕ) : List UInt8 := le 8 offBytes ++ le 4 cnt ++ le 2 0 ++ le 2 0

@[simp] theorem length_candIdxHdr (N : ℕ) : (candIdxHdr N).length = 32 := by simp [candIdxHdr]

@[simp] theorem length_candIdsHdr (n : ℕ) : (candIdsHdr n).length = 32 := by simp [candIdsHdr]

@[simp] theorem length_candIdxRow (off cnt : ℕ) : (candIdxRow off cnt).length = 16 := by
  simp [candIdxRow]

/-- The `off_bytes` field of the row of `g`. -/
def rowOff (idx : List UInt8) (g : ℕ) : ℕ := readLe 8 idx (32 + 16 * g)

/-- The `cnt` field of the row of `g`. -/
def rowCnt (idx : List UInt8) (g : ℕ) : ℕ := readLe 4 idx (32 + 16 * g + 8)

/-- The `total_ids` field of the ids header. -/
def totalIds (ids : List UInt8) : ℕ := readLe 8 ids 8

/-- The ids the row of `g` designates. -/
def candRow (idx ids : List UInt8) (g : ℕ) : List ℕ :=
  readCells 4 (rowCnt idx g) (ids.drop (32 + rowOff idx g))

/-! ### The pair of a row function -/

/-- Position of the first id of `g`, in ids. -/
def rowStart (row : ℕ → List ℕ) (g : ℕ) : ℕ := offset (fun v => (row v).length) g

def candIdx (N : ℕ) (row : ℕ → List ℕ) : List UInt8 :=
  candIdxHdr N ++ (List.range N).flatMap fun g => candIdxRow (4 * rowStart row g) (row g).length

def candIds (N : ℕ) (row : ℕ → List ℕ) : List UInt8 :=
  candIdsHdr (rowStart row N) ++ cells 4 ((List.range N).flatMap row)

/-- The rows fit the fields of the format, and the ids file an `off_t`. -/
structure Fits (N : ℕ) (row : ℕ → List ℕ) : Prop where
  cnt_lt : ∀ g < N, (row g).length < 2 ^ 32
  id_lt : ∀ g < N, ∀ v ∈ row g, v < 2 ^ 32
  total_lt : 32 + 4 * rowStart row N < 2 ^ 63

section Fits

variable {N : ℕ} {row : ℕ → List ℕ}

theorem length_candIds (N : ℕ) (row : ℕ → List ℕ) :
    (candIds N row).length = 32 + 4 * rowStart row N := by
  rw [candIds, List.length_append, length_candIdsHdr, length_cells, length_rows]
  rfl

theorem rowStart_le (row : ℕ → List ℕ) {g h : ℕ} (hgh : g ≤ h) :
    rowStart row g ≤ rowStart row h :=
  offset_le _ hgh

theorem slice_candIdx {g : ℕ} (hg : g < N) :
    slice (candIdx N row) (32 + 16 * g) 16 = candIdxRow (4 * rowStart row g) (row g).length := by
  have h := slice_append_add (candIdxHdr N)
    ((List.range N).flatMap fun g => candIdxRow (4 * rowStart row g) (row g).length) (16 * g) 16
  rw [length_candIdxHdr] at h
  rw [candIdx, h, slice_flatMap _ _ (by simp) g (by simpa using hg), List.getElem_range]

theorem rowOff_candIdx (hf : Fits N row) {g : ℕ} (hg : g < N) :
    rowOff (candIdx N row) g = 4 * rowStart row g := by
  have h := slice_slice (candIdx N row) (a := 32 + 16 * g) (n := 16) (b := 0) (m := 8) (by omega)
  have hlt : 4 * rowStart row g < 256 ^ 8 := by
    have := rowStart_le row hg.le
    have := hf.total_lt
    norm_num at this ⊢
    omega
  rw [rowOff, readLe, ← Nat.add_zero (32 + 16 * g), ← h, slice_candIdx hg, candIdxRow]
  simp only [List.append_assoc]
  rw [slice, List.drop_zero, List.take_left' (by simp), val_le_of_lt hlt]

theorem rowCnt_candIdx (hf : Fits N row) {g : ℕ} (hg : g < N) :
    rowCnt (candIdx N row) g = (row g).length := by
  have h := slice_slice (candIdx N row) (a := 32 + 16 * g) (n := 16) (b := 8) (m := 4) (by omega)
  have hlt : (row g).length < 256 ^ 4 := by simpa using hf.cnt_lt g hg
  rw [rowCnt, readLe, ← h, slice_candIdx hg, candIdxRow]
  simp only [List.append_assoc]
  have hm := slice_mid (le 8 (4 * rowStart row g)) (le 4 (row g).length) (le 2 0 ++ le 2 0)
  rw [length_le, length_le] at hm
  rw [hm, val_le_of_lt hlt]

theorem totalIds_candIds (hf : Fits N row) : totalIds (candIds N row) = rowStart row N := by
  have hlt : rowStart row N < 256 ^ 8 := by
    have := hf.total_lt
    norm_num at this ⊢
    omega
  have hm := slice_mid (le 4 0x43494553 ++ le 4 1) (le 8 (rowStart row N))
    (le 8 0 ++ le 8 0 ++ cells 4 ((List.range N).flatMap row))
  simp only [List.length_append, length_le, Nat.reduceAdd] at hm
  rw [totalIds, readLe, candIds, candIdsHdr]
  simp only [List.append_assoc] at hm ⊢
  rw [hm, val_le_of_lt hlt]

theorem drop_candIds {g : ℕ} (hg : g < N) :
    (candIds N row).drop (32 + 4 * rowStart row g) =
      cells 4 (row g) ++ cells 4 ((List.range' (g + 1) (N - (g + 1))).flatMap row) := by
  have hsplit : List.range N = List.range g ++ g :: List.range' (g + 1) (N - (g + 1)) := by
    obtain ⟨k, rfl⟩ := Nat.exists_eq_add_of_le (show g + 1 ≤ N from hg)
    rw [Nat.add_sub_cancel_left, List.range_eq_range', List.range_eq_range', Nat.add_assoc,
      ← List.range'_append_1, Nat.zero_add, Nat.add_comm 1 k, List.range'_succ]
  have hlen : (candIdsHdr (rowStart row N) ++ cells 4 ((List.range g).flatMap row)).length =
      32 + 4 * rowStart row g := by
    rw [List.length_append, length_candIdsHdr, length_cells, length_rows]
    rfl
  rw [candIds, hsplit, List.flatMap_append, List.flatMap_cons, cells_append, cells_append,
    ← List.append_assoc, ← hlen, List.drop_left]

theorem candRow_eq (hf : Fits N row) {g : ℕ} (hg : g < N) :
    candRow (candIdx N row) (candIds N row) g = row g := by
  rw [candRow, rowCnt_candIdx hf hg, rowOff_candIdx hf hg, drop_candIds hg]
  exact readCells_cells _ (fun v hv => by simpa using hf.id_lt g hg v hv) _

end Fits

end HiDANN.Format
