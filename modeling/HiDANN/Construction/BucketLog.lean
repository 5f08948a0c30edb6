import HiDANN.Library.Bytes
import Mathlib.Algebra.Order.Ring.Nat
import Mathlib.Tactic.NormNum

/-! The records of a bucket log. A record is a 12-byte header `(gid, len, flags,
size_bytes)`, `len` 32-bit ids, a trailing copy of the size and zero padding to
a multiple of 16 bytes. The scan walks a log from its first byte by the sizes in
the headers; it stops at a size below 16 or past the end. A log that is a
sequence of encoded records is scanned into exactly these records. -/

namespace HiDANN.Construction

open Bytes

def roundUp (x a : ℕ) : ℕ := (x + a - 1) / a * a

theorem le_roundUp {x a : ℕ} (ha : 0 < a) : x ≤ roundUp x a := by
  have h := Nat.div_add_mod (x + a - 1) a
  have hm := Nat.mod_lt (x + a - 1) ha
  rw [roundUp, Nat.mul_comm]
  omega

/-- A call of `append_record` with its arguments in range. -/
structure Record where
  gid : ℕ
  ids : List ℕ
  gid_lt : gid < 2 ^ 32
  ids_lt : ∀ v ∈ ids, v < 2 ^ 32
  ids_pos : 0 < ids.length
  ids_le : ids.length < 2 ^ 16
  deriving DecidableEq

/-- `size_bytes` of a record of `len` ids: header, ids, trailing size, padding. -/
def recSize (len : ℕ) : ℕ := roundUp (12 + 4 * len + 4) 16

theorem recSize_ge (len : ℕ) : 12 + 4 * len + 4 ≤ recSize len := le_roundUp (by norm_num)

theorem recSize_lt {len : ℕ} (h : len < 2 ^ 16) : recSize len < 2 ^ 32 := by
  unfold recSize roundUp
  omega

/-- The bytes `append_record` stages for a record. -/
def encodeRecord (gid : ℕ) (ids : List ℕ) : List UInt8 :=
  let sz16 := recSize ids.length
  le 4 gid ++ le 2 ids.length ++ le 2 0 ++ le 4 sz16 ++ cells 4 ids ++ le 4 sz16 ++
    List.replicate (sz16 - (12 + 4 * ids.length + 4)) 0

theorem length_encodeRecord (gid : ℕ) (ids : List ℕ) :
    (encodeRecord gid ids).length = recSize ids.length := by
  have := recSize_ge ids.length
  simp only [encodeRecord, List.length_append, length_le, length_cells, List.length_replicate]
  omega

def encodeAll (rs : List Record) : List UInt8 := rs.flatMap fun r => encodeRecord r.gid r.ids

@[simp] theorem encodeAll_nil : encodeAll [] = [] := rfl

theorem encodeAll_cons (r : Record) (rs : List Record) :
    encodeAll (r :: rs) = encodeRecord r.gid r.ids ++ encodeAll rs := rfl

@[simp] theorem encodeAll_append (rs rs' : List Record) :
    encodeAll (rs ++ rs') = encodeAll rs ++ encodeAll rs' := List.flatMap_append

theorem encodeAll_eq_nil {rs : List Record} (h : encodeAll rs = []) : rs = [] := by
  cases rs with
  | nil => rfl
  | cons r rs =>
    have hl := congrArg List.length h
    have := recSize_ge r.ids.length
    rw [encodeAll_cons, List.length_append, length_encodeRecord, List.length_nil] at hl
    omega

/-- The ids of all records appended for a node. -/
def appended (rs : List Record) (g : ℕ) : List ℕ :=
  (rs.filter fun r => r.gid = g).flatMap Record.ids

theorem appended_singleton (r : Record) (g : ℕ) :
    appended [r] g = if r.gid = g then r.ids else [] := by
  by_cases h : r.gid = g <;> simp [appended, h]

theorem appended_append (rs rs' : List Record) (g : ℕ) :
    appended (rs ++ rs') g = appended rs g ++ appended rs' g := by
  simp [appended]

theorem appended_flatMap {α : Type*} (f : α → List Record) (xs : List α) (g : ℕ) :
    appended (xs.flatMap f) g = xs.flatMap fun x => appended (f x) g := by
  induction xs with
  | nil => rfl
  | cons x xs ih => rw [List.flatMap_cons, appended_append, ih, List.flatMap_cons]

/-! ### Scanning -/

/-- The header at the front of a byte list. -/
structure RecHdr where
  gid : ℕ
  len : ℕ
  flags : ℕ
  sizeBytes : ℕ

def readRecHdr (bs : List UInt8) : RecHdr :=
  ⟨readLe 4 bs 0, readLe 2 bs 4, readLe 2 bs 6, readLe 4 bs 8⟩

/-- Both compaction passes walk the log this way; every step advances by at
least 16 bytes, so the length of the log bounds the number of steps. -/
def scanFrom : ℕ → List UInt8 → List (ℕ × List ℕ)
  | 0, _ => []
  | fuel + 1, bs =>
    if bs.length < 12 then []
    else if (readRecHdr bs).sizeBytes < 16 then []
    else if bs.length < (readRecHdr bs).sizeBytes then []
    else ((readRecHdr bs).gid, readCells 4 (readRecHdr bs).len (bs.drop 12)) ::
      scanFrom fuel (bs.drop (readRecHdr bs).sizeBytes)

def scanLog (log : List UInt8) : List (ℕ × List ℕ) := scanFrom log.length log

/-- More fuel than bytes changes nothing: the scan ends by its own guards. -/
theorem scanFrom_stable (fuel extra : ℕ) (bs : List UInt8) (h : bs.length ≤ fuel) :
    scanFrom (fuel + extra) bs = scanFrom fuel bs := by
  induction fuel generalizing bs with
  | zero =>
    have hb : bs = [] := List.eq_nil_of_length_eq_zero (by omega)
    subst hb
    cases extra <;> rfl
  | succ fuel ih =>
    rw [show fuel + 1 + extra = (fuel + extra) + 1 by omega, scanFrom, scanFrom]
    split_ifs
    · rfl
    · rfl
    · rfl
    · rw [ih _ (by simp only [List.length_drop]; omega)]

@[simp] theorem scanLog_nil : scanLog [] = [] := rfl

theorem readRecHdr_encodeRecord (r : Record) (rest : List UInt8) :
    readRecHdr (encodeRecord r.gid r.ids ++ rest) =
      ⟨r.gid, r.ids.length, 0, recSize r.ids.length⟩ := by
  have hg : r.gid < 256 ^ 4 := by simpa using r.gid_lt
  have hl : r.ids.length < 256 ^ 2 := by simpa using r.ids_le
  have hs : recSize r.ids.length < 256 ^ 4 := by simpa using recSize_lt r.ids_le
  -- the four header fields are the pieces at 0, 4, 6 and 8
  have h0 := slice_mid [] (le 4 r.gid)
  have h4 := slice_mid (le 4 r.gid) (le 2 r.ids.length)
  have h6 := slice_mid (le 4 r.gid ++ le 2 r.ids.length) (le 2 0)
  have h8 := slice_mid (le 4 r.gid ++ le 2 r.ids.length ++ le 2 0) (le 4 (recSize r.ids.length))
  simp only [List.length_append, List.length_nil, length_le, List.nil_append, List.append_assoc,
    Nat.reduceAdd] at h0 h4 h6 h8
  simp only [readRecHdr, readLe, encodeRecord, List.append_assoc]
  rw [h0, h4, h6, h8, val_le_of_lt hg, val_le_of_lt hl, val_le_of_lt hs, val_le_of_lt (by norm_num)]

theorem drop_header_encodeRecord (r : Record) (rest : List UInt8) :
    readCells 4 r.ids.length ((encodeRecord r.gid r.ids ++ rest).drop 12) = r.ids := by
  have hl : (le 4 r.gid ++ le 2 r.ids.length ++ le 2 0 ++ le 4 (recSize r.ids.length)).length =
      12 := by simp
  simp only [encodeRecord]
  rw [List.append_assoc, List.append_assoc, List.append_assoc, List.drop_left' hl]
  exact readCells_cells _ (fun v hv => by simpa using r.ids_lt v hv) _

/-- Scanning a record leaves the scan at the first byte of the next one. -/
theorem scanFrom_encodeRecord (fuel : ℕ) (r : Record) (rest : List UInt8) :
    scanFrom (fuel + 1) (encodeRecord r.gid r.ids ++ rest) =
      (r.gid, r.ids) :: scanFrom fuel rest := by
  have hge := recSize_ge r.ids.length
  have hlen : (encodeRecord r.gid r.ids ++ rest).length = recSize r.ids.length + rest.length := by
    rw [List.length_append, length_encodeRecord]
  rw [scanFrom, readRecHdr_encodeRecord, if_neg (by omega), if_neg (by simp only; omega),
    if_neg (by simp only; omega), drop_header_encodeRecord]
  congr 2
  simp only
  rw [← length_encodeRecord r.gid r.ids, List.drop_left]

theorem scanLog_encodeAll (rs : List Record) :
    scanLog (encodeAll rs) = rs.map fun r => (r.gid, r.ids) := by
  induction rs with
  | nil => rfl
  | cons r rs ih =>
    have hge := recSize_ge r.ids.length
    have hlen : (encodeAll (r :: rs)).length =
        (encodeAll rs).length + (recSize r.ids.length - 1) + 1 := by
      rw [encodeAll_cons, List.length_append, length_encodeRecord]
      omega
    rw [scanLog, hlen, encodeAll_cons, scanFrom_encodeRecord, scanFrom_stable _ _ _ le_rfl,
      List.map_cons, ← ih, scanLog]

theorem scanFrom_ids_lt (fuel : ℕ) (bs : List UInt8) :
    ∀ p ∈ scanFrom fuel bs, ∀ v ∈ p.2, v < 2 ^ 32 := by
  induction fuel generalizing bs with
  | zero => simp [scanFrom]
  | succ fuel ih =>
    intro p hp
    rw [scanFrom] at hp
    split_ifs at hp
    · simp at hp
    · simp at hp
    · simp at hp
    · rcases List.mem_cons.mp hp with rfl | hp
      · intro v hv
        simpa using readCells_lt 4 _ _ v hv
      · exact ih _ p hp

end HiDANN.Construction
