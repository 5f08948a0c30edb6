import Mathlib.Data.List.Basic
import Mathlib.Data.List.GetD
import Mathlib.Tactic.Ring
import Mathlib.Tactic.Linarith

/-! Fixed-width little-endian integers inside byte lists, windows of a list,
positioned writes and streams. A file is a list of bytes; a positioned write past
the end fills the gap with zeros. Cells are consecutive integers of one width. -/

namespace HiDANN.Bytes

variable {α : Type*}

/-! ### Integers -/

theorem zero_lt_word : 0 < 2 ^ 32 := Nat.two_pow_pos 32

theorem one_lt_word : 1 < 2 ^ 32 := Nat.one_lt_two_pow_iff.mpr (by decide)

theorem two_lt_word : 2 < 2 ^ 32 := by decide

theorem four_lt_word : 4 < 2 ^ 32 := by decide

theorem zero_lt_long : 0 < 2 ^ 64 := Nat.two_pow_pos 64

/-- `w` little-endian bytes of `n`; the bits that do not fit are dropped. -/
def le : ℕ → ℕ → List UInt8
  | 0, _ => []
  | w + 1, n => UInt8.ofNat n :: le w (n / 256)

def val : List UInt8 → ℕ
  | [] => 0
  | b :: bs => b.toNat + 256 * val bs

@[simp] theorem length_le (w n : ℕ) : (le w n).length = w := by
  induction w generalizing n with
  | zero => rfl
  | succ w ih => simp [le, ih]

theorem val_le (w n : ℕ) : val (le w n) = n % 256 ^ w := by
  induction w generalizing n with
  | zero => simp [le, val, Nat.mod_one]
  | succ w ih =>
    have hb : (UInt8.ofNat n).toNat = n % 256 := by simp
    rw [le, val, hb, ih, pow_succ, Nat.mul_comm, Nat.mul_comm (256 ^ w), Nat.mod_mul]
    ring

theorem val_le_of_lt {w n : ℕ} (h : n < 256 ^ w) : val (le w n) = n := by
  rw [val_le, Nat.mod_eq_of_lt h]

theorem val_lt (bs : List UInt8) : val bs < 256 ^ bs.length := by
  induction bs with
  | nil => simp [val]
  | cons b bs ih =>
    have hb := b.toNat_lt
    rw [val, List.length_cons, pow_succ]
    omega

/-! ### Windows -/

/-- The `len` elements of `xs` from position `off`. -/
def slice (xs : List α) (off len : ℕ) : List α := (xs.drop off).take len

theorem length_slice (xs : List α) (off len : ℕ) :
    (slice xs off len).length = min len (xs.length - off) := by
  simp [slice]

theorem length_slice_of_le {xs : List α} {off len : ℕ} (h : off + len ≤ xs.length) :
    (slice xs off len).length = len := by
  rw [length_slice]; omega

theorem slice_zero_len (xs : List α) (off : ℕ) : slice xs off 0 = [] := by
  simp [slice]

theorem slice_append_add (xs ys : List α) (off len : ℕ) :
    slice (xs ++ ys) (xs.length + off) len = slice ys off len := by
  rw [slice, slice, ← List.drop_drop, List.drop_left]

theorem slice_append_length (xs ys : List α) (len : ℕ) :
    slice (xs ++ ys) xs.length len = ys.take len := by
  simp [slice]

/-- A window that ends inside the prefix does not see the rest. -/
theorem slice_append_left {xs : List α} (ys : List α) {off len : ℕ}
    (h : off + len ≤ xs.length) : slice (xs ++ ys) off len = slice xs off len := by
  rw [slice, slice, List.drop_append_of_le_length (by omega), List.take_append_of_le_length]
  simp; omega

theorem slice_mid (xs ys zs : List α) : slice (xs ++ (ys ++ zs)) xs.length ys.length = ys := by
  rw [slice_append_length, List.take_left]

theorem slice_slice (xs : List α) {a n b m : ℕ} (h : b + m ≤ n) :
    slice (slice xs a n) b m = slice xs (a + b) m := by
  simp only [slice, List.drop_take, List.take_take, List.drop_drop]
  congr 1
  omega

theorem slice_flatMap {β : Type*} (f : β → List α) {w : ℕ} (xs : List β)
    (hw : ∀ x ∈ xs, (f x).length = w) (i : ℕ) (hi : i < xs.length) :
    slice (xs.flatMap f) (w * i) w = f xs[i] := by
  induction xs generalizing i with
  | nil => simp at hi
  | cons x xs ih =>
    have hx : (f x).length = w := hw x (by simp)
    cases i with
    | zero =>
      rw [Nat.mul_zero, slice, List.drop_zero, List.flatMap_cons, ← hx, List.take_left]
      rfl
    | succ i =>
      have hi' : i < xs.length := by simpa using hi
      rw [List.flatMap_cons, show w * (i + 1) = (f x).length + w * i by rw [hx]; ring,
        slice_append_add]
      simpa using ih (fun y hy => hw y (by simp [hy])) i hi'

theorem length_flatMap_const {β : Type*} (f : β → List α) {w : ℕ} (xs : List β)
    (hw : ∀ x ∈ xs, (f x).length = w) : (xs.flatMap f).length = w * xs.length := by
  induction xs with
  | nil => simp
  | cons x xs ih =>
    rw [List.flatMap_cons, List.length_append, hw x (by simp),
      ih (fun y hy => hw y (by simp [hy])), List.length_cons]
    ring

/-- Read one `w`-byte integer at a byte position. -/
def readLe (w : ℕ) (bs : List UInt8) (off : ℕ) : ℕ := val (slice bs off w)

/-! ### Cells -/

/-- Consecutive integers of `w` bytes each. -/
def cells (w : ℕ) (ns : List ℕ) : List UInt8 := ns.flatMap (le w)

/-- Read `k` consecutive integers of `w` bytes. -/
def readCells (w : ℕ) : ℕ → List UInt8 → List ℕ
  | 0, _ => []
  | k + 1, bs => val (bs.take w) :: readCells w k (bs.drop w)

@[simp] theorem cells_nil (w : ℕ) : cells w [] = [] := rfl

@[simp] theorem cells_cons (w n : ℕ) (ns : List ℕ) : cells w (n :: ns) = le w n ++ cells w ns :=
  rfl

@[simp] theorem cells_append (w : ℕ) (ns ms : List ℕ) :
    cells w (ns ++ ms) = cells w ns ++ cells w ms :=
  List.flatMap_append

@[simp] theorem length_cells (w : ℕ) (ns : List ℕ) : (cells w ns).length = w * ns.length :=
  length_flatMap_const _ _ (by simp)

@[simp] theorem length_readCells (w k : ℕ) (bs : List UInt8) : (readCells w k bs).length = k := by
  induction k generalizing bs with
  | zero => rfl
  | succ k ih => simp [readCells, ih]

theorem readCells_lt (w k : ℕ) (bs : List UInt8) : ∀ v ∈ readCells w k bs, v < 256 ^ w := by
  induction k generalizing bs with
  | zero => simp [readCells]
  | succ k ih =>
    intro v hv
    rcases List.mem_cons.mp hv with rfl | hv
    · exact (val_lt _).trans_le (Nat.pow_le_pow_right (by norm_num) (by simp))
    · exact ih _ v hv

/-- Cells are read back up to the bits that did not fit, whatever follows them. -/
theorem readCells_cells_mod {w : ℕ} (ns : List ℕ) (rest : List UInt8) :
    readCells w ns.length (cells w ns ++ rest) = ns.map fun n => n % 256 ^ w := by
  induction ns with
  | nil => rfl
  | cons n ns ih =>
    have ht : (le w n ++ (cells w ns ++ rest)).take w = le w n := List.take_left' (length_le w n)
    have hd : (le w n ++ (cells w ns ++ rest)).drop w = cells w ns ++ rest :=
      List.drop_left' (length_le w n)
    rw [cells_cons, List.append_assoc, List.length_cons, readCells, ht, hd, val_le, ih,
      List.map_cons]

/-- Cells that fit their width are read back. -/
theorem readCells_cells {w : ℕ} (ns : List ℕ) (hn : ∀ n ∈ ns, n < 256 ^ w) (rest : List UInt8) :
    readCells w ns.length (cells w ns ++ rest) = ns := by
  rw [readCells_cells_mod, List.map_congr_left fun n h => Nat.mod_eq_of_lt (hn n h), List.map_id']

theorem readCells_take (w k m : ℕ) (bs : List UInt8) (h : w * k ≤ m) :
    readCells w k (bs.take m) = readCells w k bs := by
  induction k generalizing bs m with
  | zero => rfl
  | succ k ih =>
    have hw : w * (k + 1) = w * k + w := by ring
    rw [readCells, readCells, List.take_take, min_eq_left (by omega), List.drop_take,
      ih (m - w) _ (by omega)]

/-- Reading through a window is reading in place. -/
theorem readCells_slice (w k : ℕ) (bs : List UInt8) {a n b : ℕ} (h : b + w * k ≤ n) :
    readCells w k ((slice bs a n).drop b) = readCells w k (bs.drop (a + b)) := by
  rw [slice, List.drop_take, readCells_take _ _ _ _ (by omega), List.drop_drop]

/-! ### Positioned writes -/

/-- Write `bs` at position `off`, filling a gap past the end with zeros. -/
def overwrite (file : List UInt8) (off : ℕ) (bs : List UInt8) : List UInt8 :=
  file.take off ++ List.replicate (off - file.length) 0 ++ bs ++ file.drop (off + bs.length)

theorem length_overwrite (file bs : List UInt8) (off : ℕ) :
    (overwrite file off bs).length = max file.length (off + bs.length) := by
  simp only [overwrite, List.length_append, List.length_take, List.length_replicate,
    List.length_drop]
  omega

theorem overwrite_end (file bs : List UInt8) : overwrite file file.length bs = file ++ bs := by
  simp [overwrite]

/-- A write in the middle replaces as many bytes as it has. -/
theorem overwrite_mid (xs ys zs bs : List UInt8) (h : ys.length = bs.length) :
    overwrite (xs ++ (ys ++ zs)) xs.length bs = xs ++ (bs ++ zs) := by
  have hgap : xs.length - (xs ++ (ys ++ zs)).length = 0 := by
    rw [List.length_append]
    omega
  rw [overwrite, hgap, List.replicate_zero, List.append_nil, List.take_left, ← List.append_assoc xs,
    ← h, ← List.length_append, List.drop_left, List.append_assoc]

/-- A write at the front replaces a header of the same length. -/
theorem overwrite_front (hdr rest bs : List UInt8) (h : hdr.length = bs.length) :
    overwrite (hdr ++ rest) 0 bs = bs ++ rest :=
  overwrite_mid [] hdr rest bs h

/-! ### Bytes at a position -/

def HasAt (file : List UInt8) (pos : ℕ) (bytes : List UInt8) : Prop :=
  ∃ xs zs, file = xs ++ (bytes ++ zs) ∧ xs.length = pos

section HasAt

variable {file bytes : List UInt8} {pos off : ℕ}

theorem HasAt.slice_eq (h : HasAt file pos bytes) : slice file pos bytes.length = bytes := by
  obtain ⟨xs, zs, rfl, rfl⟩ := h
  exact slice_mid xs bytes zs

theorem HasAt.le_length (h : HasAt file pos bytes) : pos + bytes.length ≤ file.length := by
  obtain ⟨xs, zs, rfl, rfl⟩ := h
  simp

theorem HasAt.left {ys : List UInt8} (h : HasAt file pos (bytes ++ ys)) : HasAt file pos bytes := by
  obtain ⟨xs, zs, rfl, hlen⟩ := h
  exact ⟨xs, ys ++ zs, by rw [List.append_assoc], hlen⟩

theorem HasAt.right {ys : List UInt8} (h : HasAt file pos (bytes ++ ys)) :
    HasAt file (pos + bytes.length) ys := by
  obtain ⟨xs, zs, rfl, hlen⟩ := h
  refine ⟨xs ++ bytes, zs, ?_, ?_⟩
  · rw [List.append_assoc, List.append_assoc]
  · rw [List.length_append, hlen]

theorem hasAt_slice (len : ℕ) (h : pos ≤ file.length) : HasAt file pos (slice file pos len) := by
  refine ⟨file.take pos, (file.drop pos).drop len, ?_, ?_⟩
  · rw [slice, List.take_append_drop, List.take_append_drop]
  · rw [List.length_take, Nat.min_eq_left h]

theorem hasAt_overwrite (file bs : List UInt8) (off : ℕ) : HasAt (overwrite file off bs) off bs := by
  refine ⟨file.take off ++ List.replicate (off - file.length) 0, file.drop (off + bs.length), ?_, ?_⟩
  · rw [overwrite, List.append_assoc]
  · rw [List.length_append, List.length_take, List.length_replicate]
    omega

/-- A write changes nothing before it. -/
theorem HasAt.overwrite_behind (h : HasAt file pos bytes) (bs : List UInt8)
    (hle : pos + bytes.length ≤ off) : HasAt (overwrite file off bs) pos bytes := by
  obtain ⟨xs, zs, rfl, rfl⟩ := h
  have htake : (xs ++ (bytes ++ zs)).take off =
      xs ++ (bytes ++ zs.take (off - xs.length - bytes.length)) := by
    rw [List.take_append, List.take_of_length_le (by omega), List.take_append,
      List.take_of_length_le (by omega)]
  rw [overwrite, htake]
  simp only [List.append_assoc]
  exact ⟨xs, _, rfl, rfl⟩

/-- And nothing behind it. -/
theorem HasAt.overwrite_before (h : HasAt file pos bytes) (bs : List UInt8)
    (hle : off + bs.length ≤ pos) : HasAt (overwrite file off bs) pos bytes := by
  obtain ⟨xs, zs, rfl, rfl⟩ := h
  have hdrop : (xs ++ (bytes ++ zs)).drop (off + bs.length) =
      xs.drop (off + bs.length) ++ (bytes ++ zs) := List.drop_append_of_le_length hle
  refine ⟨(xs ++ (bytes ++ zs)).take off ++ bs ++ xs.drop (off + bs.length), zs, ?_, ?_⟩
  · have hgap : off - (xs ++ (bytes ++ zs)).length = 0 := by
      rw [List.length_append]
      omega
    rw [overwrite, hdrop, hgap]
    simp only [List.replicate_zero, List.append_nil, List.append_assoc]
  · simp only [List.length_append, List.length_take, List.length_drop]
    omega

end HasAt

/-! ### Streams -/

/-- Take one `w`-byte integer off a stream. -/
def nextLe (w : ℕ) (bs : List UInt8) : Option (ℕ × List UInt8) :=
  if w ≤ bs.length then some (val (bs.take w), bs.drop w) else none

def nextCells (w k : ℕ) (bs : List UInt8) : Option (List ℕ × List UInt8) :=
  if w * k ≤ bs.length then some (readCells w k bs, bs.drop (w * k)) else none

theorem nextLe_le {w n : ℕ} (h : n < 256 ^ w) (rest : List UInt8) :
    nextLe w (le w n ++ rest) = some (n, rest) := by
  rw [nextLe, if_pos (by simp), List.take_left' (length_le w n), List.drop_left' (length_le w n),
    val_le_of_lt h]

theorem nextCells_cells {w : ℕ} {ns : List ℕ} (h : ∀ n ∈ ns, n < 256 ^ w) (rest : List UInt8) :
    nextCells w ns.length (cells w ns ++ rest) = some (ns, rest) := by
  rw [nextCells, if_pos (by simp), readCells_cells ns h, List.drop_left' (length_cells w ns)]

theorem length_of_nextLe {w n : ℕ} {bs rest : List UInt8} (h : nextLe w bs = some (n, rest)) :
    rest.length + w = bs.length := by
  unfold nextLe at h
  split_ifs at h with hw
  cases h
  rw [List.length_drop]
  omega

theorem length_of_nextCells {w k : ℕ} {ns : List ℕ} {bs rest : List UInt8}
    (h : nextCells w k bs = some (ns, rest)) : rest.length + w * k = bs.length := by
  unfold nextCells at h
  split_ifs at h with hw
  cases h
  rw [List.length_drop]
  omega

end HiDANN.Bytes
