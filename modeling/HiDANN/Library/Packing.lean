import HiDANN.Library.Bytes

/-! Records of one length packed into blocks of one size. A block holds a fixed
number of records, in order and without a gap, and is filled up at its end; the last
block may hold fewer. A record is found again through the quotient and the remainder
of its number. -/

namespace HiDANN.Packing

open Bytes

/-! ### Rounding -/

def divRoundUp (x y : ℕ) : ℕ := x / y + if x % y = 0 then 0 else 1

def roundUp (x y : ℕ) : ℕ := divRoundUp x y * y

theorem le_roundUp {x y : ℕ} (hy : 0 < y) : x ≤ roundUp x y := by
  have h := Nat.div_add_mod x y
  have hlt := Nat.mod_lt x hy
  rw [roundUp, divRoundUp, Nat.add_mul, Nat.mul_comm]
  split_ifs <;> omega

theorem roundUp_lt {x y : ℕ} (hy : 0 < y) : roundUp x y < x + y := by
  have h := Nat.div_add_mod x y
  rw [roundUp, divRoundUp, Nat.add_mul, Nat.mul_comm]
  split_ifs <;> omega

theorem roundUp_add_self {x y : ℕ} (hy : 0 < y) : roundUp (x + y) y = roundUp x y + y := by
  rw [roundUp, roundUp, divRoundUp, divRoundUp, Nat.add_div_right x hy, Nat.add_mod_right]
  ring

/-- What fits one block takes one block. -/
theorem roundUp_of_le {x y : ℕ} (hx : 0 < x) (hxy : x ≤ y) : roundUp x y = y := by
  rcases Nat.lt_or_eq_of_le hxy with hlt | rfl
  · rw [roundUp, divRoundUp, Nat.div_eq_of_lt hlt, Nat.mod_eq_of_lt hlt, if_neg hx.ne',
      Nat.zero_add, Nat.one_mul]
  · rw [roundUp, divRoundUp, Nat.div_self hx, Nat.mod_self, if_pos rfl, Nat.add_zero, Nat.one_mul]

/-- The quotient that rounds up by adding first. -/
theorem divRoundUp_eq {x y : ℕ} (hy : 0 < y) : divRoundUp x y = (x + (y - 1)) / y := by
  have h := Nat.div_add_mod x y
  have hlt := Nat.mod_lt x hy
  rw [divRoundUp]
  symm
  split_ifs with h0
  · rw [Nat.add_zero, Nat.div_eq_iff hy, Nat.mul_comm]
    omega
  · rw [Nat.div_eq_iff hy, Nat.add_mul, Nat.mul_comm]
    omega

/-- As many blocks as it takes. -/
theorem div_lt_divRoundUp {i n k : ℕ} (hk : 0 < k) (hi : i < n) : i / k < divRoundUp n k := by
  have h := Nat.div_add_mod n k
  have hlt := Nat.mod_lt n hk
  rw [Nat.div_lt_iff_lt_mul hk, divRoundUp, Nat.add_mul, Nat.mul_comm]
  split_ifs <;> omega

theorem mul_lt_of_lt_divRoundUp {b n k : ℕ} (hk : 0 < k) (hb : b < divRoundUp n k) :
    b * k < n := by
  have h := Nat.div_add_mod n k
  rw [Nat.mul_comm] at h
  rw [divRoundUp] at hb
  split_ifs at hb with h0
  · have := Nat.mul_le_mul_right k (show b + 1 ≤ n / k by omega)
    rw [Nat.succ_mul] at this
    omega
  · have := Nat.mul_le_mul_right k (show b ≤ n / k by omega)
    omega

theorem divRoundUp_one (n : ℕ) : divRoundUp n 1 = n := by
  rw [divRoundUp, Nat.div_one, Nat.mod_one, if_pos rfl, Nat.add_zero]

/-! ### Blocks -/

variable {α : Type*} (z : α)

/-- Fill up to a length. -/
def padTo (w : ℕ) (xs : List α) : List α := xs ++ List.replicate (w - xs.length) z

theorem length_padTo {w : ℕ} {xs : List α} (h : xs.length ≤ w) : (padTo z w xs).length = w := by
  rw [padTo, List.length_append, List.length_replicate]
  omega

/-- The records of block `b`, of `n` records with `k` in a block. -/
def blockRecords (k n : ℕ) (record : ℕ → List α) (b : ℕ) : List α :=
  (List.range' (b * k) (min k (n - b * k))).flatMap record

/-- The first `m` blocks of size `S`. -/
def pack (S k n : ℕ) (record : ℕ → List α) (m : ℕ) : List α :=
  (List.range m).flatMap fun b => padTo z S (blockRecords k n record b)

theorem pack_succ (S k n : ℕ) (record : ℕ → List α) (m : ℕ) :
    pack z S k n record (m + 1) =
      pack z S k n record m ++ padTo z S (blockRecords k n record m) := by
  rw [pack, List.range_succ, List.flatMap_append, ← pack, List.flatMap_singleton]

section Records

variable {S k n w : ℕ} {record : ℕ → List α} (hw : ∀ i < n, (record i).length = w)

include hw

theorem length_blockRecords (b : ℕ) :
    (blockRecords k n record b).length = w * min k (n - b * k) := by
  rw [blockRecords, length_flatMap_const record (w := w), List.length_range']
  intro i hi
  have hi := List.mem_range'_1.mp hi
  exact hw i (by omega)

variable (hS : w * k ≤ S)

include hS

theorem length_block (b : ℕ) : (padTo z S (blockRecords k n record b)).length = S := by
  refine length_padTo z ?_
  rw [length_blockRecords hw]
  exact (Nat.mul_le_mul_left w (min_le_left _ _)).trans hS

theorem length_pack (m : ℕ) : (pack z S k n record m).length = S * m := by
  rw [pack, length_flatMap_const _ _ fun b _ => length_block z hw hS b, List.length_range]

/-- Record `i` lies in block `i / k`, behind `i % k` records. -/
theorem slice_pack {i m : ℕ} (hi : i < n) (hm : i / k < m) (hk : 0 < k) :
    slice (pack z S k n record m) (S * (i / k) + w * (i % k)) w = record i := by
  have hmod := Nat.mod_lt i hk
  have hdiv : i / k * k + i % k = i := by rw [Nat.mul_comm]; exact Nat.div_add_mod i k
  have hin : w * (i % k) + w ≤ w * k := by
    rw [← Nat.mul_succ]
    exact Nat.mul_le_mul_left w hmod
  have hblock := slice_flatMap (fun b => padTo z S (blockRecords k n record b)) (List.range m)
    (fun b _ => length_block z hw hS b) (i / k) (by rwa [List.length_range])
  have hlen := length_blockRecords (k := k) hw (i / k)
  have hcount : i % k < min k (n - i / k * k) := by omega
  have hrecord := slice_flatMap record (w := w)
    (List.range' (i / k * k) (min k (n - i / k * k))) (fun j hj => by
      have hj := List.mem_range'_1.mp hj
      exact hw j (by omega)) (i % k) (by rwa [List.length_range'])
  rw [pack, ← slice_slice _ (hin.trans hS), hblock, List.getElem_range, padTo, slice_append_left,
    blockRecords, hrecord, List.getElem_range', Nat.one_mul, hdiv]
  rw [hlen, ← Nat.mul_succ]
  exact Nat.mul_le_mul_left w hcount

end Records

end HiDANN.Packing
