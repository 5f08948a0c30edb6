import Mathlib.Data.Nat.Basic
import Mathlib.Data.Int.Notation
import Mathlib.Tactic.Ring
import Mathlib.Tactic.Linarith

/-! The split of the global ids `[0, N)` into `B` buckets. `bucket_size` is the
rounded-up quotient, so the last buckets can be short or empty when `B` does not
divide `N` or exceeds it. The ranges `[bucketBase b, bucketLimit b)` tile the
ids, and an id lies in the range of the bucket it is mapped to and in no other. -/

namespace HiDANN.Construction

/-- Number of points (a 32-bit header field) and number of bucket logs. -/
structure Buckets where
  N : ℕ
  B : ℕ
  N_lt : N < 2 ^ 32
  B_pos : 0 < B

/-- The bucket count `main` settles on: `--buckets` when positive, else one
bucket for as many ids as fit the derived in-memory budget. -/
def bucketCount (buckets : ℤ) (N D P R : ℕ) : ℕ :=
  if 0 < buckets then buckets.toNat
  else
    let perGidBytesInmem := (8 * (R * P) + 64) % 2 ^ 64
    let reserveBytes := 8 * 2 ^ 20
    let vecBytes := N * D * 4 % 2 ^ 64
    let topoBytes := N * R * 4 % 2 ^ 64
    let mBudget := 2 * (((vecBytes + topoBytes) % 2 ^ 64) / P) % 2 ^ 64
    let usable := if reserveBytes < mBudget then mBudget - reserveBytes else 1
    let uMax := max (usable / max perGidBytesInmem 1) 1
    max ((N + uMax - 1) / uMax % 2 ^ 32) 1

theorem bucketCount_pos (buckets : ℤ) (N D P R : ℕ) : 0 < bucketCount buckets N D P R := by
  unfold bucketCount
  split_ifs with h
  · omega
  · exact lt_of_lt_of_le Nat.one_pos (le_max_right _ _)

namespace Buckets

variable (c : Buckets)

def bucketSize : ℕ := (c.N + c.B - 1) / c.B

def gidToBucket (gid : ℕ) : ℕ := min (gid / c.bucketSize) (c.B - 1)

def bucketBase (b : ℕ) : ℕ := min (b * c.bucketSize) c.N

def bucketLimit (b : ℕ) : ℕ := min ((b + 1) * c.bucketSize) c.N

theorem N_le_mul_bucketSize : c.N ≤ c.B * c.bucketSize := by
  have hB := c.B_pos
  have h := Nat.div_add_mod (c.N + c.B - 1) c.B
  have hm := Nat.mod_lt (c.N + c.B - 1) hB
  unfold bucketSize
  omega

theorem bucketSize_pos (h : 0 < c.N) : 0 < c.bucketSize := by
  have := c.N_le_mul_bucketSize
  rcases Nat.eq_zero_or_pos c.bucketSize with h0 | h0
  · rw [h0, Nat.mul_zero] at this; omega
  · exact h0

@[simp] theorem bucketBase_zero : c.bucketBase 0 = 0 := by simp [bucketBase]

theorem bucketBase_succ (b : ℕ) : c.bucketBase (b + 1) = c.bucketLimit b := rfl

theorem bucketBase_B : c.bucketBase c.B = c.N := by
  have := c.N_le_mul_bucketSize
  simp [bucketBase, this]

theorem bucketBase_le_limit (b : ℕ) : c.bucketBase b ≤ c.bucketLimit b := by
  have : b * c.bucketSize ≤ (b + 1) * c.bucketSize := Nat.mul_le_mul_right _ (by omega)
  simp only [bucketBase, bucketLimit]
  omega

theorem bucketLimit_le (b : ℕ) : c.bucketLimit b ≤ c.N := min_le_right _ _

/-- Inside its range the cap at the last bucket does not matter. -/
theorem gidToBucket_eq_div {gid : ℕ} (h : gid < c.N) :
    c.gidToBucket gid = gid / c.bucketSize := by
  have hs := c.bucketSize_pos (by omega)
  have hlt : gid / c.bucketSize < c.B := by
    rw [Nat.div_lt_iff_lt_mul hs]
    exact h.trans_le c.N_le_mul_bucketSize
  exact min_eq_left (by omega)

theorem gidToBucket_lt (gid : ℕ) : c.gidToBucket gid < c.B := by
  have := c.B_pos
  have : c.gidToBucket gid ≤ c.B - 1 := min_le_right _ _
  omega

theorem mem_range_iff {gid : ℕ} (h : gid < c.N) (b : ℕ) :
    c.bucketBase b ≤ gid ∧ gid < c.bucketLimit b ↔ c.gidToBucket gid = b := by
  have hs := c.bucketSize_pos (by omega)
  rw [c.gidToBucket_eq_div h, Nat.div_eq_iff hs]
  simp only [bucketBase, bucketLimit, min_le_iff, lt_min_iff, Nat.add_mul]
  omega

theorem gidToBucket_of_mem {gid b : ℕ} (h1 : c.bucketBase b ≤ gid) (h2 : gid < c.bucketLimit b) :
    c.gidToBucket gid = b :=
  (c.mem_range_iff (h2.trans_le (c.bucketLimit_le b)) b).mp ⟨h1, h2⟩

end Buckets

end HiDANN.Construction
