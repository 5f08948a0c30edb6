import Mathlib.Algebra.Order.Ring.Nat
import Mathlib.Tactic.Common

/-! Unsigned words of `w` bits, as numbers below `2 ^ w`. A difference wraps around
when more is taken away than there is, and then is larger than what it was taken from. -/

namespace HiDANN.Words

/-- `a - b` on `w` bits. -/
def sub (w a b : ℕ) : ℕ := (a + (2 ^ w - b % 2 ^ w)) % 2 ^ w

variable {w a b : ℕ}

theorem sub_lt (w a b : ℕ) : sub w a b < 2 ^ w := Nat.mod_lt _ (Nat.two_pow_pos w)

theorem sub_of_le (h : b ≤ a) (ha : a < 2 ^ w) : sub w a b = a - b := by
  rw [sub, Nat.mod_eq_of_lt (h.trans_lt ha), show a + (2 ^ w - b) = a - b + 2 ^ w by omega,
    Nat.add_mod_right, Nat.mod_eq_of_lt (by omega)]

theorem sub_of_lt (h : a < b) (hb : b < 2 ^ w) : sub w a b = 2 ^ w - (b - a) := by
  rw [sub, Nat.mod_eq_of_lt hb, show a + (2 ^ w - b) = 2 ^ w - (b - a) by omega,
    Nat.mod_eq_of_lt (by omega)]

end HiDANN.Words
