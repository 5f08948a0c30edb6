import Mathlib.Data.List.Basic

/-! Numbers in decimal. What a number is printed as is a nonempty run of digits, and the
digits read from the left give the number back. -/

namespace HiDANN.Decimal

def value (digits : List Char) : ℕ := digits.foldl (fun n c => 10 * n + (c.toNat - 48)) 0

theorem toList_toString (n : ℕ) : (toString n).toList = Nat.toDigits 10 n := by
  rw [Nat.toString_eq_ofList_toDigits, String.toList_ofList]

theorem isDigit_of_mem {n : ℕ} {c : Char} (h : c ∈ (toString n).toList) : c.isDigit = true := by
  rw [toList_toString] at h
  exact Nat.isDigit_of_mem_toDigits (by decide) (by decide) h

theorem toList_ne_nil (n : ℕ) : (toString n).toList ≠ [] := by
  rw [toList_toString]
  exact Nat.toDigits_ne_nil

theorem value_toString (n : ℕ) : value (toString n).toList = n := by
  rw [toList_toString]
  exact Nat.ofDigitChars_ten_toDigits

theorem toString_injective {m n : ℕ} (h : toString m = toString n) : m = n := by
  rw [← value_toString m, h, value_toString]

end HiDANN.Decimal
