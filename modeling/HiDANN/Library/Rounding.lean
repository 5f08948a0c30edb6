import Mathlib.Algebra.Order.Ring.Nat
import Mathlib.Data.Int.Log
import Mathlib.Data.Rat.Floor
import Mathlib.Tactic.Linarith
import Mathlib.Tactic.NormNum
import Mathlib.Tactic.Ring

/-! Floating-point numbers that are not negative, with any number of binary digits and
an exponent without bounds. A number is rounded to the nearest, to the even one of two
that are as near, and does not pass a number that has few enough digits. -/

namespace HiDANN.Rounding

/-! ### To an integer -/

/-- The nearest integer, the even one halfway between two. -/
def roundEven (q : ℚ) : ℤ :=
  if q - ⌊q⌋ < 1 / 2 then ⌊q⌋
  else if 1 / 2 < q - ⌊q⌋ then ⌊q⌋ + 1
  else ⌊q⌋ + ⌊q⌋ % 2

@[simp] theorem roundEven_intCast (n : ℤ) : roundEven n = n := by
  simp [roundEven]

theorem floor_le_roundEven (q : ℚ) : ⌊q⌋ ≤ roundEven q := by
  unfold roundEven
  split_ifs <;> omega

theorem roundEven_le_floor_add_one (q : ℚ) : roundEven q ≤ ⌊q⌋ + 1 := by
  unfold roundEven
  split_ifs <;> omega

theorem roundEven_le {q : ℚ} {n : ℤ} (h : q ≤ n) : roundEven q ≤ n := by
  rcases h.eq_or_lt with rfl | hlt
  · rw [roundEven_intCast]
  · have hfloor : ⌊q⌋ < n := Int.floor_lt.mpr hlt
    have := roundEven_le_floor_add_one q
    omega

theorem le_roundEven {q : ℚ} {n : ℤ} (h : n ≤ q) : n ≤ roundEven q :=
  (Int.le_floor.mpr h).trans (floor_le_roundEven q)

theorem roundEven_mono {q r : ℚ} (h : q ≤ r) : roundEven q ≤ roundEven r := by
  rcases (Int.floor_le_floor h).eq_or_lt with hfloor | hfloor
  · -- between the same integers, the nearer one is reached first
    have hfrac : q - ⌊q⌋ ≤ r - ⌊q⌋ := by linarith
    unfold roundEven
    rw [← hfloor]
    split_ifs <;> first | omega | linarith
  · calc roundEven q ≤ ⌊q⌋ + 1 := roundEven_le_floor_add_one q
      _ ≤ ⌊r⌋ := hfloor
      _ ≤ roundEven r := floor_le_roundEven r

/-! ### To a number of digits -/

/-- The weight of the last of the `p` digits of `q`. -/
def ulp (p : ℕ) (q : ℚ) : ℚ := 2 ^ (Int.log 2 q - p + 1)

/-- `q` rounded to `p` binary digits. -/
def roundTo (p : ℕ) (q : ℚ) : ℚ := roundEven (q / ulp p q) * ulp p q

theorem ulp_pos (p : ℕ) (q : ℚ) : 0 < ulp p q := zpow_pos two_pos _

@[simp] theorem roundTo_zero (p : ℕ) : roundTo p 0 = 0 := by
  have h : roundEven 0 = 0 := by
    simpa using roundEven_intCast 0
  simp [roundTo, h]

theorem roundTo_le_mul_ulp {p : ℕ} {q : ℚ} {n : ℕ} (h : q ≤ n * ulp p q) :
    roundTo p q ≤ n * ulp p q := by
  have hdiv : q / ulp p q ≤ (n : ℤ) := by
    rw [div_le_iff₀ (ulp_pos p q)]
    exact_mod_cast h
  exact mul_le_mul_of_nonneg_right (by exact_mod_cast roundEven_le hdiv) (ulp_pos p q).le

theorem mul_ulp_le_roundTo {p : ℕ} {q : ℚ} {n : ℕ} (h : n * ulp p q ≤ q) :
    n * ulp p q ≤ roundTo p q := by
  have hdiv : (n : ℤ) ≤ q / ulp p q := by
    rw [le_div_iff₀ (ulp_pos p q)]
    exact_mod_cast h
  exact mul_le_mul_of_nonneg_right (by exact_mod_cast le_roundEven hdiv) (ulp_pos p q).le

theorem roundTo_nonneg (p : ℕ) {q : ℚ} (h : 0 ≤ q) : 0 ≤ roundTo p q := by
  simpa using mul_ulp_le_roundTo (n := 0) (by simpa using h)

/-- A power of two from the weight on is a multiple of it. -/
theorem exists_eq_mul_ulp {p : ℕ} {q : ℚ} {k : ℤ} (h : Int.log 2 q - p + 1 ≤ k) :
    ∃ n : ℕ, (2 : ℚ) ^ k = n * ulp p q := by
  obtain ⟨j, hj⟩ := Int.eq_ofNat_of_zero_le (sub_nonneg.mpr h)
  refine ⟨2 ^ j, ?_⟩
  rw [ulp, Nat.cast_pow, Nat.cast_two, ← zpow_natCast, ← zpow_add₀ two_ne_zero]
  congr 1
  omega

/-- What is at most a number of `p` digits stays so. -/
theorem roundTo_le {p m : ℕ} {q : ℚ} {k : ℤ} (hm : m < 2 ^ p) (hq : 0 ≤ q)
    (h : q ≤ m * 2 ^ k) : roundTo p q ≤ m * 2 ^ k := by
  rcases hq.eq_or_lt with rfl | hq
  · simpa using h
  have hlog : (2 : ℚ) ^ Int.log 2 q ≤ q := Int.zpow_log_le_self one_lt_two hq
  -- `q` is below `2 ^ (p + k)`, so its last digit weighs at most `2 ^ k`
  have hweight : Int.log 2 q - p + 1 ≤ k := by
    have hm' : (m : ℚ) < 2 ^ (p : ℤ) := by exact_mod_cast hm
    have hlt : (2 : ℚ) ^ Int.log 2 q < 2 ^ ((p : ℤ) + k) := by
      rw [zpow_add₀ two_ne_zero]
      exact (hlog.trans h).trans_lt (mul_lt_mul_of_pos_right hm' (zpow_pos two_pos k))
    have := (zpow_lt_zpow_iff_right₀ one_lt_two).mp hlt
    omega
  obtain ⟨n, hn⟩ := exists_eq_mul_ulp hweight
  have hmul : (m : ℚ) * 2 ^ k = (m * n : ℕ) * ulp p q := by
    rw [hn, Nat.cast_mul, mul_assoc]
  rw [hmul] at h ⊢
  exact roundTo_le_mul_ulp h

/-- What is at least a number of `p` digits stays so. -/
theorem le_roundTo {p m : ℕ} {q : ℚ} {k : ℤ} (hm : m < 2 ^ p) (hq : 0 < q)
    (h : m * 2 ^ k ≤ q) : m * 2 ^ k ≤ roundTo p q := by
  rcases le_or_gt (Int.log 2 q - p + 1) k with hweight | hweight
  · obtain ⟨n, hn⟩ := exists_eq_mul_ulp hweight
    have hmul : (m : ℚ) * 2 ^ k = (m * n : ℕ) * ulp p q := by
      rw [hn, Nat.cast_mul, mul_assoc]
    rw [hmul] at h ⊢
    exact mul_ulp_le_roundTo h
  · -- the number is below the first digit of `q`, which rounding leaves
    rcases Nat.eq_zero_or_pos p with rfl | hp
    · obtain rfl : m = 0 := by simpa using hm
      simpa using roundTo_nonneg 0 hq.le
    have hlog : (2 : ℚ) ^ Int.log 2 q ≤ q := Int.zpow_log_le_self one_lt_two hq
    obtain ⟨n, hn⟩ := exists_eq_mul_ulp (p := p) (q := q) (k := Int.log 2 q) (by omega)
    have hm' : (m : ℚ) ≤ 2 ^ (p : ℤ) := by exact_mod_cast hm.le
    calc (m : ℚ) * 2 ^ k ≤ 2 ^ (p : ℤ) * 2 ^ k :=
          mul_le_mul_of_nonneg_right hm' (zpow_pos two_pos k).le
      _ = 2 ^ ((p : ℤ) + k) := (zpow_add₀ two_ne_zero _ _).symm
      _ ≤ 2 ^ Int.log 2 q := zpow_le_zpow_right₀ one_le_two (by omega)
      _ ≤ roundTo p q := by
        rw [hn] at hlog ⊢
        exact mul_ulp_le_roundTo hlog

theorem roundTo_le_natCast {p n : ℕ} {q : ℚ} (hn : n < 2 ^ p) (hq : 0 ≤ q) (h : q ≤ n) :
    roundTo p q ≤ n := by
  have := roundTo_le (k := 0) hn hq (by simpa using h)
  simpa using this

theorem natCast_le_roundTo {p n : ℕ} {q : ℚ} (hn : n < 2 ^ p) (hq : 0 < q) (h : n ≤ q) :
    n ≤ roundTo p q := by
  have := le_roundTo (k := 0) hn hq (by simpa using h)
  simpa using this

theorem roundTo_eq {p m : ℕ} {k : ℤ} (hm : m < 2 ^ p) : roundTo p (m * 2 ^ k) = m * 2 ^ k := by
  have hnonneg : (0 : ℚ) ≤ m * 2 ^ k := mul_nonneg (Nat.cast_nonneg m) (zpow_pos two_pos k).le
  rcases hnonneg.eq_or_lt with h | hpos
  · rw [← h, roundTo_zero]
  · exact le_antisymm (roundTo_le hm hnonneg le_rfl) (le_roundTo hm hpos le_rfl)

theorem roundTo_pos {p : ℕ} {q : ℚ} (hp : p ≠ 0) (hq : 0 < q) : 0 < roundTo p q := by
  have hlog : ((1 : ℕ) : ℚ) * 2 ^ Int.log 2 q ≤ q := by
    rw [Nat.cast_one, one_mul]
    exact Int.zpow_log_le_self one_lt_two hq
  have hle := le_roundTo (Nat.one_lt_two_pow hp) hq hlog
  rw [Nat.cast_one, one_mul] at hle
  exact (zpow_pos two_pos _).trans_le hle

/-- Rounding at most doubles a number. -/
theorem roundTo_le_two_mul {p : ℕ} {q : ℚ} (hp : p ≠ 0) (hq : 0 ≤ q) :
    roundTo p q ≤ 2 * q := by
  rcases hq.eq_or_lt with rfl | hpos
  · simp
  have hlog : (2 : ℚ) ^ Int.log 2 q ≤ q := Int.zpow_log_le_self one_lt_two hpos
  have hlt : q < (2 : ℚ) ^ (Int.log 2 q + 1) := Int.lt_zpow_succ_log_self one_lt_two q
  have hle : roundTo p q ≤ (1 : ℕ) * 2 ^ (Int.log 2 q + 1) :=
    roundTo_le (Nat.one_lt_two_pow hp) hq (by simpa using hlt.le)
  calc roundTo p q ≤ 2 ^ (Int.log 2 q + 1) := by simpa using hle
    _ = 2 * 2 ^ Int.log 2 q := by rw [zpow_add_one₀ two_ne_zero, mul_comm]
    _ ≤ 2 * q := by linarith

theorem roundTo_mono {p : ℕ} {q r : ℚ} (hp : p ≠ 0) (hq : 0 ≤ q) (h : q ≤ r) :
    roundTo p q ≤ roundTo p r := by
  rcases hq.eq_or_lt with rfl | hq
  · rw [roundTo_zero]
    exact roundTo_nonneg p h
  rcases (Int.log_mono_right (b := 2) hq h).eq_or_lt with hlog | hlog
  · have hulp : ulp p r = ulp p q := by
      rw [ulp, ulp, hlog]
    have hdiv : q / ulp p q ≤ r / ulp p q := div_le_div_of_nonneg_right h (ulp_pos p q).le
    rw [roundTo, roundTo, hulp]
    exact mul_le_mul_of_nonneg_right (by exact_mod_cast roundEven_mono hdiv) (ulp_pos p q).le
  · -- the power of two between them has one digit
    have hone : 1 < 2 ^ p := Nat.one_lt_two_pow hp
    have hlt : q < (2 : ℚ) ^ (Int.log 2 q + 1) := Int.lt_zpow_succ_log_self one_lt_two q
    have hle : (2 : ℚ) ^ Int.log 2 r ≤ r := Int.zpow_log_le_self one_lt_two (hq.trans_le h)
    calc roundTo p q ≤ (1 : ℕ) * 2 ^ (Int.log 2 q + 1) :=
          roundTo_le hone hq.le (by simpa using hlt.le)
      _ ≤ (1 : ℕ) * 2 ^ Int.log 2 r :=
        mul_le_mul_of_nonneg_left (zpow_le_zpow_right₀ one_le_two hlog) (Nat.cast_nonneg 1)
      _ ≤ roundTo p r := le_roundTo hone (hq.trans_le h) (by simpa using hle)

/-! ### Expressions that grow -/

/-- An expression in a natural number that is never negative and never falls. -/
structure Grows (f : ℕ → ℚ) : Prop where
  mono : Monotone f
  nonneg : ∀ n, 0 ≤ f n

namespace Grows

variable {f g : ℕ → ℚ}

theorem natCast : Grows fun n => (n : ℚ) := ⟨Nat.mono_cast, Nat.cast_nonneg⟩

theorem const {c : ℚ} (hc : 0 ≤ c) : Grows fun _ => c := ⟨monotone_const, fun _ => hc⟩

theorem add (hf : Grows f) (hg : Grows g) : Grows fun n => f n + g n :=
  ⟨hf.mono.add hg.mono, fun n => add_nonneg (hf.nonneg n) (hg.nonneg n)⟩

theorem mul (hf : Grows f) (hg : Grows g) : Grows fun n => f n * g n :=
  ⟨fun _ n h => mul_le_mul (hf.mono h) (hg.mono h) (hg.nonneg _) (hf.nonneg n),
    fun n => mul_nonneg (hf.nonneg n) (hg.nonneg n)⟩

theorem round {p : ℕ} (hp : p ≠ 0) (hf : Grows f) : Grows fun n => roundTo p (f n) :=
  ⟨fun _ _ h => roundTo_mono hp (hf.nonneg _) (hf.mono h), fun n => roundTo_nonneg p (hf.nonneg n)⟩

end Grows

/-! ### Quotients -/

/-- Between a quotient and an integer there is room for a number of `p` digits. -/
theorem exists_digits {p a b : ℕ} (hb : 0 < b) (hp : 2 * (a + b) < 2 ^ p) :
    ∃ s : ℕ, b < 2 ^ s ∧ (a / b + 1) * 2 ^ s < 2 ^ p := by
  refine ⟨Nat.log 2 b + 1, Nat.lt_pow_succ_log_self one_lt_two b, ?_⟩
  have hpow : 2 ^ (Nat.log 2 b + 1) ≤ 2 * b := by
    rw [pow_succ, mul_comm]
    exact Nat.mul_le_mul_left 2 (Nat.pow_log_le_self 2 hb.ne')
  have hdiv := Nat.div_mul_le_self a b
  calc (a / b + 1) * 2 ^ (Nat.log 2 b + 1) ≤ (a / b + 1) * (2 * b) := Nat.mul_le_mul_left _ hpow
    _ = 2 * (a / b * b + b) := by ring
    _ < 2 ^ p := by omega

variable {p a b : ℕ}

theorem natCast_div_le (hb : 0 < b) : ((a / b : ℕ) : ℚ) ≤ a / b := by
  rw [le_div_iff₀ (by exact_mod_cast hb)]
  exact_mod_cast Nat.div_mul_le_self a b

/-- Scaled by more than the divisor, a quotient is a unit below the next integer. -/
theorem mul_le_next (hb : 0 < b) {s : ℕ} (hs : b < 2 ^ s) :
    a * 2 ^ s ≤ ((a / b + 1) * 2 ^ s - 1) * b := by
  have hmod : a + 1 ≤ (a / b + 1) * b := Nat.lt_mul_of_div_lt (Nat.lt_succ_self _) hb
  have hmul := Nat.mul_le_mul_right (2 ^ s) hmod
  rw [Nat.sub_mul, Nat.one_mul, Nat.mul_right_comm]
  rw [Nat.add_mul, Nat.one_mul] at hmul
  omega

/-- And one with a remainder a unit above the last. -/
theorem quotient_succ_mul_le {s : ℕ} (hs : b < 2 ^ s) (hmod : 0 < a % b) :
    (a / b * 2 ^ s + 1) * b ≤ a * 2 ^ s := by
  have hdecomp := Nat.div_add_mod' a b
  calc (a / b * 2 ^ s + 1) * b = a / b * b * 2 ^ s + b := by ring
    _ ≤ (a / b * b + 1) * 2 ^ s := by
      rw [Nat.add_mul, Nat.one_mul]
      omega
    _ ≤ a * 2 ^ s := Nat.mul_le_mul_right _ (by omega)

/-- A quotient of small numbers is not rounded up to the next integer. -/
theorem floor_roundTo_div (hb : 0 < b) (hp : 2 * (a + b) < 2 ^ p) :
    ⌊roundTo p (a / b)⌋₊ = a / b := by
  obtain ⟨s, hs, hdigits⟩ := exists_digits hb hp
  have hbq : (0 : ℚ) < b := by exact_mod_cast hb
  have hpow : (0 : ℚ) < 2 ^ s := pow_pos two_pos s
  have hone : a / b + 1 ≤ (a / b + 1) * 2 ^ s := Nat.le_mul_of_pos_right _ (Nat.two_pow_pos s)
  have hnonneg : (0 : ℚ) ≤ a / b := div_nonneg (Nat.cast_nonneg a) hbq.le
  rw [Nat.floor_eq_iff (roundTo_nonneg p hnonneg)]
  constructor
  · rcases hnonneg.eq_or_lt with hzero | hpos
    · have hle := natCast_div_le (a := a) hb
      rw [← hzero] at hle ⊢
      rwa [roundTo_zero]
    · exact natCast_le_roundTo (by omega) hpos (natCast_div_le hb)
  · have hm : (a / b + 1) * 2 ^ s - 1 < 2 ^ p := by omega
    have hcast : (((a / b + 1) * 2 ^ s - 1 : ℕ) : ℚ) = ((a / b : ℕ) + 1) * 2 ^ s - 1 := by
      rw [Nat.cast_sub (Nat.mul_pos (Nat.succ_pos _) (Nat.two_pow_pos s))]
      push_cast
      ring
    have hle : (a / b : ℚ) ≤ ((a / b + 1) * 2 ^ s - 1 : ℕ) * 2 ^ (-(s : ℤ)) := by
      rw [zpow_neg, zpow_natCast, ← div_eq_mul_inv, div_le_div_iff₀ hbq hpow]
      exact_mod_cast mul_le_next hb hs
    refine (roundTo_le hm hnonneg hle).trans_lt ?_
    rw [hcast, zpow_neg, zpow_natCast, ← div_eq_mul_inv, div_lt_iff₀ hpow]
    linarith

/-- Nor down to the integer below it. -/
theorem ceil_roundTo_div (hb : 0 < b) (hp : 2 * (a + b) < 2 ^ p) :
    ⌈roundTo p (a / b)⌉₊ = (a + b - 1) / b := by
  obtain ⟨s, hs, hdigits⟩ := exists_digits hb hp
  have hbq : (0 : ℚ) < b := by exact_mod_cast hb
  have hpow : (0 : ℚ) < 2 ^ s := pow_pos two_pos s
  have hone : a / b + 1 ≤ (a / b + 1) * 2 ^ s := Nat.le_mul_of_pos_right _ (Nat.two_pow_pos s)
  have hnonneg : (0 : ℚ) ≤ a / b := div_nonneg (Nat.cast_nonneg a) hbq.le
  have hdecomp := Nat.div_add_mod' a b
  have hlt := Nat.mod_lt a hb
  rcases Nat.eq_zero_or_pos (a % b) with hzero | hmod
  · have hdiv : (a + b - 1) / b = a / b := by
      rw [Nat.div_eq_iff hb]
      rw [hzero] at hdecomp
      omega
    have heq : (a / b : ℚ) = ((a / b : ℕ) : ℚ) * 2 ^ (0 : ℤ) := by
      rw [zpow_zero, mul_one, div_eq_iff hbq.ne']
      rw [hzero, Nat.add_zero] at hdecomp
      exact_mod_cast hdecomp.symm
    rw [hdiv, heq, roundTo_eq (by omega), zpow_zero, mul_one, Nat.ceil_natCast]
  · have hdiv : (a + b - 1) / b = a / b + 1 := by
      rw [Nat.div_eq_iff hb, Nat.add_mul, Nat.one_mul]
      omega
    have hpos : (0 : ℚ) < a / b := by
      have ha : 0 < a := by
        rcases Nat.eq_zero_or_pos a with rfl | ha
        · simp at hmod
        · exact ha
      exact div_pos (by exact_mod_cast ha) hbq
    rw [hdiv, Nat.ceil_eq_iff (Nat.succ_ne_zero _), Nat.succ_sub_one]
    constructor
    · have hle : (((a / b * 2 ^ s + 1 : ℕ) : ℚ)) * 2 ^ (-(s : ℤ)) ≤ a / b := by
        rw [zpow_neg, zpow_natCast, ← div_eq_mul_inv, div_le_div_iff₀ hpow hbq]
        exact_mod_cast quotient_succ_mul_le hs hmod
      have hm : a / b * 2 ^ s + 1 < 2 ^ p := by
        have := Nat.two_pow_pos s
        rw [Nat.add_mul, Nat.one_mul] at hdigits
        omega
      refine lt_of_lt_of_le ?_ (le_roundTo hm hpos hle)
      rw [zpow_neg, zpow_natCast, ← div_eq_mul_inv, lt_div_iff₀ hpow]
      push_cast
      linarith
    · refine roundTo_le_natCast (by omega) hnonneg ?_
      rw [div_le_iff₀ hbq]
      have hle : a ≤ (a / b + 1) * b := by
        rw [Nat.add_mul, Nat.one_mul]
        omega
      exact_mod_cast hle

end HiDANN.Rounding
