import Mathlib.Order.Bounds.Defs
import Mathlib.Order.Lattice
import Mathlib.Tactic.Common

/-! Searching for the least number that passes a test, when every number above a passing
one passes too. A guess is doubled up to a limit until it passes; then the range below it
is halved, and the last number that passed is kept. -/

namespace HiDANN.LeastSearch

variable (fits : ℕ → Prop) [DecidablePred fits]

/-- Double a guess until it passes or the limit is reached. -/
def double (limit : ℕ) : ℕ → ℕ → ℕ
  | 0, hi => hi
  | fuel + 1, hi => if ¬ fits hi ∧ hi < limit then double limit fuel (min limit (hi * 2)) else hi

/-- Halve the range, keeping the last number that passed. -/
def halve : ℕ → ℕ → ℕ → ℕ → ℕ
  | 0, _, _, best => best
  | fuel + 1, lo, hi, best =>
    if lo ≤ hi then
      let mid := (lo + hi) / 2
      if fits mid then halve fuel lo (mid - 1) mid else halve fuel (mid + 1) hi best
    else best

variable {fits}

variable (fits) in
/-- The doubling ends with a number that passes, or at the limit. -/
theorem double_spec (limit fuel hi : ℕ) (hpos : 0 < hi) (hfuel : limit ≤ hi + fuel) :
    hi ≤ double fits limit fuel hi ∧ double fits limit fuel hi ≤ max limit hi ∧
      (fits (double fits limit fuel hi) ∨ limit ≤ double fits limit fuel hi) := by
  induction fuel generalizing hi with
  | zero => exact ⟨le_rfl, le_max_right _ _, .inr hfuel⟩
  | succ fuel ih =>
    rw [double]
    by_cases hgo : ¬ fits hi ∧ hi < limit
    · rw [if_pos hgo]
      have hlt : hi < limit := hgo.2
      obtain ⟨h1, h2, h3⟩ := ih (min limit (hi * 2)) (by omega) (by omega)
      exact ⟨by omega, by omega, h3⟩
    · rw [if_neg hgo]
      refine ⟨le_rfl, le_max_right _ _, ?_⟩
      by_cases hfits : fits hi
      · exact .inl hfits
      · exact .inr (not_lt.mp fun hlt => hgo ⟨hfits, hlt⟩)

omit [DecidablePred fits] in
theorem isLeast_of_below {lo best : ℕ} (hone : 1 ≤ best) (hfits : fits best) (hle : best ≤ lo)
    (hbelow : ∀ n, 1 ≤ n → n < lo → ¬ fits n) : IsLeast {n | 1 ≤ n ∧ fits n} best := by
  refine ⟨⟨hone, hfits⟩, fun n hn => not_lt.mp fun hlt => ?_⟩
  exact hbelow n hn.1 (hlt.trans_le hle) hn.2

/-- The halving ends with the least number that passes. -/
theorem halve_isLeast (hmono : ∀ m n, 1 ≤ m → m ≤ n → fits m → fits n) {fuel lo hi best : ℕ}
    (hlo : 1 ≤ lo) (hfuel : hi + 1 ≤ lo + fuel) (hbest : best ≤ hi + 1) (hone : 1 ≤ best)
    (hfits : fits best) (hbelow : ∀ n, 1 ≤ n → n < lo → ¬ fits n) :
    IsLeast {n | 1 ≤ n ∧ fits n} (halve fits fuel lo hi best) := by
  induction fuel generalizing lo hi best with
  | zero =>
    rw [halve]
    exact isLeast_of_below hone hfits (by omega) hbelow
  | succ fuel ih =>
    rw [halve]
    by_cases hle : lo ≤ hi
    · rw [if_pos hle]
      dsimp only
      by_cases hmid : fits ((lo + hi) / 2)
      · rw [if_pos hmid]
        exact ih hlo (by omega) (by omega) (by omega) hmid hbelow
      · rw [if_neg hmid]
        apply ih (by omega) (by omega) hbest hone hfits
        intro n hn hlt hfn
        exact hmid (hmono n _ hn (by omega) hfn)
    · rw [if_neg hle]
      exact isLeast_of_below hone hfits (by omega) hbelow

end HiDANN.LeastSearch
