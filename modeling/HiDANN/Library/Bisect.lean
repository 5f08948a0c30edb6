import Mathlib.Data.Nat.Basic
import Mathlib.Order.Bounds.Basic
import Mathlib.Tactic.Common

/-! A binary search for a large number that passes a test. Whatever the test, the
result is the initial guess or lies in the range searched. A test that only errs by
passing too much does no harm where the search does not try such a number. The search on
words of a bounded range is the same while twice the end of the range fits. -/

namespace HiDANN.Bisect

def bisect (ok : ℕ → Bool) (lo hi best : ℕ) (hlo : 0 < lo) : ℕ :=
  if lo ≤ hi then
    let k := (lo + hi) / 2
    if ok k then bisect ok (k + 1) hi k (Nat.succ_pos k) else bisect ok lo (k - 1) best hlo
  else best
termination_by hi + 1 - lo

theorem bisect_mem (ok : ℕ → Bool) {lo hi : ℕ} (best : ℕ) (hlo : 0 < lo) :
    bisect ok lo hi best hlo = best ∨
      lo ≤ bisect ok lo hi best hlo ∧ bisect ok lo hi best hlo ≤ hi := by
  fun_induction bisect ok lo hi best hlo with
  | case1 lo hi best hlo h k hk ih =>
    rcases ih with he | ⟨h1, h2⟩
    · rw [he]
      exact .inr (by omega)
    · exact .inr ⟨by omega, h2⟩
  | case2 lo hi best hlo h k hk ih =>
    rcases ih with he | ⟨h1, h2⟩
    · exact .inl he
    · exact .inr ⟨h1, by omega⟩
  | case3 lo hi best hlo h => exact .inl rfl

/-- A result other than the guess has passed the test. -/
theorem bisect_ok (ok : ℕ → Bool) {lo hi : ℕ} (best : ℕ) (hlo : 0 < lo) :
    bisect ok lo hi best hlo = best ∨ ok (bisect ok lo hi best hlo) := by
  fun_induction bisect ok lo hi best hlo with
  | case1 lo hi best hlo h k hk ih =>
    rcases ih with he | hok
    · rw [he]
      exact .inr hk
    · exact .inr hok
  | case2 lo hi best hlo h k hk ih => exact ih
  | case3 lo hi best hlo h => exact .inl rfl

/-- When the numbers that pass come first, the result is the last of them, if the
guess is the number below the range. -/
theorem bisect_greatest {ok : ℕ → Bool} (hok : ∀ j k, j ≤ k → ok k → ok j) {lo best : ℕ} (hi : ℕ)
    (hlo : 0 < lo) (hbest : best + 1 = lo) :
    best ≤ bisect ok lo hi best hlo ∧
      (best < bisect ok lo hi best hlo → ok (bisect ok lo hi best hlo)) ∧
      ∀ k, bisect ok lo hi best hlo < k → k ≤ hi → ¬ ok k := by
  fun_induction bisect ok lo hi best hlo with
  | case1 lo hi best hlo h k hk ih =>
    obtain ⟨h1, h2, h3⟩ := ih rfl
    refine ⟨by omega, fun _ => ?_, h3⟩
    rcases Nat.eq_or_lt_of_le h1 with he | hlt
    · rwa [← he]
    · exact h2 hlt
  | case2 lo hi best hlo h k hk ih =>
    obtain ⟨h1, h2, h3⟩ := ih hbest
    refine ⟨h1, h2, fun j hj hhi hokj => ?_⟩
    rcases Nat.lt_or_ge j k with hlt | hge
    · exact h3 j hj (by omega) hokj
    · exact hk (hok k j hge hokj)
  | case3 lo hi best hlo h =>
    exact ⟨le_rfl, fun hlt => absurd hlt (lt_irrefl _), fun k hk hhi => by omega⟩

/-- The search only sees the test on its range. -/
theorem bisect_congr {ok ok' : ℕ → Bool} {lo hi : ℕ} (best : ℕ) (hlo : 0 < lo)
    (h : ∀ k, lo ≤ k → k ≤ hi → ok k = ok' k) :
    bisect ok lo hi best hlo = bisect ok' lo hi best hlo := by
  fun_induction bisect ok lo hi best hlo with
  | case1 lo hi best hlo hle k hk ih =>
    rw [ih fun j hj hhi => h j (by omega) hhi]
    conv_rhs => rw [bisect, if_pos hle, if_pos ((h k (by omega) (by omega)).symm.trans hk)]
  | case2 lo hi best hlo hle k hk ih =>
    rw [ih fun j hj hhi => h j hj (by omega)]
    conv_rhs => rw [bisect, if_pos hle, if_neg (by rwa [← h _ (by omega) (by omega)])]
  | case3 lo hi best hlo hle => rw [bisect, if_neg hle]

/-! ### The numbers tried -/

/-- The numbers the search tests, in order. -/
def tried (ok : ℕ → Bool) (lo hi : ℕ) (hlo : 0 < lo) : List ℕ :=
  if lo ≤ hi then
    let k := (lo + hi) / 2
    if ok k then k :: tried ok (k + 1) hi (Nat.succ_pos k) else k :: tried ok lo (k - 1) hlo
  else []
termination_by hi + 1 - lo

theorem mem_tried {ok : ℕ → Bool} {lo hi : ℕ} {hlo : 0 < lo} {k : ℕ}
    (h : k ∈ tried ok lo hi hlo) : lo ≤ k ∧ k ≤ hi := by
  fun_induction tried ok lo hi hlo with
  | case1 lo hi hlo hle mid hmid ih =>
    rcases List.mem_cons.mp h with rfl | h
    · omega
    · have := ih h
      omega
  | case2 lo hi hlo hle mid hmid ih =>
    rcases List.mem_cons.mp h with rfl | h
    · omega
    · have := ih h
      omega
  | case3 lo hi hlo hle => cases h

theorem bisect_tried (ok : ℕ → Bool) {lo hi : ℕ} (best : ℕ) (hlo : 0 < lo) :
    bisect ok lo hi best hlo = best ∨
      bisect ok lo hi best hlo ∈ tried ok lo hi hlo ∧ ok (bisect ok lo hi best hlo) := by
  fun_induction bisect ok lo hi best hlo with
  | case1 lo hi best hlo h k hk ih =>
    rw [tried, if_pos h, if_pos hk]
    rcases ih with he | ⟨hmem, hok⟩
    · rw [he]
      exact .inr ⟨List.mem_cons_self, hk⟩
    · exact .inr ⟨List.mem_cons_of_mem k hmem, hok⟩
  | case2 lo hi best hlo h k hk ih =>
    rw [tried, if_pos h, if_neg hk]
    rcases ih with he | ⟨hmem, hok⟩
    · exact .inl he
    · exact .inr ⟨List.mem_cons_of_mem k hmem, hok⟩
  | case3 lo hi best hlo h => exact .inl rfl

theorem le_bisect (ok : ℕ → Bool) {lo best : ℕ} (hi : ℕ) (hlo : 0 < lo) (hbest : best ≤ lo) :
    best ≤ bisect ok lo hi best hlo := by
  rcases bisect_mem ok best hlo with h | h
  · exact h.ge
  · exact hbest.trans h.1

/-- Nothing that was tried and has passed is above the result. -/
theorem le_bisect_of_tried {ok : ℕ → Bool} {lo hi best k : ℕ} {hlo : 0 < lo}
    (hk : k ∈ tried ok lo hi hlo) (hok : ok k) : k ≤ bisect ok lo hi best hlo := by
  fun_induction bisect ok lo hi best hlo with
  | case1 lo hi best hlo h mid hmid ih =>
    rw [tried, if_pos h, if_pos hmid] at hk
    rcases List.mem_cons.mp hk with rfl | hk
    · exact le_bisect ok hi _ (Nat.le_succ _)
    · exact ih hk
  | case2 lo hi best hlo h mid hmid ih =>
    rw [tried, if_pos h, if_neg hmid] at hk
    rcases List.mem_cons.mp hk with rfl | hk
    · exact absurd hok hmid
    · exact ih hk
  | case3 lo hi best hlo h =>
    rw [tried, if_neg h] at hk
    cases hk

theorem le_bisect_of_ok {ok : ℕ → Bool} {lo hi best e : ℕ} {hlo : 0 < lo}
    (hok : ∀ j, lo ≤ j → j ≤ e → ok j) (hbest : best ≤ lo) (he : e ≤ best ∨ lo ≤ e) (hhi : e ≤ hi) :
    e ≤ bisect ok lo hi best hlo := by
  fun_induction bisect ok lo hi best hlo with
  | case1 lo hi best hlo h mid hmid ih =>
    exact ih (fun j hj => hok j (by omega)) (Nat.le_succ mid) (by omega) hhi
  | case2 lo hi best hlo h mid hmid ih =>
    have hlt : e < mid := by
      by_contra hle
      exact hmid (hok mid (by omega) (Nat.le_of_not_lt hle))
    exact ih hok hbest he (by omega)
  | case3 lo hi best hlo h => omega

/-- The largest element of a set, or a number of its own for none. -/
def LargestOr (S : Set ℕ) (least r : ℕ) : Prop := IsGreatest S r ∨ S = ∅ ∧ r = least

/-- For a test that passes a first part of the numbers, a search by a weaker test finds the
last of that part exactly when it tries no number beyond the first that only the weaker test
passes. -/
theorem largestOr_bisect_iff {ok weak : ℕ → Bool} {lo : ℕ}
    (hok : ∀ j k, lo ≤ j → j ≤ k → ok k → ok j) (hweak : ∀ k, lo ≤ k → ok k → weak k) (hi : ℕ)
    (hlo : 0 < lo) :
    LargestOr {k | lo ≤ k ∧ k ≤ hi ∧ ok k} lo (bisect weak lo hi lo hlo) ↔
      ∀ k ∈ tried weak lo hi hlo, lo < k → weak k → ok k := by
  have hupper : ∀ e, lo ≤ e → e ≤ hi → ok e → e ≤ bisect weak lo hi lo hlo := fun e hle hhi he =>
    le_bisect_of_ok (fun j hj hje => hweak j hj (hok j e hj hje he)) le_rfl (.inr hle) hhi
  constructor
  · intro h k hk hlt hpass
    have hle : k ≤ bisect weak lo hi lo hlo := le_bisect_of_tried hk hpass
    rcases h with hmax | ⟨-, hleast⟩
    · exact hok k _ hlt.le hle hmax.1.2.2
    · omega
  · intro h
    have hres : bisect weak lo hi lo hlo = lo ∨ lo < bisect weak lo hi lo hlo ∧
        bisect weak lo hi lo hlo ≤ hi ∧ ok (bisect weak lo hi lo hlo) := by
      rcases bisect_tried weak lo hlo with he | ⟨hmem, hpass⟩
      · exact .inl he
      · have hin := mem_tried hmem
        rcases Nat.eq_or_lt_of_le hin.1 with he | hlt
        · exact .inl he.symm
        · exact .inr ⟨hlt, hin.2, h _ hmem hlt hpass⟩
    by_cases hex : ∃ e, lo ≤ e ∧ e ≤ hi ∧ ok e
    · obtain ⟨e, hle, hhi, he⟩ := hex
      refine .inl ⟨?_, fun e' he' => hupper e' he'.1 he'.2.1 he'.2.2⟩
      rcases hres with hone | ⟨hlt, hin, hpass⟩
      · have := hupper e hle hhi he
        obtain rfl : e = lo := by omega
        rw [hone]
        exact ⟨le_rfl, hhi, he⟩
      · exact ⟨hlt.le, hin, hpass⟩
    · refine .inr ⟨?_, ?_⟩
      · rw [Set.eq_empty_iff_forall_notMem]
        exact fun e he => hex ⟨e, he⟩
      · rcases hres with hone | ⟨hlt, hin, hpass⟩
        · exact hone
        · exact absurd ⟨_, hlt.le, hin, hpass⟩ hex

/-! ### Words -/

/-- The search with its bounds and their sum taken modulo `M`; none when the turns run out. -/
def bisectMod (M : ℕ) (ok : ℕ → Bool) : ℕ → ℕ → ℕ → ℕ → Option ℕ
  | 0, _, _, _ => none
  | turns + 1, lo, hi, best =>
    if lo ≤ hi then
      let k := (lo + hi) % M / 2
      if ok k then bisectMod M ok turns ((k + 1) % M) hi k
      else bisectMod M ok turns lo ((k + (M - 1)) % M) best
    else some best

/-- No bound leaves the words, and the search ends. -/
theorem bisectMod_eq {M : ℕ} (ok : ℕ → Bool) {turns lo hi : ℕ} (best : ℕ) (hlo : 0 < lo)
    (hhi : 2 * hi < M) (hturns : hi + 1 - lo < turns) :
    bisectMod M ok turns lo hi best = some (bisect ok lo hi best hlo) := by
  induction turns generalizing lo hi best with
  | zero => omega
  | succ turns ih =>
    rw [bisectMod, bisect]
    split_ifs with hle
    · have hsum : (lo + hi) % M = lo + hi := Nat.mod_eq_of_lt (by omega)
      have hnext : ((lo + hi) / 2 + 1) % M = (lo + hi) / 2 + 1 := Nat.mod_eq_of_lt (by omega)
      have hprev : ((lo + hi) / 2 + (M - 1)) % M = (lo + hi) / 2 - 1 := by
        rw [show (lo + hi) / 2 + (M - 1) = (lo + hi) / 2 - 1 + M by omega, Nat.add_mod_right]
        exact Nat.mod_eq_of_lt (by omega)
      dsimp only
      rw [hsum, hnext, hprev]
      split_ifs
      · exact ih _ (Nat.succ_pos _) hhi (by omega)
      · exact ih _ hlo (by omega) (by omega)
    · rfl

end HiDANN.Bisect
