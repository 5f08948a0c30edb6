import Mathlib.Data.List.Infix

/-! Loops over a list that may fail. A loop over two lists in a row is the loop over the
second from where the first has ended, and an invariant that speaks of the elements done
so far, kept by a step that does not fail, holds when the loop has ended. A step that fails
may stand for a jump out of the loop; its error is then what the loop is left with. -/

namespace HiDANN.FallibleFold

variable {α σ ε : Type*} {f : σ → α → Except ε σ} {s : σ}

theorem foldlM_append (xs ys : List α) : (xs ++ ys).foldlM f s = match xs.foldlM f s with
    | .error e => .error e
    | .ok s => ys.foldlM f s := by
  rw [List.foldlM_append]
  cases xs.foldlM f s with
  | error e => rfl
  | ok s => rfl

theorem foldlM_concat (xs : List α) (x : α) : (xs ++ [x]).foldlM f s = match xs.foldlM f s with
    | .error e => .error e
    | .ok s => f s x := by
  rw [foldlM_append]
  cases xs.foldlM f s with
  | error e => rfl
  | ok s =>
    dsimp only
    rw [List.foldlM_cons]
    cases f s x with
    | error e => rfl
    | ok s => rfl

/-- The rule of a loop that does not fail. -/
theorem foldlM_ok (P : List α → σ → Prop) (xs : List α) (hstart : P [] s)
    (hstep : ∀ done x s, done ++ [x] <+: xs → P done s → ∃ s', f s x = .ok s' ∧ P (done ++ [x]) s') :
    ∃ s', xs.foldlM f s = .ok s' ∧ P xs s' := by
  induction xs using List.reverseRecOn with
  | nil => exact ⟨s, rfl, hstart⟩
  | append_singleton xs x ih =>
    obtain ⟨t, ht, hP⟩ := ih fun done y s hpre =>
      hstep done y s (hpre.trans (List.prefix_append _ _))
    rw [foldlM_concat, ht]
    exact hstep xs x t List.prefix_rfl hP

/-- What holds of the outcome: `P` where the loop went on, `Q` where it was left. -/
def Post (P : σ → Prop) (Q : ε → Prop) : Except ε σ → Prop
  | .ok s => P s
  | .error e => Q e

/-- The rule of a loop that may be left, with an invariant of the state. -/
theorem foldlM_post {P : σ → Prop} {Q : ε → Prop} {xs : List α}
    (hstep : ∀ x ∈ xs, ∀ s, P s → Post P Q (f s x)) (hstart : P s) : Post P Q (xs.foldlM f s) := by
  induction xs generalizing s with
  | nil => exact hstart
  | cons x xs ih =>
    have hx := hstep x List.mem_cons_self s hstart
    rw [List.foldlM_cons]
    cases hfx : f s x with
    | error e =>
      rw [hfx] at hx
      exact hx
    | ok t =>
      rw [hfx] at hx
      exact ih (fun y hy => hstep y (List.mem_cons_of_mem _ hy)) hx

/-- When a step fails or not by a part `g` of the state that every step determines, a
loop ends exactly when no step fails at the part its prefix leads to. -/
theorem foldlM_ok_iff {κ : Type*} {g : σ → κ} {next : κ → α → κ} {ok : κ → α → Prop}
    (hok : ∀ s x, ok (g s) x → ∃ s', f s x = .ok s' ∧ g s' = next (g s) x)
    (hfail : ∀ s x, ¬ ok (g s) x → ∃ e, f s x = .error e) (xs : List α) (s : σ) :
    (∃ s', xs.foldlM f s = .ok s') ↔
      ∀ pre x post, xs = pre ++ x :: post → ok (pre.foldl next (g s)) x := by
  induction xs generalizing s with
  | nil => exact iff_of_true ⟨s, rfl⟩ fun pre x post h => by simp at h
  | cons x xs ih =>
    rw [List.foldlM_cons]
    by_cases hx : ok (g s) x
    · obtain ⟨t, ht, hg⟩ := hok s x hx
      rw [ht]
      refine (ih t).trans ⟨fun h pre y post he => ?_, fun h pre y post he => ?_⟩
      · cases pre with
        | nil =>
          obtain ⟨rfl, -⟩ := List.cons.inj he
          exact hx
        | cons z pre =>
          obtain ⟨rfl, hrest⟩ := List.cons.inj he
          rw [List.foldl_cons, ← hg]
          exact h pre y post hrest
      · rw [hg]
        exact h (x :: pre) y post (by rw [he, List.cons_append])
    · obtain ⟨e, he⟩ := hfail s x hx
      rw [he]
      refine iff_of_false ?_ fun h => hx (h [] x xs rfl)
      rintro ⟨s', hs'⟩
      cases hs'

end HiDANN.FallibleFold
