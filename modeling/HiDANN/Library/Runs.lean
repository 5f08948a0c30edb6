import Mathlib.Order.Nat
import Mathlib.Logic.Relation

/-! Runs of a system of steps. An invariant that every step keeps holds along a run. When every
step lowers what remains, no run has more steps than remain at its start, and a system that is
not stuck before it is done gets done from any state that a run has reached. When each step of a
labelled run does to an abstraction what its label says, so does the run. -/

namespace HiDANN.Runs

open Relation

variable {σ : Type*} {Step : σ → σ → Prop} {Inv Done : σ → Prop} {remaining : σ → ℕ} {s s' : σ}

theorem inv_run (hstep : ∀ s s', Inv s → Step s s' → Inv s') (h : Inv s)
    (hrun : ReflTransGen Step s s') : Inv s' := by
  induction hrun with
  | refl => exact h
  | tail _ hlast ih => exact hstep _ _ ih hlast

/-- Every run can be brought to its end. -/
theorem exists_done (hstep : ∀ s s', Inv s → Step s s' → Inv s' ∧ remaining s' < remaining s)
    (hprogress : ∀ s, Inv s → ¬ Done s → ∃ s', Step s s') (h : Inv s) :
    ∃ s', ReflTransGen Step s s' ∧ Inv s' ∧ Done s' := by
  -- induction on the steps that are left
  generalize hn : remaining s = n
  induction n using Nat.strongRecOn generalizing s with
  | _ n ih =>
    by_cases hdone : Done s
    · exact ⟨s, .refl, h, hdone⟩
    · obtain ⟨t, ht⟩ := hprogress s h hdone
      obtain ⟨hinv, hlt⟩ := hstep s t h ht
      obtain ⟨s', hrun, hs'⟩ := ih (remaining t) (hn ▸ hlt) hinv rfl
      exact ⟨s', .head ht hrun, hs'⟩

theorem length_le (hstep : ∀ s s', Inv s → Step s s' → Inv s' ∧ remaining s' < remaining s)
    (run : ℕ → σ) (k : ℕ) (h : Inv (run 0)) (hrun : ∀ i < k, Step (run i) (run (i + 1))) :
    k ≤ remaining (run 0) := by
  have hmeasure : Inv (run k) ∧ remaining (run k) + k ≤ remaining (run 0) := by
    induction k with
    | zero => exact ⟨h, le_rfl⟩
    | succ k ih =>
      obtain ⟨hinv, hle⟩ := ih fun i hi => hrun i (hi.trans (Nat.lt_succ_self k))
      obtain ⟨hinv', hlt⟩ := hstep _ _ hinv (hrun k (Nat.lt_succ_self k))
      exact ⟨hinv', by omega⟩
  omega

/-! ### Runs with labels -/

variable {α β : Type*}

inductive Trace (Step : α → σ → σ → Prop) : List α → σ → σ → Prop where
  | nil (s : σ) : Trace Step [] s s
  | concat {as : List α} {a : α} {s t u : σ} : Trace Step as s t → Step a t u →
    Trace Step (as ++ [a]) s u

theorem Trace.follows {Step : α → σ → σ → Prop} {abs : σ → β} {apply : β → α → β}
    (hstep : ∀ a s s', Inv s → Step a s s' → Inv s' ∧ abs s' = apply (abs s) a) {as : List α}
    (h : Inv s) (hrun : Trace Step as s s') : Inv s' ∧ abs s' = as.foldl apply (abs s) := by
  induction hrun with
  | nil s => exact ⟨h, rfl⟩
  | concat _ hlast ih =>
    obtain ⟨hinv, habs⟩ := ih h
    obtain ⟨hinv', habs'⟩ := hstep _ _ _ hinv hlast
    refine ⟨hinv', ?_⟩
    rw [habs', habs, List.foldl_append]
    rfl

end HiDANN.Runs
