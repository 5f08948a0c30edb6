import Mathlib.Algebra.BigOperators.Group.Finset.Basic
import Mathlib.Algebra.Order.Group.Multiset
import Mathlib.Data.Fintype.Basic
import Mathlib.Algebra.BigOperators.Fin

/-! A partitioned append-only log fed through per-writer buffers. Every record
has a bucket; a writer first keeps its records in its own buffer and a flush
moves the whole buffer to the logs. Whatever the order of the events, a bucket's
log together with the records still buffered for it holds exactly the records
written to the bucket, each as often as it was written. -/

namespace HiDANN.StagedLog

variable {τ β ρ : Type*}

/-- Records buffered by each writer, and the logs of the buckets. -/
structure State (τ β ρ : Type*) where
  pending : τ → List ρ
  log : β → List ρ

/-- A writer puts a record into its buffer, or empties its buffer. -/
inductive Event (τ ρ : Type*)
  | put (t : τ) (r : ρ)
  | flush (t : τ)

def State.drained (s : State τ β ρ) : Prop := ∀ t, s.pending t = []

def written : List (Event τ ρ) → List ρ
  | [] => []
  | .put _ r :: es => r :: written es
  | .flush _ :: es => written es

@[simp] theorem written_append (xs ys : List (Event τ ρ)) :
    written (xs ++ ys) = written xs ++ written ys := by
  induction xs with
  | nil => rfl
  | cons e xs ih => cases e <;> simp [written, ih]

section Run

variable [DecidableEq τ] [DecidableEq β] (bucket : ρ → β)

def State.step (s : State τ β ρ) : Event τ ρ → State τ β ρ
  | .put t r => { s with pending := Function.update s.pending t (s.pending t ++ [r]) }
  | .flush t =>
    { pending := Function.update s.pending t []
      log := fun b => s.log b ++ (s.pending t).filter fun r => bucket r = b }

def State.run (s : State τ β ρ) (es : List (Event τ ρ)) : State τ β ρ :=
  es.foldl (State.step bucket) s

@[simp] theorem State.run_nil (s : State τ β ρ) : s.run bucket [] = s := rfl

@[simp] theorem State.run_cons (s : State τ β ρ) (e : Event τ ρ) (es : List (Event τ ρ)) :
    s.run bucket (e :: es) = (s.step bucket e).run bucket es := rfl

theorem State.run_append (s : State τ β ρ) (xs ys : List (Event τ ρ)) :
    s.run bucket (xs ++ ys) = (s.run bucket xs).run bucket ys := List.foldl_append

/-- Replacing one writer's buffer exchanges that buffer's part of the total. -/
theorem sum_update [Fintype τ] {σ M : Type*} [AddCommMonoid M] (f : τ → σ) (g : σ → M) (t : τ)
    (x : σ) : g (f t) + ∑ u, g (Function.update f t x u) = g x + ∑ u, g (f u) := by
  have h : ∀ u ∈ Finset.univ.erase t, g (Function.update f t x u) = g (f u) := by
    intro u hu
    rw [Function.update_of_ne (Finset.ne_of_mem_erase hu)]
  rw [← Finset.add_sum_erase _ (fun u => g (Function.update f t x u)) (Finset.mem_univ t),
    ← Finset.add_sum_erase _ (fun u => g (f u)) (Finset.mem_univ t), Finset.sum_congr rfl h,
    Function.update_self, add_left_comm]

variable [Fintype τ]

/-- What a bucket has received: its log and the records buffered for it. -/
def State.total (s : State τ β ρ) (b : β) : Multiset ρ :=
  (s.log b : Multiset ρ) + ∑ t, (((s.pending t).filter fun r => bucket r = b : List ρ) : Multiset ρ)

theorem State.total_step (s : State τ β ρ) (e : Event τ ρ) (b : β) :
    (s.step bucket e).total bucket b =
      s.total bucket b + (((written [e]).filter fun r => bucket r = b : List ρ) : Multiset ρ) := by
  cases e with
  | put t r =>
    have h := sum_update s.pending
      (fun l : List ρ => (((l.filter fun r => bucket r = b : List ρ)) : Multiset ρ)) t
      (s.pending t ++ [r])
    simp only [List.filter_append, ← Multiset.coe_add, add_assoc, add_right_inj] at h
    simp only [State.total, State.step, written]
    rw [h, add_assoc, add_comm (∑ t, _)]
  | flush t =>
    have h := sum_update s.pending
      (fun l : List ρ => (((l.filter fun r => bucket r = b : List ρ)) : Multiset ρ)) t []
    simp only [List.filter_nil, Multiset.coe_nil, zero_add] at h
    simp only [State.total, State.step, written, List.filter_nil, Multiset.coe_nil, add_zero]
    rw [← Multiset.coe_add, add_assoc, h]

/-- No event loses, duplicates or moves a record. -/
theorem State.total_run (s : State τ β ρ) (es : List (Event τ ρ)) (b : β) :
    (s.run bucket es).total bucket b =
      s.total bucket b + (((written es).filter fun r => bucket r = b : List ρ) : Multiset ρ) := by
  induction es generalizing s with
  | nil => simp [written]
  | cons e es ih =>
    rw [State.run_cons, ih, State.total_step, show e :: es = [e] ++ es from rfl, written_append,
      List.filter_append, ← Multiset.coe_add, add_assoc]

omit [DecidableEq τ] in
theorem State.total_of_drained {s : State τ β ρ} (h : s.drained) (b : β) :
    s.total bucket b = (s.log b : Multiset ρ) := by
  have : ∀ t, s.pending t = [] := h
  simp [State.total, this]

/-- Between two moments with empty buffers a bucket's log grows by the records
written to it, in some order. -/
theorem State.run_drained {s : State τ β ρ} (hs : s.drained) (es : List (Event τ ρ))
    (he : (s.run bucket es).drained) (b : β) :
    ((s.run bucket es).log b).Perm (s.log b ++ (written es).filter fun r => bucket r = b) := by
  have h := State.total_run bucket s es b
  rw [State.total_of_drained bucket hs, State.total_of_drained bucket he, Multiset.coe_add] at h
  exact Multiset.coe_eq_coe.mp h

end Run

end HiDANN.StagedLog
