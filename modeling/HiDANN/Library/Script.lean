import Mathlib.Data.List.Basic

/-! Programs over a store that issue one operation at a time and may die. A
program keeps the list of the operations it has issued, so the stores it passes
through on the way, and may be stopped in, are those after a prefix of the list.
`Ends` and `Dies` describe complete runs; they follow the program text. -/

namespace HiDANN.Script

/-- What an operation does to the store. -/
class Effect (σ : Type*) (ω : outParam (Type*)) where
  apply : σ → ω → σ

universe u

variable {σ ω ε : Type*} {α β : Type u}

def exec [Effect σ ω] (s : σ) (ops : List ω) : σ := ops.foldl Effect.apply s

@[simp] theorem exec_nil [Effect σ ω] (s : σ) : exec s ([] : List ω) = s := rfl

@[simp] theorem exec_cons [Effect σ ω] (s : σ) (op : ω) (ops : List ω) :
    exec s (op :: ops) = exec (Effect.apply s op) ops := rfl

theorem exec_append [Effect σ ω] (s : σ) (ops ops' : List ω) :
    exec s (ops ++ ops') = exec (exec s ops) ops' := by
  simp [exec]

/-- The operations of a run and its end. -/
structure Outcome (ω ε α : Type*) where
  ops : List ω
  res : Except ε α

/-- A program: from the store it starts in to its run. -/
def Prog (σ ω ε α : Type*) := σ → Outcome ω ε α

namespace Prog

instance [Effect σ ω] : Monad (Prog σ ω ε) where
  pure a := fun _ => ⟨[], .ok a⟩
  bind m f := fun s =>
    match (m s).res with
    | .error e => ⟨(m s).ops, .error e⟩
    | .ok a => ⟨(m s).ops ++ (f a (exec s (m s).ops)).ops, (f a (exec s (m s).ops)).res⟩

def issue (op : ω) : Prog σ ω ε PUnit := fun _ => ⟨[op], .ok ⟨⟩⟩

def die (e : ε) : Prog σ ω ε α := fun _ => ⟨[], .error e⟩

def look (f : σ → α) : Prog σ ω ε α := fun s => ⟨[], .ok (f s)⟩

variable [Effect σ ω]

/-- The program runs to its end, with a value and a store. -/
structure Ends (m : Prog σ ω ε α) (s : σ) (a : α) (s' : σ) : Prop where
  res : (m s).res = .ok a
  store : exec s (m s).ops = s'

def Dies (m : Prog σ ω ε α) (s : σ) : Prop := ∃ e, (m s).res = .error e

variable {m : Prog σ ω ε α} {f : α → Prog σ ω ε β} {s s' s'' : σ} {a : α} {b : β}

theorem Ends.cast (h : Ends m s a s') (he : s' = s'') : Ends m s a s'' := he ▸ h

theorem Ends.not_dies (h : Ends m s a s') : ¬ m.Dies s := by
  rintro ⟨e, he⟩
  rw [h.res] at he
  cases he

theorem ends_pure (a : α) (s : σ) : Ends (pure a : Prog σ ω ε α) s a s := ⟨rfl, rfl⟩

theorem ends_issue (op : ω) (s : σ) : Ends (issue op : Prog σ ω ε PUnit) s ⟨⟩ (Effect.apply s op) :=
  ⟨rfl, rfl⟩

theorem ends_look (f : σ → α) (s : σ) : Ends (look f : Prog σ ω ε α) s (f s) s := ⟨rfl, rfl⟩

theorem Ends.of_look {f : σ → α} (h : Ends (look f : Prog σ ω ε α) s a s') : a = f s ∧ s' = s := by
  obtain ⟨hr, rfl⟩ := h
  cases hr
  exact ⟨rfl, rfl⟩

omit [Effect σ ω] in
theorem dies_die (e : ε) (s : σ) : (die e : Prog σ ω ε α).Dies s := ⟨e, rfl⟩

theorem bind_apply (h : Ends m s a s') : (m >>= f) s =
    ⟨(m s).ops ++ (f a s').ops, (f a s').res⟩ := by
  obtain ⟨hr, rfl⟩ := h
  change (match (m s).res with
    | .error e => (⟨(m s).ops, .error e⟩ : Outcome ω ε β)
    | .ok a => ⟨(m s).ops ++ (f a (exec s (m s).ops)).ops, (f a (exec s (m s).ops)).res⟩) = _
  rw [hr]

theorem Ends.bind (h : Ends m s a s') (h' : Ends (f a) s' b s'') : Ends (m >>= f) s b s'' := by
  constructor
  · rw [bind_apply h]
    exact h'.res
  · rw [bind_apply h, exec_append, h.store]
    exact h'.store

theorem Dies.bind (h : m.Dies s) (f : α → Prog σ ω ε β) : (m >>= f).Dies s := by
  obtain ⟨e, he⟩ := h
  refine ⟨e, ?_⟩
  change (match (m s).res with
    | .error e => (⟨(m s).ops, .error e⟩ : Outcome ω ε β)
    | .ok a => ⟨(m s).ops ++ (f a (exec s (m s).ops)).ops, (f a (exec s (m s).ops)).res⟩).res = _
  rw [he]

theorem Ends.dies_bind (h : Ends m s a s') (h' : (f a).Dies s') : (m >>= f).Dies s := by
  obtain ⟨e, he⟩ := h'
  exact ⟨e, by rw [bind_apply h]; exact he⟩

/-! ### Loops over a range -/

/-- A loop ends in the state its iterations lead to. -/
theorem Ends.foldlM_range' {g : β → ℕ → Prog σ ω ε β} (acc : ℕ → β) (st : ℕ → σ) (k n : ℕ)
    (h : ∀ i, k ≤ i → i < k + n → Ends (g (acc i) i) (st i) (acc (i + 1)) (st (i + 1))) :
    Ends ((List.range' k n).foldlM g (acc k)) (st k) (acc (k + n)) (st (k + n)) := by
  induction n generalizing k with
  | zero => exact ends_pure _ _
  | succ n ih =>
    rw [List.range'_succ, List.foldlM_cons]
    have := ih (k + 1) (fun i h1 h2 => h i (by omega) (by omega))
    rw [show k + 1 + n = k + (n + 1) by omega] at this
    exact (h k (Nat.le_refl k) (by omega)).bind this

theorem Ends.foldlM_range {g : β → ℕ → Prog σ ω ε β} (acc : ℕ → β) (st : ℕ → σ) (n : ℕ)
    (h : ∀ i < n, Ends (g (acc i) i) (st i) (acc (i + 1)) (st (i + 1))) :
    Ends ((List.range n).foldlM g (acc 0)) (st 0) (acc n) (st n) := by
  rw [List.range_eq_range']
  simpa using Ends.foldlM_range' acc st 0 n (fun i _ hi => h i (by omega))

/-- A loop dies when one of its iterations does. -/
theorem Dies.foldlM_range' {g : β → ℕ → Prog σ ω ε β} (acc : ℕ → β) (st : ℕ → σ) (k d n : ℕ)
    (h : ∀ i, k ≤ i → i < k + d → Ends (g (acc i) i) (st i) (acc (i + 1)) (st (i + 1)))
    (hd : d < n) (hdie : (g (acc (k + d)) (k + d)).Dies (st (k + d))) :
    ((List.range' k n).foldlM g (acc k)).Dies (st k) := by
  induction d generalizing k n with
  | zero =>
    obtain ⟨n, rfl⟩ : ∃ n', n = n' + 1 := ⟨n - 1, by omega⟩
    rw [List.range'_succ, List.foldlM_cons]
    exact hdie.bind _
  | succ d ih =>
    obtain ⟨n, rfl⟩ : ∃ n', n = n' + 1 := ⟨n - 1, by omega⟩
    rw [List.range'_succ, List.foldlM_cons]
    refine (h k (Nat.le_refl k) (by omega)).dies_bind (ih (k + 1) n ?_ (by omega) ?_)
    · exact fun i h1 h2 => h i (by omega) (by omega)
    · rwa [show k + 1 + d = k + (d + 1) by omega]

theorem Dies.foldlM_range {g : β → ℕ → Prog σ ω ε β} (acc : ℕ → β) (st : ℕ → σ) (d n : ℕ)
    (h : ∀ i < d, Ends (g (acc i) i) (st i) (acc (i + 1)) (st (i + 1)))
    (hd : d < n) (hdie : (g (acc d) d).Dies (st d)) :
    ((List.range n).foldlM g (acc 0)).Dies (st 0) := by
  rw [List.range_eq_range']
  exact Dies.foldlM_range' acc st 0 d n (fun i _ hi => h i (by omega)) hd
    (by simpa using hdie)

theorem Ends.forM_range {g : ℕ → Prog σ ω ε PUnit} (st : ℕ → σ) (n : ℕ)
    (h : ∀ i < n, Ends (g i) (st i) ⟨⟩ (st (i + 1))) :
    Ends ((List.range n).forM g) (st 0) ⟨⟩ (st n) := by
  suffices H : ∀ k, k ≤ n → Ends ((List.range' k (n - k)).forM g) (st k) ⟨⟩ (st n) by
    simpa [List.range_eq_range'] using H 0 (by omega)
  intro k hk
  obtain ⟨d, rfl⟩ := Nat.exists_eq_add_of_le hk
  rw [Nat.add_sub_cancel_left]
  clear hk
  induction d generalizing k with
  | zero => exact ends_pure _ _
  | succ d ih =>
    rw [List.range'_succ]
    refine (h k (by omega)).bind ?_
    have := ih (k + 1) (by rwa [show k + 1 + d = k + (d + 1) by omega])
    rwa [show k + 1 + d = k + (d + 1) by omega] at this

/-! ### Stopping on the way -/

/-- A store the program passes through, or is stopped in. -/
def Passes (m : Prog σ ω ε α) (s s' : σ) : Prop := ∃ k, s' = exec s ((m s).ops.take k)

/-- A property of every store the program can be stopped in. -/
def Always (I : σ → Prop) (m : Prog σ ω ε α) (s : σ) : Prop := ∀ s', m.Passes s s' → I s'

variable {I : σ → Prop}

theorem Passes.start (m : Prog σ ω ε α) (s : σ) : m.Passes s s := ⟨0, by simp⟩

/-- The store at the end is passed through. -/
theorem Ends.passes (h : Ends m s a s') : m.Passes s s' :=
  ⟨(m s).ops.length, by rw [List.take_length, h.store]⟩

theorem Always.start (h : Always I m s) : I s := h s (Passes.start m s)

theorem Always.at_end (h : Always I m s) (he : Ends m s a s') : I s' := h s' he.passes

theorem always_of_no_ops (hm : (m s).ops = []) (hs : I s) : Always I m s := by
  rintro _ ⟨k, rfl⟩
  simpa [hm] using hs

theorem always_pure (hs : I s) : Always I (pure a : Prog σ ω ε α) s := always_of_no_ops rfl hs

theorem always_issue (op : ω) (hs : I s) (hs' : I (Effect.apply s op)) :
    Always I (issue op : Prog σ ω ε PUnit) s := by
  rintro _ ⟨k, rfl⟩
  cases k with
  | zero => exact hs
  | succ k => simpa [issue] using hs'

/-- A sequence is stopped in its first part, or in the second after the first. -/
theorem Always.bind (h : Always I m s) (h' : ∀ a s', Ends m s a s' → Always I (f a) s') :
    Always I (m >>= f) s := by
  rintro _ ⟨k, rfl⟩
  cases hres : (m s).res with
  | error e =>
    have hops : ((m >>= f) s).ops = (m s).ops := by
      change (match (m s).res with
        | .error e => (⟨(m s).ops, .error e⟩ : Outcome ω ε β)
        | .ok a => ⟨(m s).ops ++ (f a (exec s (m s).ops)).ops, (f a (exec s (m s).ops)).res⟩).ops = _
      rw [hres]
    rw [hops]
    exact h _ ⟨k, rfl⟩
  | ok a =>
    have hm : Ends m s a (exec s (m s).ops) := ⟨hres, rfl⟩
    rw [bind_apply hm, List.take_append]
    rcases Nat.le_total k (m s).ops.length with hk | hk
    · rw [Nat.sub_eq_zero_of_le hk, List.take_zero, List.append_nil]
      exact h _ ⟨k, rfl⟩
    · rw [List.take_of_length_le hk, exec_append]
      exact h' a _ hm _ ⟨_, rfl⟩

/-- A loop keeps a property that each of its iterations keeps. -/
theorem always_foldlM {g : β → ℕ → Prog σ ω ε β} (l : List ℕ)
    (hg : ∀ i ∈ l, ∀ b s, I s → Always I (g b i) s) (b : β) (hs : I s) :
    Always I (l.foldlM g b) s := by
  induction l generalizing b s with
  | nil => exact always_pure hs
  | cons i l ih =>
    rw [List.foldlM_cons]
    have hi := hg i (by simp) b s hs
    exact hi.bind fun b' s' he => ih (fun j hj => hg j (by simp [hj])) b' (hi.at_end he)

theorem always_forM {g : ℕ → Prog σ ω ε PUnit} (l : List ℕ)
    (hg : ∀ i ∈ l, ∀ s, I s → Always I (g i) s) (hs : I s) : Always I (l.forM g) s := by
  induction l generalizing s with
  | nil => exact always_pure hs
  | cons i l ih =>
    have hi := hg i (by simp) s hs
    exact hi.bind fun _ s' he => ih (fun j hj => hg j (by simp [hj])) (hi.at_end he)

end Prog

end HiDANN.Script
