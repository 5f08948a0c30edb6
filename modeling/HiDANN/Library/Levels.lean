import Mathlib.Data.List.Nodup
import Mathlib.Data.Set.Card
import Mathlib.Tactic.Common

/-! The levels of a breadth-first search. A node is at level `n` when a walk of `n` steps from
one of the start nodes leads to it and no shorter one does. A search goes from level to
level: while level `n` is expanded, what has been found are the nodes up to level `n`, in
the order of their levels, and behind them some nodes of the next one. -/

namespace HiDANN.Levels

variable {α : Type*} (next : α → List α) (start : List α)

/-- A walk of `n` steps from a start node. -/
inductive Walk : ℕ → α → Prop where
  | start {v : α} : v ∈ start → Walk 0 v
  | step {n : ℕ} {u v : α} : Walk n u → v ∈ next u → Walk (n + 1) v

def At (n : ℕ) (v : α) : Prop := Walk next start n v ∧ ∀ m < n, ¬ Walk next start m v

def Reachable (v : α) : Prop := ∃ n, Walk next start n v

/-- `u` is at no higher level than `v`. -/
def NotFarther (u v : α) : Prop := ∀ m n, At next start m u → At next start n v → m ≤ n

variable {next start} {m n : ℕ} {u v : α}

theorem At.unique (h : At next start m v) (h' : At next start n v) : m = n := by
  rcases Nat.lt_trichotomy m n with hlt | rfl | hlt
  · exact absurd h.1 (h'.2 m hlt)
  · rfl
  · exact absurd h'.1 (h.2 n hlt)

theorem Walk.exists_at (h : Walk next start n v) : ∃ m ≤ n, At next start m v := by
  induction n using Nat.strong_induction_on with
  | _ n ih =>
    by_cases hat : At next start n v
    · exact ⟨n, le_rfl, hat⟩
    · obtain ⟨m, hlt, hm⟩ : ∃ m < n, Walk next start m v := by
        by_contra hnone
        exact hat ⟨h, fun m hlt hm => hnone ⟨m, hlt, hm⟩⟩
      obtain ⟨l, hl, hat⟩ := ih m hlt hm
      exact ⟨l, hl.trans hlt.le, hat⟩

/-- A node behind the first level follows one of the level before. -/
theorem At.exists_pred (h : At next start (n + 1) v) : ∃ u, At next start n u ∧ v ∈ next u := by
  obtain ⟨hwalk, hleast⟩ := h
  cases hwalk with
  | step hu hv =>
    refine ⟨_, ⟨hu, fun m hlt hm => ?_⟩, hv⟩
    exact hleast (m + 1) (by omega) (.step hm hv)

/-- What follows a node and has not been found is at the next level. -/
theorem at_succ (hu : At next start n u) (hv : v ∈ next u)
    (hnew : ¬ ∃ m ≤ n, At next start m v) : At next start (n + 1) v := by
  refine ⟨.step hu.1 hv, fun m hlt hm => ?_⟩
  obtain ⟨l, hl, hat⟩ := hm.exists_at
  exact hnew ⟨l, by omega, hat⟩

/-! ### Expanding a level -/

variable (next start) in
/-- Level `n` is being expanded: `old` are the nodes up to it, and `fresh` some of the next. -/
structure Expanding (n : ℕ) (old fresh : List α) : Prop where
  mem_old : ∀ v, v ∈ old ↔ ∃ m ≤ n, At next start m v
  fresh_at : ∀ v ∈ fresh, At next start (n + 1) v
  nodup : (old ++ fresh).Nodup
  ordered : (old ++ fresh).Pairwise (NotFarther next start)

variable {old fresh : List α}

theorem Expanding.zero (hmem : ∀ v, v ∈ old ↔ v ∈ start) (hnd : old.Nodup) :
    Expanding next start 0 old [] where
  mem_old v := by
    rw [hmem]
    constructor
    · intro hv
      exact ⟨0, le_rfl, .start hv, fun m hm => absurd hm (Nat.not_lt_zero m)⟩
    · rintro ⟨m, hm, hat⟩
      obtain rfl := Nat.le_zero.mp hm
      cases hat.1 with
      | start hv => exact hv
  fresh_at := by simp
  nodup := by rwa [List.append_nil]
  ordered := by
    rw [List.append_nil]
    refine List.pairwise_of_forall_mem_list fun u hu v hv m n hm hn => ?_
    have hzero : At next start 0 u :=
      ⟨.start ((hmem u).mp hu), fun m hm => absurd hm (Nat.not_lt_zero m)⟩
    rw [hm.unique hzero]
    exact Nat.zero_le n

theorem Expanding.add (h : Expanding next start n old fresh) (hu : At next start n u)
    (hv : v ∈ next u) (hnew : v ∉ old ++ fresh) : Expanding next start n old (fresh ++ [v]) := by
  have hnold : v ∉ old := fun hold => hnew (List.mem_append_left _ hold)
  have hat : At next start (n + 1) v := at_succ hu hv fun hex => hnold ((h.mem_old v).mpr hex)
  refine ⟨h.mem_old, fun w hw => ?_, ?_, ?_⟩
  · rcases List.mem_append.mp hw with hw | hw
    · exact h.fresh_at w hw
    · rwa [List.mem_singleton.mp hw]
  · rw [← List.append_assoc]
    refine List.nodup_append.mpr ⟨h.nodup, List.nodup_singleton v, ?_⟩
    rintro a ha b hb rfl
    exact hnew (List.mem_singleton.mp hb ▸ ha)
  · rw [← List.append_assoc, List.pairwise_append]
    refine ⟨h.ordered, List.pairwise_singleton _ _, fun a ha b hb k l hk hl => ?_⟩
    rw [List.mem_singleton.mp hb] at hl
    obtain rfl := hl.unique hat
    rcases List.mem_append.mp ha with ha | ha
    · obtain ⟨m, hm, hma⟩ := (h.mem_old a).mp ha
      rw [hk.unique hma]
      omega
    · rw [hk.unique (h.fresh_at a ha)]

/-- When all of the level is expanded the fresh nodes are the next one. -/
theorem Expanding.mem_fresh (h : Expanding next start n old fresh)
    (hclosed : ∀ u, At next start n u → ∀ v ∈ next u, v ∈ old ++ fresh) (v : α) :
    v ∈ fresh ↔ At next start (n + 1) v := by
  refine ⟨h.fresh_at v, fun hat => ?_⟩
  obtain ⟨u, hu, hv⟩ := hat.exists_pred
  refine (List.mem_append.mp (hclosed u hu v hv)).resolve_left fun hold => ?_
  obtain ⟨m, hm, hat'⟩ := (h.mem_old v).mp hold
  have := hat.unique hat'
  omega

theorem Expanding.next_level (h : Expanding next start n old fresh)
    (hclosed : ∀ u, At next start n u → ∀ v ∈ next u, v ∈ old ++ fresh) :
    Expanding next start (n + 1) (old ++ fresh) [] where
  mem_old v := by
    rw [List.mem_append, h.mem_old, h.mem_fresh hclosed]
    constructor
    · rintro (⟨m, hm, hat⟩ | hat)
      · exact ⟨m, by omega, hat⟩
      · exact ⟨n + 1, le_rfl, hat⟩
    · rintro ⟨m, hm, hat⟩
      rcases hm.eq_or_lt with rfl | hlt
      · exact .inr hat
      · exact .inl ⟨m, by omega, hat⟩
  fresh_at := by simp
  nodup := by rw [List.append_nil]; exact h.nodup
  ordered := by rw [List.append_nil]; exact h.ordered

theorem Expanding.reachable (h : Expanding next start n old fresh) (hv : v ∈ old ++ fresh) :
    Reachable next start v := by
  rcases List.mem_append.mp hv with hv | hv
  · obtain ⟨m, -, hat⟩ := (h.mem_old v).mp hv
    exact ⟨m, hat.1⟩
  · exact ⟨n + 1, (h.fresh_at v hv).1⟩

/-- Levels end with the first empty one. -/
theorem At.exists_of_le (h : At next start n v) (hm : m ≤ n) : ∃ u, At next start m u := by
  induction n generalizing v with
  | zero =>
    obtain rfl := Nat.le_zero.mp hm
    exact ⟨v, h⟩
  | succ n ih =>
    rcases hm.eq_or_lt with rfl | hlt
    · exact ⟨v, h⟩
    · obtain ⟨u, hu, -⟩ := h.exists_pred
      exact ih hu (by omega)

/-- With an empty level everything reachable has been found. -/
theorem Expanding.complete (h : Expanding next start n old fresh)
    (hempty : ∀ v, ¬ At next start n v) (hv : Reachable next start v) : v ∈ old := by
  obtain ⟨k, hwalk⟩ := hv
  obtain ⟨m, -, hat⟩ := hwalk.exists_at
  refine (h.mem_old v).mpr ⟨m, Nat.le_of_not_lt fun hlt => ?_, hat⟩
  obtain ⟨u, hu⟩ := hat.exists_of_le hlt.le
  exact hempty u hu

/-! ### Counting -/

theorem length_le_ncard (hfin : {v | Reachable next start v}.Finite) {l : List α} (hnd : l.Nodup)
    (hl : ∀ v ∈ l, Reachable next start v) : l.length ≤ {v | Reachable next start v}.ncard := by
  classical
  have hsub : (l.toFinset : Set α) ⊆ {v | Reachable next start v} := by
    intro v hv
    exact hl v (List.mem_toFinset.mp hv)
  have hle := Set.ncard_le_ncard hsub hfin
  rwa [Set.ncard_coe_finset, List.toFinset_card_of_nodup hnd] at hle

theorem length_eq_ncard {l : List α} (hnd : l.Nodup) (hl : ∀ v, v ∈ l ↔ Reachable next start v) :
    l.length = {v | Reachable next start v}.ncard := by
  classical
  have heq : (l.toFinset : Set α) = {v | Reachable next start v} := by
    ext v
    rw [Finset.mem_coe, List.mem_toFinset, hl]
    rfl
  rw [← heq, Set.ncard_coe_finset, List.toFinset_card_of_nodup hnd]

end HiDANN.Levels
