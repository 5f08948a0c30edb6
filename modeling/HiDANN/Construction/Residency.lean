import HiDANN.Construction.PairLoop
import Mathlib.Logic.Relation

/-! The indexes that are in memory during the pair loop. Three handles own them: that of the
anchor, that of the target, and the one that carries the index of the next anchor over.
The loop is taken apart into its steps, so that what the handles own can be said at every
one of them; the pairs it processes are those of the loop as a whole. -/

namespace HiDANN.Construction

/-! ### The steps -/

/-- Where the loop stands: at the head of the outer or of the inner loop, at a pair with both
of its indexes loaded, or behind the loop. -/
inductive LoopPoint where
  | anchor (i : ℕ)
  | target (i j : ℕ)
  | pair (i j : ℕ)
  | done

/-- The three handles, each with the partition whose index it owns. -/
structure LoopState where
  point : LoopPoint
  ui : Option ℕ
  uj : Option ℕ
  cachedNextU : Option ℕ

namespace LoopState

def start (b : ℕ) : LoopState := ⟨.anchor b, none, none, none⟩

def owned (handle : Option ℕ) : ℕ := if handle.isSome then 1 else 0

def loaded (s : LoopState) : ℕ := owned s.ui + owned s.uj + owned s.cachedNextU

/-- The pair that is processed at a state, with the indexes that `u_i` and `u_j` own. -/
def processed (s : LoopState) : Option (Side × Side) :=
  match s.point, s.ui, s.uj with
  | .pair i j, some u, some v => some (⟨i, u⟩, ⟨j, v⟩)
  | _, _, _ => none

variable (P : ℕ) (target : ℤ) (mask : CrossPairMask) (e : ℕ)

/-- A target that is passed over, for another target or because it is not selected. -/
def Skips (i j : ℕ) : Prop :=
  0 ≤ target ∧ (j : ℤ) ≠ target ∨ crossPairSelected mask P i j = false

instance (i j : ℕ) : Decidable (Skips P target mask i j) := inferInstanceAs (Decidable (_ ∨ _))

/-- One step of the loop over the anchors up to `e`. -/
def step (s : LoopState) : Option LoopState :=
  match s.point with
  | .anchor i =>
    if i < e then
      match s.cachedNextU with
      | some u => some { s with point := .target i (P - 1), ui := some u, cachedNextU := none }
      | none => some { s with point := .target i (P - 1), ui := some i }
    else some { s with point := .done }
  | .target i j =>
    if i < j then
      if Skips P target mask i j then some { s with point := .target i (j - 1) }
      else some { s with point := .pair i j, uj := some j }
    -- `u_i` ends with its iteration
    else some { s with point := .anchor (i + 1), ui := none }
  | .pair i j =>
    if 0 ≤ target then some { s with point := .target i (j - 1), uj := none }
    else if j = i + 1 then
      some { s with point := .target i (j - 1), uj := none, cachedNextU := s.uj }
    else some { s with point := .target i (j - 1), uj := none }
  | .done => none

/-- The states of the loop from anchor `b` on. -/
def Reachable (b : ℕ) (s : LoopState) : Prop :=
  Relation.ReflTransGen (fun s s' => step P target mask e s = some s') (start b) s

/-- A run, and the pairs that are processed in it. -/
inductive Runs : LoopState → List (Side × Side) → LoopState → Prop where
  | refl (s) : Runs s [] s
  | step {s s' s'' ps} (hstep : step P target mask e s = some s') (hrest : Runs s' ps s'') :
    Runs s (s.processed.toList ++ ps) s''

/-! ### What the handles own -/

/-- The handles at every point of the loop. An index is carried over from the last target
only, so no target is loaded while there is one. -/
def Owns (s : LoopState) : Prop :=
  match s.point with
  | .anchor i => s.ui = none ∧ s.uj = none ∧ (s.cachedNextU = none ∨ s.cachedNextU = some i)
  | .target i j => s.ui = some i ∧ s.uj = none ∧
    (s.cachedNextU = none ∨ s.cachedNextU = some (i + 1) ∧ j = i)
  | .pair i j => s.ui = some i ∧ s.uj = some j ∧ s.cachedNextU = none
  | .done => s.ui = none ∧ s.uj = none

variable {P target mask e} {s s' : LoopState}

theorem Owns.step (h : s.Owns) (hstep : step P target mask e s = some s') : s'.Owns := by
  obtain ⟨point, ui, uj, cached⟩ := s
  cases point with
  | anchor i =>
    obtain ⟨hui, huj, hcached⟩ := h
    dsimp only at hui huj hcached
    subst hui huj
    unfold LoopState.step at hstep
    dsimp only at hstep
    split_ifs at hstep with hi
    · rcases hcached with rfl | rfl
      · obtain rfl := Option.some.inj hstep
        exact ⟨rfl, rfl, .inl rfl⟩
      · obtain rfl := Option.some.inj hstep
        exact ⟨rfl, rfl, .inl rfl⟩
    · obtain rfl := Option.some.inj hstep
      exact ⟨rfl, rfl⟩
  | target i j =>
    obtain ⟨hui, huj, hcached⟩ := h
    dsimp only at hui huj hcached
    subst hui huj
    unfold LoopState.step at hstep
    dsimp only at hstep
    split_ifs at hstep with hlt hskip
    · obtain rfl := Option.some.inj hstep
      exact ⟨rfl, rfl, .inl (hcached.resolve_right (by omega))⟩
    · obtain rfl := Option.some.inj hstep
      exact ⟨rfl, rfl, hcached.resolve_right (by omega)⟩
    · obtain rfl := Option.some.inj hstep
      exact ⟨rfl, rfl, hcached.imp_right And.left⟩
  | pair i j =>
    obtain ⟨hui, huj, hcached⟩ := h
    dsimp only at hui huj hcached
    subst hui huj hcached
    unfold LoopState.step at hstep
    dsimp only at hstep
    split_ifs at hstep with htarget hnext
    · obtain rfl := Option.some.inj hstep
      exact ⟨rfl, rfl, .inl rfl⟩
    · obtain rfl := Option.some.inj hstep
      exact ⟨rfl, rfl, .inr ⟨congrArg some hnext, by omega⟩⟩
    · obtain rfl := Option.some.inj hstep
      exact ⟨rfl, rfl, .inl rfl⟩
  | done => cases hstep

theorem owns_anchor {i : ℕ} {cached : Option ℕ} (h : cached = none ∨ cached = some i) :
    Owns ⟨.anchor i, none, none, cached⟩ := ⟨rfl, rfl, h⟩

theorem Owns.steps (h : s.Owns)
    (hsteps : Relation.ReflTransGen (fun s s' => LoopState.step P target mask e s = some s') s s') :
    s'.Owns := by
  induction hsteps with
  | refl => exact h
  | tail _ hstep ih => exact ih.step hstep

theorem Reachable.owns {b : ℕ} (h : Reachable P target mask e b s) : s.Owns :=
  (owns_anchor (.inl rfl)).steps h

theorem owned_le (handle : Option ℕ) : owned handle ≤ 1 := by
  unfold owned
  split_ifs
  · exact le_rfl
  · exact Nat.zero_le 1

/-- At every point one of the handles is empty. -/
theorem Owns.loaded_le (h : s.Owns) : s.loaded ≤ 2 := by
  have hui := owned_le s.ui
  have huj := owned_le s.uj
  have hcached := owned_le s.cachedNextU
  have hempty : owned none = 0 := rfl
  have hone : s.uj = none ∨ s.cachedNextU = none := by
    unfold Owns at h
    split at h
    · exact .inl h.2.1
    · exact .inl h.2.1
    · exact .inr h.2.2
    · exact .inl h.2
  unfold loaded
  rcases hone with h | h
  · rw [h, hempty]
    omega
  · rw [h, hempty]
    omega

/-! ### The pairs of a run -/

theorem Runs.trans {ps ps' : List (Side × Side)} {s'' : LoopState}
    (h : Runs P target mask e s ps s') (h' : Runs P target mask e s' ps' s'') :
    Runs P target mask e s (ps ++ ps') s'' := by
  induction h with
  | refl s => exact h'
  | step hstep _ ih =>
    rw [List.append_assoc]
    exact .step hstep (ih h')

theorem Runs.reachable {ps : List (Side × Side)} (h : Runs P target mask e s ps s') :
    Relation.ReflTransGen (fun s s' => LoopState.step P target mask e s = some s') s s' := by
  induction h with
  | refl s => exact .refl
  | step hstep _ ih => exact .head hstep ih

/-- A target that is skipped. -/
theorem step_target_skip {i k : ℕ} {cached : Option ℕ}
    (hskip : Skips P target mask i (i + (k + 1))) :
    LoopState.step P target mask e ⟨.target i (i + (k + 1)), some i, none, cached⟩ =
      some ⟨.target i (i + k), some i, none, cached⟩ := by
  have hlt : i < i + (k + 1) := by omega
  have hpred : i + (k + 1) - 1 = i + k := by omega
  rw [LoopState.step]
  dsimp only
  rw [if_pos hlt, if_pos hskip, hpred]

/-- The others are loaded. -/
theorem step_target_load {i k : ℕ} {cached : Option ℕ}
    (hskip : ¬ Skips P target mask i (i + (k + 1))) :
    LoopState.step P target mask e ⟨.target i (i + (k + 1)), some i, none, cached⟩ =
      some ⟨.pair i (i + (k + 1)), some i, some (i + (k + 1)), cached⟩ := by
  have hlt : i < i + (k + 1) := by omega
  rw [LoopState.step]
  dsimp only
  rw [if_pos hlt, if_neg hskip]

/-- They are released after the pair, but for the last one, which may be kept for the next
anchor. -/
theorem step_pair_release (i k : ℕ) : ∃ next, LoopState.step P target mask e
    ⟨.pair i (i + (k + 1)), some i, some (i + (k + 1)), none⟩ =
      some ⟨.target i (i + k), some i, none, next⟩ ∧ (k = 0 ∨ next = none) := by
  have hpred : i + (k + 1) - 1 = i + k := by omega
  rw [LoopState.step]
  dsimp only
  rw [hpred]
  split_ifs with htarget hone
  · exact ⟨none, rfl, .inr rfl⟩
  · exact ⟨_, rfl, .inl (by omega)⟩
  · exact ⟨none, rfl, .inr rfl⟩

/-- The pairs of the loop are those that are not skipped. -/
theorem not_skips_iff {i j : ℕ} : ¬ Skips P target mask i j ↔
    ¬ (0 ≤ target ∧ (j : ℤ) ≠ target) ∧ crossPairSelected mask P i j = true := by
  rw [Skips, not_or, Bool.not_eq_false]

variable (P target mask e) in
/-- The targets of an anchor, from the `k`-th behind it down. -/
theorem runs_targets (i k : ℕ) (cached : Option ℕ) (hcached : k = 0 ∨ cached = none) :
    ∃ cached', Runs P target mask e ⟨.target i (i + k), some i, none, cached⟩
      (((List.range' (i + 1) k).reverse.filter fun j : ℕ =>
        ¬ (0 ≤ target ∧ (j : ℤ) ≠ target) ∧ crossPairSelected mask P i j).map (pairOf i))
      ⟨.target i i, some i, none, cached'⟩ := by
  induction k generalizing cached with
  | zero => exact ⟨cached, .refl _⟩
  | succ k ih =>
    obtain rfl : cached = none := hcached.resolve_left (by omega)
    have hrev : (List.range' (i + 1) (k + 1)).reverse =
        (i + (k + 1)) :: (List.range' (i + 1) k).reverse := by
      rw [List.range'_concat, List.reverse_append]
      simp
      omega
    rw [hrev]
    by_cases hskip : Skips P target mask i (i + (k + 1))
    · obtain ⟨cached', hrun⟩ := ih none (.inr rfl)
      refine ⟨cached', ?_⟩
      rw [List.filter_cons_of_neg (by rwa [decide_eq_true_eq, ← not_skips_iff, not_not])]
      exact .step (step_target_skip hskip) hrun
    · obtain ⟨next, hrelease, hnext⟩ := step_pair_release i k
      obtain ⟨cached', hrun⟩ := ih next hnext
      rw [List.filter_cons_of_pos (by rwa [decide_eq_true_eq, ← not_skips_iff])]
      exact ⟨cached', .step (step_target_load hskip) (.step hrelease hrun)⟩

variable (P target mask) in
/-- An anchor processes its partners, and leaves at most the index of the next anchor. -/
theorem runs_anchor {i : ℕ} (hi : i < e) {cached : Option ℕ}
    (hcached : cached = none ∨ cached = some i) : ∃ cached',
    (cached' = none ∨ cached' = some (i + 1)) ∧
    Runs P target mask e ⟨.anchor i, none, none, cached⟩
      ((partners P target mask i).map (pairOf i)) ⟨.anchor (i + 1), none, none, cached'⟩ := by
  have hhead : LoopState.step P target mask e ⟨.anchor i, none, none, cached⟩ =
      some ⟨.target i (P - 1), some i, none, none⟩ := by
    rw [LoopState.step]
    dsimp only
    rw [if_pos hi]
    rcases hcached with rfl | rfl
    · rfl
    · rfl
  obtain ⟨cached', htargets⟩ : ∃ cached', Runs P target mask e
      ⟨.target i (P - 1), some i, none, none⟩ ((partners P target mask i).map (pairOf i))
      ⟨.anchor (i + 1), none, none, cached'⟩ := by
    have hexit : ∀ j cached, ¬ i < j → LoopState.step P target mask e
        ⟨.target i j, some i, none, cached⟩ = some ⟨.anchor (i + 1), none, none, cached⟩ := by
      intro j cached hj
      rw [LoopState.step]
      dsimp only
      rw [if_neg hj]
    rcases Nat.lt_or_ge (P - 1) i with hlt | hle
    · refine ⟨none, ?_⟩
      rw [partners, Nat.sub_eq_zero_of_le hlt.le]
      exact .step (hexit (P - 1) none (by omega)) (.refl _)
    · obtain ⟨cached', hrun⟩ := runs_targets P target mask e i (P - 1 - i) none (.inr rfl)
      rw [Nat.add_sub_cancel' hle] at hrun
      refine ⟨cached', ?_⟩
      have hend := hrun.trans (.step (hexit i cached' (lt_irrefl i)) (.refl _))
      simpa [partners, processed] using hend
  have hrun := Runs.step hhead htargets
  have hnext : Owns ⟨.anchor (i + 1), none, none, cached'⟩ :=
    (owns_anchor hcached).steps hrun.reachable
  exact ⟨cached', hnext.2.2, hrun⟩

variable (P target mask) in
theorem runs_anchors (n b : ℕ) {cached : Option ℕ} (hcached : cached = none ∨ cached = some b)
    (he : e - b = n) : ∃ cached',
    Runs P target mask e ⟨.anchor b, none, none, cached⟩
      ((List.range' b n).flatMap fun i => (partners P target mask i).map (pairOf i))
      ⟨.done, none, none, cached'⟩ := by
  induction n generalizing b cached with
  | zero =>
    have hend : LoopState.step P target mask e ⟨.anchor b, none, none, cached⟩ =
        some ⟨.done, none, none, cached⟩ := by
      rw [LoopState.step]
      exact if_neg (by omega)
    exact ⟨cached, .step hend (.refl _)⟩
  | succ n ih =>
    obtain ⟨next, hnext, hanchor⟩ := runs_anchor P target mask (e := e) (by omega) hcached
    obtain ⟨cached', hrest⟩ := ih (b + 1) hnext (by omega)
    rw [List.range'_succ, List.flatMap_cons]
    exact ⟨cached', hanchor.trans hrest⟩

/-- The loop taken apart processes the pairs of the loop as a whole. -/
theorem runs_crossSteps (b : ℕ) : ∃ cached,
    Runs P target mask e (start b) (crossSteps P target mask b e) ⟨.done, none, none, cached⟩ := by
  rw [crossSteps_eq]
  exact runs_anchors P target mask (e - b) b (.inl rfl) rfl

end LoopState

/-- At most two indexes are loaded at any step of the pair loop, for every range of anchors,
every target and every mask: a pair is processed with `u_i` and `u_j` on its own
partitions, and an anchor begins with nothing carried over, or with its own index. The
pairs of the whole run are those of the pair loop. -/
theorem at_most_two_resident (P : ℕ) (target : ℤ) (mask : CrossPairMask) (b e : ℕ) :
    (∀ s, LoopState.Reachable P target mask e b s →
      s.loaded ≤ 2 ∧
      (∀ i j, s.point = .pair i j → s.ui = some i ∧ s.uj = some j) ∧
      ∀ i, s.point = .anchor i → s.cachedNextU = none ∨ s.cachedNextU = some i) ∧
    ∃ cached, LoopState.Runs P target mask e (.start b) (crossSteps P target mask b e)
      ⟨.done, none, none, cached⟩ := by
  refine ⟨fun s hs => ⟨hs.owns.loaded_le, fun i j hpoint => ?_, fun i hpoint => ?_⟩,
    LoopState.runs_crossSteps b⟩
  · have howns := hs.owns
    rw [LoopState.Owns, hpoint] at howns
    exact ⟨howns.1, howns.2.1⟩
  · have howns := hs.owns
    rw [LoopState.Owns, hpoint] at howns
    exact howns.2.2

end HiDANN.Construction
