import HiDANN.Construction.Pairs

/-! The loop over partition pairs. Anchors go up, the targets of an anchor go
down to its neighbour, whose index is then carried over to be the next anchor's.
Whatever the range of anchors, the loop processes each selected pair of its
anchors once, with the index of each partition loaded for its side. -/

namespace HiDANN.Construction

deriving instance DecidableEq for Side

/-! ### The loop -/

/-- One target of an anchor: what has been processed, and the carried-over index. -/
def targetStep (P : ℕ) (target : ℤ) (mask : CrossPairMask) (i ui : ℕ)
    (s : List (Side × Side) × Option ℕ) (j : ℕ) : List (Side × Side) × Option ℕ :=
  if 0 ≤ target ∧ (j : ℤ) ≠ target then s
  else if !crossPairSelected mask P i j then s
  else (s.1 ++ [(⟨i, ui⟩, ⟨j, j⟩)],
    if 0 ≤ target then s.2 else if j = i + 1 then some j else s.2)

/-- One anchor: it takes the carried-over index, if there is one. -/
def anchorStep (P : ℕ) (target : ℤ) (mask : CrossPairMask) (s : List (Side × Side) × Option ℕ)
    (i : ℕ) : List (Side × Side) × Option ℕ :=
  (List.range' (i + 1) (P - 1 - i)).reverse.foldl
    (targetStep P target mask i (s.2.getD i)) (s.1, none)

/-- The pairs processed for the anchors from `b` up to `e`. -/
def crossSteps (P : ℕ) (target : ℤ) (mask : CrossPairMask) (b e : ℕ) : List (Side × Side) :=
  ((List.range' b (e - b)).foldl (anchorStep P target mask) ([], none)).1

/-! ### What it processes -/

/-- The pair of two partitions, each with its own index loaded. -/
def pairOf (i j : ℕ) : Side × Side := (⟨i, i⟩, ⟨j, j⟩)

/-- The targets an anchor is paired with, in order. -/
def partners (P : ℕ) (target : ℤ) (mask : CrossPairMask) (i : ℕ) : List ℕ :=
  (List.range' (i + 1) (P - 1 - i)).reverse.filter fun j =>
    ¬ (0 ≤ target ∧ (j : ℤ) ≠ target) ∧ crossPairSelected mask P i j

variable {P : ℕ} {target : ℤ} {mask : CrossPairMask}

variable (P target mask) in
theorem foldl_targetStep (i : ℕ) (js : List ℕ) (s : List (Side × Side) × Option ℕ)
    (hs : ∀ u ∈ s.2, u = i + 1) :
    (js.foldl (targetStep P target mask i i) s).1 = s.1 ++
      (js.filter fun j : ℕ => ¬ (0 ≤ target ∧ (j : ℤ) ≠ target) ∧ crossPairSelected mask P i j).map
        (pairOf i) ∧
    ∀ u ∈ (js.foldl (targetStep P target mask i i) s).2, u = i + 1 := by
  induction js generalizing s with
  | nil => exact ⟨by simp, hs⟩
  | cons j js ih =>
    rw [List.foldl_cons]
    by_cases hskip : 0 ≤ target ∧ (j : ℤ) ≠ target
    · rw [targetStep, if_pos hskip, List.filter_cons_of_neg (by simp [hskip])]
      exact ih s hs
    · by_cases hsel : crossPairSelected mask P i j = true
      · have hstep : targetStep P target mask i i s j = (s.1 ++ [pairOf i j],
            if 0 ≤ target then s.2 else if j = i + 1 then some j else s.2) := by
          rw [targetStep, if_neg hskip, if_neg (by simp [hsel])]
          rfl
        have hcached : ∀ u ∈ (if 0 ≤ target then s.2 else if j = i + 1 then some j else s.2),
            u = i + 1 := by
          intro u hu
          split_ifs at hu with h1 h2
          · exact hs u hu
          · rw [Option.mem_some_iff] at hu
            omega
          · exact hs u hu
        rw [hstep]
        generalize (if 0 ≤ target then s.2 else if j = i + 1 then some j else s.2) = cached
          at hcached
        obtain ⟨h1, h2⟩ := ih (s.1 ++ [pairOf i j], cached) hcached
        refine ⟨?_, h2⟩
        rw [h1, List.filter_cons_of_pos (by rw [decide_eq_true_eq]; exact ⟨hskip, hsel⟩),
          List.append_assoc]
        rfl
      · rw [targetStep, if_neg hskip, if_pos (by simpa using hsel),
          List.filter_cons_of_neg (by simp [hsel])]
        exact ih s hs

/-- Every anchor is processed with its own index, whether carried over or loaded. -/
theorem foldl_anchorStep (b n : ℕ) (s : List (Side × Side) × Option ℕ) (hs : ∀ u ∈ s.2, u = b) :
    ((List.range' b n).foldl (anchorStep P target mask) s).1 = s.1 ++
      (List.range' b n).flatMap fun i => (partners P target mask i).map (pairOf i) := by
  induction n generalizing b s with
  | zero => simp
  | succ n ih =>
    have hui : s.2.getD b = b := by
      cases hc : s.2 with
      | none => rfl
      | some u => exact hs u (by simp [hc])
    obtain ⟨h1, h2⟩ := foldl_targetStep P target mask b
      (List.range' (b + 1) (P - 1 - b)).reverse (s.1, none) (by simp)
    rw [List.range'_succ, List.foldl_cons, List.flatMap_cons]
    rw [ih (b + 1) _ (by rw [anchorStep, hui]; exact h2), anchorStep, hui, h1, List.append_assoc,
      partners]

theorem crossSteps_eq (b e : ℕ) : crossSteps P target mask b e =
    (List.range' b (e - b)).flatMap fun i => (partners P target mask i).map (pairOf i) := by
  rw [crossSteps, foldl_anchorStep b _ _ (by simp), List.nil_append]

/-- The pairs of a range of anchors are those of its anchors, one after another. -/
theorem crossSteps_split (n : ℕ) : crossSteps P target mask 0 n =
    (List.range n).flatMap fun i => crossSteps P target mask i (i + 1) := by
  rw [crossSteps_eq, List.range_eq_range', Nat.sub_zero]
  refine List.flatMap_congr fun i _ => ?_
  rw [crossSteps_eq, Nat.add_sub_cancel_left]
  simp

theorem mem_partners {i j : ℕ} : j ∈ partners P (-1) mask i ↔
    i < j ∧ j < P ∧ crossPairSelected mask P i j = true := by
  simp only [partners, List.mem_filter, List.mem_reverse, List.mem_range'_1]
  constructor
  · rintro ⟨h1, h2⟩
    exact ⟨by omega, by omega, by simpa using h2⟩
  · rintro ⟨h1, h2, h3⟩
    exact ⟨by omega, by simpa using h3⟩

/-- Whatever the anchors and the target, the sides of a pair have their own index. -/
theorem exists_of_mem_crossSteps {b e : ℕ} {p : Side × Side}
    (hp : p ∈ crossSteps P target mask b e) : ∃ i j, i < j ∧ j < P ∧ p = pairOf i j := by
  rw [crossSteps_eq] at hp
  simp only [List.mem_flatMap, List.mem_map, partners, List.mem_filter, List.mem_reverse,
    List.mem_range'_1] at hp
  obtain ⟨i, -, j, ⟨hj, -⟩, rfl⟩ := hp
  exact ⟨i, j, by omega, by omega, rfl⟩

/-- Without a target every selected pair is processed exactly once, and no other. -/
theorem mem_crossSteps {p : Side × Side} : p ∈ crossSteps P (-1) mask 0 (P - 1) ↔
    ∃ i j, i < j ∧ j < P ∧ crossPairSelected mask P i j = true ∧ p = pairOf i j := by
  rw [crossSteps_eq]
  simp only [List.mem_flatMap, List.mem_range'_1, List.mem_map]
  constructor
  · rintro ⟨i, -, j, hj, rfl⟩
    obtain ⟨h1, h2, h3⟩ := mem_partners.mp hj
    exact ⟨i, j, h1, h2, h3, rfl⟩
  · rintro ⟨i, j, h1, h2, h3, rfl⟩
    exact ⟨i, by omega, j, mem_partners.mpr ⟨h1, h2, h3⟩, rfl⟩

theorem pairOf_inj {i j i' j' : ℕ} : pairOf i j = pairOf i' j' ↔ i = i' ∧ j = j' := by
  simp [pairOf]

theorem crossSteps_nodup (P : ℕ) (mask : CrossPairMask) :
    (crossSteps P (-1) mask 0 (P - 1)).Nodup := by
  rw [crossSteps_eq, List.nodup_flatMap]
  refine ⟨fun i _ => ?_, ?_⟩
  · refine List.Nodup.map (fun j j' h => (pairOf_inj.mp h).2) (List.Nodup.filter _ ?_)
    exact List.nodup_reverse.mpr (List.nodup_range' ..)
  · refine List.Pairwise.imp_of_mem ?_ (List.nodup_range' (s := 0) (n := P - 1 - 0))
    intro i i' _ _ hne p hp hp'
    obtain ⟨j, -, rfl⟩ := List.mem_map.mp hp
    obtain ⟨j', -, he⟩ := List.mem_map.mp hp'
    exact hne (pairOf_inj.mp he).1.symm

end HiDANN.Construction
