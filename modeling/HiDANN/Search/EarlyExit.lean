import HiDANN.Search.Refine

/-! When the exit test stops the refinement. The ids it compares have been the same for
a streak of batches; those of them that are still unrefined lay behind all candidates
of these batches before the streak began, so the `k` ids left no room for more than
`k - streak * B` of them. -/

namespace HiDANN.Search

open TopK

variable {δ : Type*} [LinearOrder δ] {heap : TopKHeap δ} {a : RefineArgs} {exact : ℕ → δ}
  {candidates : List (Neighbor δ)} {M k upto t : ℕ}

/-! ### The compared ids -/

omit [LinearOrder δ] in
theorem node_inj (hid : (candidates.map Neighbor.id).Nodup) :
    ∀ x ∈ candidates, ∀ y ∈ candidates, x.id = y.id → x.node = y.node := by
  intro x hx y hy he
  rw [List.inj_on_of_nodup_map hid hx hy he]

omit [LinearOrder δ] in
theorem nodup_nodes (hid : (candidates.map Neighbor.id).Nodup) :
    (candidates.map Neighbor.node).Nodup := by
  have hcomp : candidates.map Neighbor.id = (candidates.map Neighbor.node).map TopKNode.id := by
    rw [List.map_map]
    rfl
  rw [hcomp] at hid
  exact hid.of_map _

theorem node_mem_select (hid : (candidates.map Neighbor.id).Nodup) {c : Neighbor δ}
    (hc : c ∈ candidates.take upto) (hmem : c.id ∈ computeTopkIds heap candidates upto k) :
    c.node ∈ select heap (min k upto) ((candidates.take upto).map Neighbor.node) := by
  rw [computeTopkIds, List.mem_insertionSort] at hmem
  obtain ⟨n, hn, he⟩ := List.mem_map.mp hmem
  obtain ⟨x, hx, rfl⟩ := List.mem_map.mp ((select_selected heap _ _).mem hn)
  rwa [node_inj hid c (List.mem_of_mem_take hc) x (List.mem_of_mem_take hx) he.symm]

variable (heap k) in
/-- Without ties the compared ids are those of the nearest candidates. -/
theorem perm_computeTopkIds (hid : (candidates.map Neighbor.id).Nodup)
    (hdist : ((candidates.take M).map Neighbor.distance).Nodup) :
    (((sortCandidates (candidates.take M)).take (min k M)).map Neighbor.id).Perm
      (computeTopkIds heap candidates M k) := by
  have hperm : (sortCandidates (candidates.take M)).Perm (candidates.take M) :=
    List.perm_insertionSort _ _
  have hsorted : (sortCandidates (candidates.take M)).Pairwise fun x y => x.key ≤ y.key :=
    List.pairwise_insertionSort _ _
  rw [← List.take_append_drop (min k M) (sortCandidates (candidates.take M)),
    List.pairwise_append] at hsorted
  have hleast : (select heap (min k M) ((candidates.take M).map Neighbor.node)).Perm
      (((sortCandidates (candidates.take M)).take (min k M)).map Neighbor.node) := by
    have hsplit : (((sortCandidates (candidates.take M)).take (min k M)).map Neighbor.node ++
        ((sortCandidates (candidates.take M)).drop (min k M)).map Neighbor.node).Perm
          ((candidates.take M).map Neighbor.node) := by
      rw [← List.map_append, List.take_append_drop]
      exact hperm.map _
    refine (select_selected heap _ _).perm
      (nodup_nodes (hid.sublist ((List.take_sublist _ _).map _))) ?_ hsplit ?_ ?_
    · intro x hx y hy he
      obtain ⟨c, hc, rfl⟩ := List.mem_map.mp hx
      obtain ⟨d, hd, rfl⟩ := List.mem_map.mp hy
      rw [List.inj_on_of_nodup_map hdist hc hd he]
    · rw [List.length_map, List.length_take, hperm.length_eq, List.length_map]
    · intro x hx y hy
      obtain ⟨c, hc, rfl⟩ := List.mem_map.mp hx
      obtain ⟨d, hd, rfl⟩ := List.mem_map.mp hy
      have hle := hsorted.2.2 c hc d hd
      rw [Neighbor.key, Neighbor.key, Prod.Lex.toLex_le_toLex] at hle
      rcases hle with hlt | ⟨he, -⟩
      · exact hlt.le
      · exact he.le
  have hids := (hleast.map TopKNode.id).symm
  rw [List.map_map] at hids
  exact hids.trans (List.perm_insertionSort _ _).symm

/-! ### The loop -/

/-- The ids the exit test sees after `t` batches. -/
def topkAfter (heap : TopKHeap δ) (a : RefineArgs) (exact : ℕ → δ)
    (candidates : List (Neighbor δ)) (M t : ℕ) : List ℕ :=
  computeTopkIds heap (refinedTo exact candidates (min (t * a.B) M)) M a.kSearch

/-- After `t` batches the ids have been the same for `streakCnt` batches. -/
structure StreakInv (heap : TopKHeap δ) (a : RefineArgs) (exact : ℕ → δ)
    (candidates : List (Neighbor δ)) (M t : ℕ) (s : Refinement δ) : Prop where
  start : s.start = t * a.B
  list : s.candidates = refinedTo exact candidates (min (t * a.B) M)
  prev : s.prevTopkIds = topkAfter heap a exact candidates M t
  streak_lt : s.streakCnt < a.streak
  streak_le : s.streakCnt ≤ t
  same : topkAfter heap a exact candidates M (t - s.streakCnt) =
    topkAfter heap a exact candidates M t

structure StoppedAfter (heap : TopKHeap δ) (a : RefineArgs) (exact : ℕ → δ)
    (candidates : List (Neighbor δ)) (M t : ℕ) (r : Refined δ) : Prop where
  refined : r.refined = min (t * a.B) M
  list : r.candidates = refinedTo exact candidates r.refined
  topkIds : r.topkIds = topkAfter heap a exact candidates M t
  streak_le : a.streak ≤ t
  same : topkAfter heap a exact candidates M (t - a.streak) =
    topkAfter heap a exact candidates M t

/-- Only the exit test stops the loop. -/
theorem refineLoop_dynamic (fuel : ℕ) {s : Refinement δ}
    (hstop : (refineLoop heap a exact M fuel s).stopped = true) :
    a.useDynamicEarlyExit = true := by
  by_contra hdyn
  induction fuel generalizing s with
  | zero => cases hstop
  | succ fuel ih =>
    rw [refineLoop] at hstop
    split_ifs at hstop with hlt
    exact ih hstop

theorem refineLoop_stopped (hM : M ≤ candidates.length) (fuel : ℕ) {s : Refinement δ}
    (h : StreakInv heap a exact candidates M t s)
    (hstop : (refineLoop heap a exact M fuel s).stopped = true) :
    ∃ t', StoppedAfter heap a exact candidates M t' (refineLoop heap a exact M fuel s) := by
  have hdyn := refineLoop_dynamic fuel hstop
  induction fuel generalizing s t with
  | zero => cases hstop
  | succ fuel ih =>
    rw [refineLoop] at hstop ⊢
    by_cases hlt : s.start < M
    · have hnext : s.start + min a.B (M - s.start) = min ((t + 1) * a.B) M := by
        rw [Nat.succ_mul, ← h.start]
        omega
      have hbatch : refineBatch exact s.start (min a.B (M - s.start)) s.candidates =
          refinedTo exact candidates (min ((t + 1) * a.B) M) := by
        rw [← hnext, h.list, ← h.start, min_eq_left hlt.le]
        exact refineBatch_refinedTo (by omega)
      have hstart : s.start + a.B = (t + 1) * a.B := by
        rw [h.start, Nat.succ_mul]
      simp only [if_pos hlt, if_pos hdyn, hbatch] at hstop ⊢
      by_cases hsame : computeTopkIds heap (refinedTo exact candidates (min ((t + 1) * a.B) M)) M
          a.kSearch = s.prevTopkIds
      · -- the streak goes on
        have hrun : topkAfter heap a exact candidates M (t + 1 - (s.streakCnt + 1)) =
            topkAfter heap a exact candidates M (t + 1) := by
          rw [Nat.add_sub_add_right, h.same, ← h.prev, ← hsame, topkAfter]
        rw [if_pos hsame] at hstop ⊢
        by_cases hend : a.streak ≤ s.streakCnt + 1
        · rw [if_pos hend] at hstop ⊢
          have hlen : s.streakCnt + 1 = a.streak := by
            have := h.streak_lt
            omega
          refine ⟨t + 1, hnext, ?_, rfl, ?_, ?_⟩
          · rw [hnext]
          · have := h.streak_le
            omega
          · rw [← hlen]
            exact hrun
        · rw [if_neg hend] at hstop ⊢
          have hle := h.streak_le
          exact ih ⟨hstart, rfl, rfl, Nat.lt_of_not_le hend, Nat.succ_le_succ hle, hrun⟩ hstop
      · -- the streak is broken
        rw [if_neg hsame] at hstop ⊢
        exact ih ⟨hstart, rfl, rfl, a.streak_pos, Nat.zero_le _, rfl⟩ hstop
    · rw [if_neg hlt] at hstop
      cases hstop

theorem refine_stopped (hstop : (refine heap a exact candidates).stopped = true) :
    ∃ t, StoppedAfter heap a exact candidates (a.refineNum candidates.length) t
      (refine heap a exact candidates) := by
  have hdyn := refineLoop_dynamic _ hstop
  unfold refine at hstop ⊢
  dsimp only at hstop ⊢
  rw [if_pos hdyn] at hstop ⊢
  refine refineLoop_stopped (a.refineNum_le _) _ (t := 0) ?_ hstop
  refine ⟨(Nat.zero_mul _).symm, ?_, ?_, a.streak_pos, le_rfl, rfl⟩
  · rw [Nat.zero_mul, Nat.zero_min, refinedTo_zero]
  · rw [topkAfter, Nat.zero_mul, Nat.zero_min, refinedTo_zero]

/-! ### Unrefined ids -/

/-- The candidates that the loop has not refined and whose ids it compared last. -/
def Refined.unrefined (r : Refined δ) (M : ℕ) : List (Neighbor δ) :=
  ((r.candidates.take M).drop r.refined).filter fun c => c.id ∈ r.topkIds

variable {r : Refined δ}

/-- The first `M` candidates at two batch boundaries: what is refined by the first one, what
the batches in between refine, and the rest. -/
theorem StoppedAfter.split (h : StoppedAfter heap a exact candidates M t r) {n : ℕ}
    (hn : n ≤ r.refined) : r.refined ≤ M ∧
      (refinedTo exact candidates n).take M =
        (candidates.take n).map (fun c => { c with distance := exact c.id }) ++
          ((candidates.drop n).take (r.refined - n) ++
            (candidates.drop r.refined).take (M - r.refined)) := by
  have hle : r.refined ≤ M := h.refined ▸ min_le_right _ _
  refine ⟨hle, ?_⟩
  have hsum : M - n = (r.refined - n) + (M - r.refined) := by omega
  rw [take_refinedTo (hn.trans hle), hsum, List.take_add, List.drop_drop, Nat.add_sub_cancel' hn]

theorem StoppedAfter.drop_eq (h : StoppedAfter heap a exact candidates M t r)
    (hM : M ≤ candidates.length) :
    (r.candidates.take M).drop r.refined = (candidates.drop r.refined).take (M - r.refined) := by
  obtain ⟨hle, hsplit⟩ := h.split le_rfl
  rw [h.list, hsplit, Nat.sub_self, List.take_zero, List.nil_append, List.drop_left']
  rw [List.length_map, List.length_take]
  omega

/-- The streak left the compared ids room for `k - streak * B` unrefined ones. -/
theorem StoppedAfter.length_unrefined_le (h : StoppedAfter heap a exact candidates M t r)
    (hM : M ≤ candidates.length) (hid : (candidates.map Neighbor.id).Nodup)
    (hsorted : candidates.Pairwise fun x y => x.distance ≤ y.distance) :
    (r.unrefined M).length ≤ a.kSearch - a.streak * a.B := by
  rw [Refined.unrefined, h.drop_eq hM]
  by_cases hall : M ≤ t * a.B
  · -- everything is refined
    have href : r.refined = M := h.refined.trans (min_eq_right hall)
    rw [href, Nat.sub_self, List.take_zero]
    exact Nat.zero_le _
  · have href : r.refined = t * a.B := h.refined.trans (min_eq_left (Nat.le_of_not_le hall))
    have hmul : (t - a.streak) * a.B + a.streak * a.B = t * a.B := by
      rw [← Nat.add_mul, Nat.sub_add_cancel h.streak_le]
    have hbefore : min ((t - a.streak) * a.B) M = (t - a.streak) * a.B := min_eq_left (by omega)
    obtain ⟨hle, hsplit⟩ := h.split (n := (t - a.streak) * a.B) (by omega)
    -- the candidates as they were when the streak began
    have hids : ((refinedTo exact candidates ((t - a.streak) * a.B)).map Neighbor.id).Nodup := by
      rwa [ids_refinedTo]
    have hnodes := nodup_nodes (hids.sublist ((List.take_sublist M _).map _))
    have hsame := h.same
    rw [topkAfter, hbefore, ← h.topkIds] at hsame
    set late := ((candidates.drop r.refined).take (M - r.refined)).filter
      (fun c => c.id ∈ r.topkIds) with hlate
    have hsel : late.map Neighbor.node ⊆ select heap (min a.kSearch M)
        (((refinedTo exact candidates ((t - a.streak) * a.B)).take M).map Neighbor.node) := by
      intro x hx
      obtain ⟨c, hc, rfl⟩ := List.mem_map.mp hx
      obtain ⟨hc, hmem⟩ := List.mem_filter.mp hc
      refine node_mem_select hids ?_ (hsame ▸ of_decide_eq_true hmem)
      rw [hsplit]
      exact List.mem_append_right _ (List.mem_append_right _ hc)
    have hnd : (late.map Neighbor.node).Nodup := by
      refine nodup_nodes (hid.sublist (List.Sublist.map _ ?_))
      exact List.filter_sublist.trans ((List.take_sublist _ _).trans (List.drop_sublist _ _))
    rw [hsplit, List.map_append, List.map_append] at hnodes hsel
    have hdist : (((candidates.drop ((t - a.streak) * a.B)).take
          (r.refined - (t - a.streak) * a.B)).map Neighbor.node ++
        ((candidates.drop r.refined).take (M - r.refined)).map Neighbor.node).Pairwise
          fun x y => x.d ≤ y.d := by
      have hdrop : candidates.drop r.refined = (candidates.drop ((t - a.streak) * a.B)).drop
          (r.refined - (t - a.streak) * a.B) := by
        rw [List.drop_drop]
        congr 1
        omega
      rw [← List.map_append, List.pairwise_map, hdrop, ← List.take_add]
      exact (hsorted.drop).take
    have hlen := length_tail_le hnodes hdist hnd (List.map_subset _ List.filter_sublist.subset) hsel
    rw [List.length_map, List.length_map, List.length_take, List.length_drop] at hlen
    omega

theorem StoppedAfter.distance_eq (h : StoppedAfter heap a exact candidates M t r)
    (hM : M ≤ candidates.length) {c : Neighbor δ} (hc : c ∈ r.candidates.take M)
    (hmem : c.id ∈ r.topkIds) (hnone : r.unrefined M = []) : c.distance = exact c.id := by
  obtain ⟨hle, hsplit⟩ := h.split le_rfl
  rw [Refined.unrefined, h.drop_eq hM, List.filter_eq_nil_iff] at hnone
  rw [h.list, hsplit, Nat.sub_self, List.take_zero, List.nil_append] at hc
  rcases List.mem_append.mp hc with hc | hc
  · obtain ⟨c', -, rfl⟩ := List.mem_map.mp hc
    rfl
  · exact absurd (decide_eq_true hmem) (hnone c hc)

/-- When the exit test stops the refinement, at most `k - streak * B` of the compared ids have
an approximate distance. Unless distances are equal the compared ids are the returned ones,
whose distances are then exact if `k` is at most `streak * B`. -/
theorem early_exit_bounds_unrefined [Neg δ] (heap : TopKHeap δ) (a : RefineArgs)
    (exact : ℕ → δ) (innerProduct : Bool) (candidates : List (Neighbor δ))
    (hid : (candidates.map Neighbor.id).Nodup)
    (hsorted : candidates.Pairwise fun x y => x.distance ≤ y.distance)
    (hstop : (refine heap a exact candidates).stopped = true) :
    let r := refine heap a exact candidates
    let M := a.refineNum candidates.length
    r.candidates = refinedTo exact candidates r.refined ∧
    (r.unrefined M).length ≤ a.kSearch - a.streak * a.B ∧
    (((r.candidates.take M).map Neighbor.distance).Nodup →
      ((results heap a exact innerProduct candidates).map Prod.fst).Perm r.topkIds ∧
      (a.kSearch ≤ a.streak * a.B → ∀ p ∈ results heap a exact innerProduct candidates,
        p.2 = if innerProduct then -exact p.1 else exact p.1)) := by
  dsimp only
  obtain ⟨t, h⟩ := refine_stopped hstop
  have hM := a.refineNum_le candidates.length
  have hbound := h.length_unrefined_le hM hid hsorted
  refine ⟨h.list, hbound, fun hdist => ?_⟩
  have hids : ((refine heap a exact candidates).candidates.map Neighbor.id).Nodup := by
    rwa [h.list, ids_refinedTo]
  have hperm := perm_computeTopkIds heap a.kSearch hids hdist
  have htopk : (refine heap a exact candidates).topkIds = computeTopkIds heap
      (refine heap a exact candidates).candidates (a.refineNum candidates.length) a.kSearch := by
    rw [h.topkIds, topkAfter, ← h.refined, ← h.list]
  rw [← htopk] at hperm
  constructor
  · rw [results, List.map_map]
    exact hperm
  · intro hk p hp
    have hnone := List.length_eq_zero_iff.mp (Nat.le_zero.mp (hbound.trans (by omega)))
    obtain ⟨c, hc, rfl⟩ := List.mem_map.mp hp
    have hcM : c ∈ (refine heap a exact candidates).candidates.take
        (a.refineNum candidates.length) :=
      (List.perm_insertionSort _ _).mem_iff.mp (List.mem_of_mem_take hc)
    have hmem : c.id ∈ (refine heap a exact candidates).topkIds :=
      hperm.mem_iff.mp (List.mem_map_of_mem hc)
    rw [h.distance_eq hM hcM hmem hnone]

/-- The nearest two of four candidates, refined one by one until they stay for two batches. -/
def nearestTwo : RefineArgs where
  kSearch := 2
  lSearch := 4
  refineTotal := false
  earlyExitStreak := 2
  fixedRefineCount := 0
  fixedRefineRatio := 0
  ceilMul _ _ := 0
  B := 1
  B_pos := Nat.one_pos

/-- Four candidates at approximate distances `2, 4, 6, 8`. -/
def fourCandidates : List (Neighbor ℤ) :=
  [⟨3, 2, true⟩, ⟨1, 4, true⟩, ⟨0, 6, true⟩, ⟨2, 8, true⟩]

def exactly (v : ℕ) : ℤ := v

/-- The exact distances `3, 1` of the first two settle it. -/
theorem two_of_four_exact :
    (refine (decreasingHeap TopKNode.d) nearestTwo exactly fourCandidates).refined = 2 ∧
    ∀ p ∈ results (decreasingHeap TopKNode.d) nearestTwo exactly false fourCandidates,
      p.2 = exactly p.1 := by
  have hstop : (refine (decreasingHeap TopKNode.d) nearestTwo exactly fourCandidates).stopped =
      true := by decide
  have hdist : (((refine (decreasingHeap TopKNode.d) nearestTwo exactly fourCandidates).candidates.take
      (nearestTwo.refineNum fourCandidates.length)).map Neighbor.distance).Nodup := by decide
  have h := early_exit_bounds_unrefined (decreasingHeap TopKNode.d) nearestTwo exactly false
    fourCandidates (by decide) (by decide) hstop
  exact ⟨by decide, (h.2.2 hdist).2 (by decide)⟩

end HiDANN.Search
