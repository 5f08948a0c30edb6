import HiDANN.Construction.RobustPrune
import HiDANN.Memory.OccludeList

/-! With `alpha` below 1.2, as the partitions are built, `occlude_list` goes through the pool
once and selects greedily. The prune of a candidate pool across two partitions,
`occlude_list_ptr`, selects the same ids, except that it also drops a candidate that is
exactly as far from a kept one as from the location. -/

namespace HiDANN.Memory

open Construction Search Selection

variable {K : Type*} [Field K] [LinearOrder K] [IsStrictOrderedRing K]

namespace PruneArgs

variable {A : PruneArgs K}

/-- Before an entry is tried, its factor is above 1 exactly when a taken entry occludes it. -/
theorem FactorOk.all_iff (halpha : 1 ≤ A.alpha) {taken : List (Neighbor K)} {c : Neighbor K}
    {f : Option K} (h : A.FactorOk taken c f) (hnear : ∀ u ∈ taken, u.key < c.key) :
    (f.all fun x => 1 < x) = true ↔ ∃ u ∈ taken, A.Occludes 1 u c := by
  cases f with
  | none =>
    refine iff_of_true rfl ?_
    rcases h with hmem | ⟨u, hu, -, hzero⟩
    · exact absurd (hnear c hmem) (lt_irrefl _)
    · exact ⟨u, hu, .inl hzero⟩
  | some x =>
    obtain ⟨-, hle, hmax⟩ := h
    rw [Option.all_some, decide_eq_true_eq]
    constructor
    · intro hx
      rcases hmax with rfl | ⟨u, hu, -, rfl⟩
      · exact absurd hx (not_lt.mpr zero_le_one)
      · exact ⟨u, hu, .inr hx⟩
    · rintro ⟨u, hu, hocc⟩
      by_contra hx
      have hx : x ≤ 1 := not_lt.mp hx
      have := hle (hx.trans halpha) u hu (hnear u hu)
      rw [Occludes, not_or, not_lt] at this
      rcases hocc with hzero | hlt
      · exact this.1 hzero
      · exact absurd (this.2.trans hx) (not_le.mpr hlt)

/-- An entry that is taken after those in `S`. -/
def Clear (A : PruneArgs K) (S : List (Neighbor K)) (c : Neighbor K) : Prop :=
  ∀ u ∈ S, ¬ A.Occludes 1 u c

instance (A : PruneArgs K) (S : List (Neighbor K)) (c : Neighbor K) : Decidable (A.Clear S c) :=
  inferInstanceAs (Decidable (∀ u ∈ S, ¬ (_ ∨ _)))

/-- An entry that is not the location and has not been deleted. -/
def Live (A : PruneArgs K) (u : Neighbor K) : Prop := u.id ∉ A.deleteSet ∧ u.id ≠ A.location

/-- A round with `cur_alpha = 1` selects greedily. -/
theorem occludeRound_one (hmetric : A.metric ≠ .innerProduct) (halpha : 1 ≤ A.alpha)
    {pool taken : List (Neighbor K)} {factors : List (Option K)}
    (hsorted : pool.Pairwise fun u c => u.key < c.key)
    (hnear : ∀ u ∈ taken, ∀ c ∈ pool, u.key < c.key) (hlive : ∀ u ∈ taken, A.Live u)
    (hpool : ∀ c ∈ pool, A.Live c) (h : List.Forall₂ (A.FactorOk taken) pool factors) :
    (A.occludeRound 1 pool factors (taken.map Neighbor.id)).2 =
      (select A.degree A.Clear taken pool).map Neighbor.id := by
  induction pool generalizing taken factors with
  | nil =>
    cases h
    rfl
  | cons c pool ih =>
    obtain ⟨hfirst, hsorted⟩ := List.pairwise_cons.mp hsorted
    obtain ⟨hc, hpool⟩ := List.forall_mem_cons.mp hpool
    have hbehind : ∀ u ∈ taken, ∀ d ∈ pool, u.key < d.key :=
      fun u hu d hd => hnear u hu d (List.mem_cons_of_mem _ hd)
    cases h with
    | cons hf hrest =>
      rename_i f factors
      have hiff := hf.all_iff halpha fun u hu => hnear u hu c List.mem_cons_self
      rw [occludeRound, List.length_map, select_cons, Selection.step]
      by_cases hdeg : A.degree ≤ taken.length
      · rw [if_pos hdeg, if_neg fun h => absurd h.1 (not_lt.mpr hdeg), select_full _ _ hdeg]
      rw [if_neg hdeg]
      by_cases hskip : f.all fun x => 1 < x
      · have hocc : ¬ A.Clear taken c := by
          obtain ⟨u, hu, hocc⟩ := hiff.mp hskip
          exact fun hclear => hclear u hu hocc
        rw [if_pos hskip, if_neg fun h => hocc h.2]
        exact ih hsorted hbehind hlive hpool hrest
      · have hclear : A.Clear taken c := fun u hu hocc => hskip (hiff.mpr ⟨u, hu, hocc⟩)
        have hpush : A.push c (taken.map Neighbor.id) = (taken ++ [c]).map Neighbor.id := by
          rw [push, if_pos (show c.id ∉ A.deleteSet ∧ c.id ≠ A.location from hc), List.map_append]
          rfl
        rw [if_neg hskip, if_pos ⟨not_le.mp hdeg, hclear⟩, hpush]
        refine ih hsorted (fun u hu d hd => ?_) (fun u hu => ?_) hpool
          (A.forall₂_raise hmetric 1 hfirst hrest)
        · rcases List.mem_append.mp hu with hu | hu
          · exact hbehind u hu d hd
          · rw [List.mem_singleton.mp hu]
            exact hfirst d hd
        · rcases List.mem_append.mp hu with hu | hu
          · exact hlive u hu
          · rwa [List.mem_singleton.mp hu]

omit [IsStrictOrderedRing K] in
theorem forall₂_start (cut : List (Neighbor K)) :
    List.Forall₂ (A.FactorOk []) cut (List.replicate cut.length (some 0)) := by
  rw [List.forall₂_iff_get]
  refine ⟨List.length_replicate.symm, fun i hi hi' => ?_⟩
  rw [List.get_eq_getElem, List.get_eq_getElem, List.getElem_replicate]
  exact ⟨List.not_mem_nil, fun _ u hu => absurd hu List.not_mem_nil, .inl rfl⟩

theorem occludeList_eq_select (hmetric : A.metric ≠ .innerProduct) (halpha : 1 ≤ A.alpha)
    (hlast : A.alpha < growth) {pool : List (Neighbor K)}
    (hsorted : pool.Pairwise fun u c => u.key < c.key) (hlive : ∀ c ∈ pool, A.Live c) {fuel : ℕ}
    (hfuel : 2 ≤ fuel) :
    A.occludeList fuel pool =
      some ((select A.degree A.Clear [] (pool.take A.maxc)).map Neighbor.id) := by
  obtain ⟨fuel, rfl⟩ := Nat.exists_eq_add_of_le' hfuel
  have hcut : (pool.take A.maxc).Sublist pool := List.take_sublist _ _
  have hround := occludeRound_one hmetric halpha (hsorted.sublist hcut)
    (fun u (hu : u ∈ []) => absurd hu List.not_mem_nil) (fun u hu => absurd hu List.not_mem_nil)
    (fun c hc => hlive c (hcut.mem hc)) (forall₂_start _)
  have hstop : ∀ result, ¬ ((1 : K) * growth ≤ A.alpha ∧ result < A.degree) := by
    rw [one_mul]
    exact fun _ h => absurd h.1 (not_le.mpr hlast)
  rw [occludeList]
  split_ifs with hpool
  · rw [hpool, List.take_nil]
    rfl
  · dsimp only
    rw [occludeRounds]
    split_ifs with hgo
    · rw [occludeRounds, if_neg (hstop _), ← hround]
      rfl
    · have hdeg : A.degree = 0 := by
        by_contra hdeg
        exact hgo ⟨halpha, Nat.pos_of_ne_zero hdeg⟩
      rw [select_full _ _ (by rw [hdeg]; exact Nat.zero_le _)]
      rfl

end PruneArgs

/-! ### The prune across two partitions -/

/-- The pool entry of `occlude_list_ptr`. -/
def toCN (u : Neighbor K) : CN K := ⟨u.id, u.distance⟩

theorem unitLaws : UnitLaws K where
  one_mul := one_mul
  zero_le_one := zero_le_one
  div_le_one _ _ hx hlt := (div_le_one (hx.trans_lt hlt)).mpr hlt.le

omit [Field K] [IsStrictOrderedRing K] in
theorem map_toCN_sortPool (pool : List (Neighbor K)) :
    (PruneArgs.sortPool pool).map toCN = Construction.sortPool (pool.map toCN) :=
  List.map_insertionSort _ _ _ _ fun _ _ _ _ => Iff.rfl

section Agree

variable {ν : Type*} {A : PruneArgs K} {acc : PairAccessor ν K} {pool : List (Neighbor K)}
  (hget : ∀ c ∈ pool, (acc.get c.id).isSome)
  (hl2 : ∀ u c pu pc, acc.get u = some pu → acc.get c = some pc →
    acc.l2sqr pu pc = A.getDistance c u)

include hget hl2

/-- Away from ties both prunes let the same entries through. -/
theorem keeps_iff_clear (hloc : A.location ∉ pool.map Neighbor.id)
    (hdist : ∀ u v, 0 ≤ A.getDistance u v) (hself : ∀ v, A.getDistance v v = 0)
    (hpos : ∀ c ∈ pool, 0 ≤ c.distance)
    (htie : ∀ u ∈ pool, ∀ c ∈ pool, u.id ≠ c.id → A.getDistance c.id u.id ≠ c.distance)
    {S : List (Neighbor K)} (hS : ∀ u ∈ S, u ∈ pool) {c : Neighbor K} (hc : c ∈ pool) :
    Keeps acc A.location (S.map toCN) (toCN c) ↔ A.Clear S c := by
  have hiff : ∀ u ∈ S, acc.occludes u.id (toCN c) = true ↔ A.Occludes 1 u c := by
    intro u hu
    obtain ⟨pu, hpu⟩ := Option.isSome_iff_exists.mp (hget u (hS u hu))
    obtain ⟨pc, hpc⟩ := Option.isSome_iff_exists.mp (hget c hc)
    have hle : acc.occludes u.id (toCN c) = true ↔ A.getDistance c.id u.id ≤ c.distance := by
      rw [acc.occludes_iff, ← hl2 _ _ _ _ hpu hpc]
      constructor
      · rintro ⟨pu', pc', hpu', hpc', hle⟩
        rw [hpu] at hpu'
        rw [show acc.get (toCN c).id = acc.get c.id from rfl, hpc] at hpc'
        cases hpu'
        cases hpc'
        exact hle
      · exact fun hle => ⟨pu, pc, hpu, hpc, hle⟩
    rw [hle, PruneArgs.Occludes]
    by_cases hzero : A.getDistance c.id u.id = 0
    · rw [hzero]
      exact iff_of_true (hpos c hc) (.inl rfl)
    · have hlt : 0 < A.getDistance c.id u.id := lt_of_le_of_ne (hdist _ _) (Ne.symm hzero)
      have hne : u.id ≠ c.id := fun h => hzero (by rw [h, hself])
      rw [one_lt_div hlt, or_iff_right hzero]
      exact ⟨fun h => lt_of_le_of_ne h (htie u (hS u hu) c hc hne), le_of_lt⟩
  have hne : c.id ≠ A.location := fun h => hloc (h ▸ List.mem_map_of_mem hc)
  constructor
  · intro h u hu hocc
    have := h.2.2 (toCN u) (List.mem_map_of_mem hu)
    rw [show (toCN u).id = u.id from rfl, (hiff u hu).mpr hocc] at this
    cases this
  · intro h
    refine ⟨hne, hget c hc, fun v hv => ?_⟩
    obtain ⟨u, hu, rfl⟩ := List.mem_map.mp hv
    exact Bool.eq_false_iff.mpr fun hocc => h u hu ((hiff u hu).mp hocc)

/-- Away from ties `prune_neighbors` and `occlude_list_ptr` return the same list. -/
theorem pruneNeighbors_eq_occludeListPtr (hmetric : A.metric ≠ .innerProduct)
    (halpha : 1 ≤ A.alpha) (hlast : A.alpha < PruneArgs.growth) (hdel : A.deleteSet = ∅)
    (hpq : A.pqDist = false) (hsat : A.saturateGraph = false) (hmaxc : pool.length ≤ A.maxc)
    (hids : (pool.map Neighbor.id).Nodup) (hloc : A.location ∉ pool.map Neighbor.id)
    (hdist : ∀ u v, 0 ≤ A.getDistance u v) (hself : ∀ v, A.getDistance v v = 0)
    (hpos : ∀ c ∈ pool, 0 ≤ c.distance)
    (htie : ∀ u ∈ pool, ∀ c ∈ pool, u.id ≠ c.id → A.getDistance c.id u.id ≠ c.distance)
    {fuel : ℕ} (hfuel : 2 ≤ fuel) :
    A.pruneNeighbors fuel pool =
      some (occludeListPtr acc A.location (pool.map toCN) A.degree) := by
  have hperm := PruneArgs.sortPool_perm pool
  have hmem : ∀ c ∈ PruneArgs.sortPool pool, c ∈ pool := fun c hc => hperm.mem_iff.mp hc
  have hlive : ∀ c ∈ PruneArgs.sortPool pool, A.Live c := by
    intro c hc
    refine ⟨by simp [hdel], fun h => hloc ?_⟩
    exact h ▸ List.mem_map_of_mem (hmem c hc)
  have hrun : A.pruneNeighbors fuel pool =
      some ((select A.degree A.Clear [] (PruneArgs.sortPool pool)).map Neighbor.id) := by
    have hlist := PruneArgs.occludeList_eq_select hmetric halpha hlast
      (PruneArgs.sortPool_sorted hids) hlive hfuel
    rw [List.take_of_length_le (hperm.length_eq.trans_le hmaxc)] at hlist
    have hexact : A.exactDistances pool = pool := by
      rw [PruneArgs.exactDistances, hpq]
      exact if_neg Bool.false_ne_true
    have hnot : ¬ (A.saturateGraph = true ∧ 1 < A.alpha) := by
      rw [hsat]
      exact fun h => Bool.false_ne_true h.1
    rw [PruneArgs.pruneNeighbors, hexact]
    by_cases hpool : pool = []
    · rw [if_pos hpool, hpool]
      rfl
    · rw [if_neg hpool]
      dsimp only
      rw [hlist]
      exact if_neg hnot
  have hpos' : ∀ d ∈ pool.map toCN, 0 ≤ d.distance := by
    intro d hd
    obtain ⟨c, hc, rfl⟩ := List.mem_map.mp hd
    exact hpos c hc
  have hptr := occludeListPtr_eq unitLaws acc A.location A.degree hpos'
  have hmap : select A.degree (Keeps acc A.location) [] ((PruneArgs.sortPool pool).map toCN) =
      (select A.degree A.Clear [] (PruneArgs.sortPool pool)).map toCN :=
    select_map A.degree A.Clear toCN (S := [])
      (fun S v hS hv => keeps_iff_clear hget hl2 hloc hdist hself hpos htie hS hv) (by simp) hmem
  rw [hrun, hptr, robustPrune, ← map_toCN_sortPool, hmap, List.map_map]
  rfl

end Agree

/-- Points at 0, 1 and 3 of a line, as the partitions prune. -/
def onThree : PruneArgs ℚ where
  metric := .l2
  getDistance u v := ((u : ℚ) - v) ^ 2
  location := 0
  alpha := 1
  degree := 2
  maxc := 750
  deleteSet := ∅
  saturateGraph := false
  pqDist := false

theorem onThree_agree : onThree.pruneNeighbors 2 [⟨3, 9, false⟩, ⟨1, 1, false⟩] = some [1] ∧
    occludeListPtr ⟨fun v => some (v : ℚ), fun u v => (v - u) ^ 2, 1⟩ 0
      ([⟨3, 9, false⟩, ⟨1, 1, false⟩].map toCN) 2 = [1] := by
  have hprune : onThree.pruneNeighbors 2 [⟨3, 9, false⟩, ⟨1, 1, false⟩] = some [1] := by
    decide +kernel
  have hagree : onThree.pruneNeighbors 2 [⟨3, 9, false⟩, ⟨1, 1, false⟩] =
      some (occludeListPtr ⟨fun v => some (v : ℚ), fun u v => (v - u) ^ 2, 1⟩ 0
        ([⟨3, 9, false⟩, ⟨1, 1, false⟩].map toCN) 2) :=
    pruneNeighbors_eq_occludeListPtr (A := onThree) (fun _ _ => rfl)
      (fun u c pu pc hu hc => by cases hu; cases hc; rfl) (by decide) (by norm_num [onThree])
      (by norm_num [onThree, PruneArgs.growth]) rfl rfl rfl (by decide) (by decide) (by decide)
      (fun _ _ => sq_nonneg _) (fun v => by simp [onThree]) (by simp)
      (by simp [onThree]; norm_num) le_rfl
  exact ⟨hprune, (Option.some.inj (hprune.symm.trans hagree)).symm⟩

end HiDANN.Memory
