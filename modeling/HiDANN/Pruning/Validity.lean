import HiDANN.Library.Bytes
import HiDANN.Pruning.Distance
import HiDANN.Pruning.Prune
import Mathlib.Algebra.BigOperators.Group.List.Basic

/-! When the adjacency list of a node is valid: distinct ids of other nodes, as
many as there are up to `R`. The filling phase passes over what has been taken;
the occlusion phase relies on a taken id occluding its own copies, which counts
once, so that for `T` above 1 a copy can be taken as well. -/

namespace HiDANN.Pruning

open Selection

structure ValidAdjacency (N R g : ℕ) (cand out : List ℕ) : Prop where
  nodup : out.Nodup
  not_self : g ∉ out
  lt : ∀ v ∈ out, v < N
  length : out.length = min R (valid N g cand).toFinset.card

instance (N R g : ℕ) (cand out : List ℕ) : Decidable (ValidAdjacency N R g cand out) :=
  decidable_of_iff (out.Nodup ∧ g ∉ out ∧ (∀ v ∈ out, v < N) ∧
    out.length = min R (valid N g cand).toFinset.card)
    ⟨fun ⟨h1, h2, h3, h4⟩ => ⟨h1, h2, h3, h4⟩, fun h => ⟨h.nodup, h.not_self, h.lt, h.length⟩⟩

variable {δ : Type*} [LinearOrder δ] (dist : ℕ → ℕ → δ)

def candidates (N g : ℕ) (cand : List ℕ) : List ℕ := nearest dist g (valid N g cand).dedup

def selection (a : Args) (g : ℕ) (ids : List ℕ) : List ℕ :=
  select a.R (Unoccluded dist a g) [] ids

/-- A candidate that comes more than once finds no second place among the
selected nearer candidates, or is occluded by all but one of the `T` it takes. -/
def RepeatsBlocked (N : ℕ) (a : Args) (g : ℕ) (cand : List ℕ) : Prop :=
  ∀ near v far, candidates dist N g cand = near ++ v :: far → 1 < cand.count v →
    a.R ≤ (selection dist a g near).length + 1 ∨
      a.threshold ≤ occluders dist g (selection dist a g near) v + 1

section

variable {N g : ℕ} {a : Args} {cand : List ℕ}

/-- The sorted candidates are runs of the distinct ones. -/
theorem nearest_eq_runs : nearest dist g (valid N g cand) =
    (candidates dist N g cand).flatMap fun v => List.replicate ((valid N g cand).count v) v := by
  have hnd : (candidates dist N g cand).Nodup :=
    (nearest_perm dist g _).nodup_iff.mpr (List.nodup_dedup _)
  refine eq_of_perm_of_pairwise dist ?_ (nearest_pairwise dist g _) ?_
  · refine (nearest_perm dist g _).trans (List.perm_iff_count.mpr fun w => ?_)
    rw [List.count_flatMap]
    by_cases hw : w ∈ valid N g cand
    · have hmem : w ∈ candidates dist N g cand :=
        (nearest_perm dist g _).mem_iff.mpr (List.mem_dedup.mpr hw)
      have hsum := List.sum_map_eq_nsmul_single (l := candidates dist N g cand) w
        (List.count w ∘ fun v => List.replicate ((valid N g cand).count v) v)
        (fun v hv _ => by simp [List.count_replicate, hv])
      rw [hsum, List.count_eq_one_of_mem hnd hmem]
      simp
    · rw [List.count_eq_zero_of_not_mem hw, List.sum_eq_zero]
      intro n hn
      obtain ⟨v, hv, rfl⟩ := List.mem_map.mp hn
      have hne : v ≠ w := by
        rintro rfl
        exact hw (List.mem_dedup.mp ((nearest_perm dist g _).mem_iff.mp hv))
      simp [List.count_replicate, hne]
  · rw [List.pairwise_flatMap]
    refine ⟨fun v _ => List.pairwise_replicate.mpr (.inr le_rfl), ?_⟩
    refine (nearest_pairwise dist g _).imp fun {v w} hvw x hx y hy => ?_
    rwa [List.eq_of_mem_replicate hx, List.eq_of_mem_replicate hy]

theorem count_valid {v : ℕ} (hv : v ∈ valid N g cand) :
    (valid N g cand).count v = cand.count v := by
  rw [valid, List.count_filter]
  exact (List.mem_filter.mp hv).2

/-- A taken id lies no farther from its copy than any node does. -/
theorem again_iff (hself : ∀ u v, dist v v ≤ dist u v) (S : List ℕ) (v : ℕ) :
    Again a.R (Unoccluded dist a g) S v ↔
      ¬ (a.R ≤ S.length + 1 ∨ a.threshold ≤ occluders dist g S v + 1) := by
  have hcopy : occluders dist g (S ++ [v]) v = occluders dist g S v + 1 := by
    rw [occluders, List.countP_append, List.countP_singleton,
      if_pos (decide_eq_true (hself g v)), ← occluders]
  rw [Again, Unoccluded, Unoccluded, hcopy]
  push_cast
  omega

theorem nodup_taken_iff (hself : ∀ u v, dist v v ≤ dist u v) :
    (taken dist N a g cand).Nodup ↔ RepeatsBlocked dist N a g cand := by
  have hnd : (candidates dist N g cand).Nodup :=
    (nearest_perm dist g _).nodup_iff.mpr (List.nodup_dedup _)
  have hmem : ∀ v ∈ candidates dist N g cand, v ∈ valid N g cand := fun v hv =>
    List.mem_dedup.mp ((nearest_perm dist g _).mem_iff.mp hv)
  rw [taken, nearest_eq_runs, nodup_select_runs
    (fun v hv => List.count_pos_iff.mpr (hmem v hv)) hnd List.nodup_nil (by simp)]
  refine forall_congr' fun near => forall_congr' fun v => forall_congr' fun far => ?_
  refine forall_congr' fun he => ?_
  rw [count_valid (hmem v (by simp [he])), again_iff dist hself, not_not]
  rfl

theorem validAdjacency_iff_nodup (hg : g < 2 ^ 32) :
    ValidAdjacency N a.R g cand (prune dist N a g cand) ↔ (taken dist N a g cand).Nodup := by
  have hsub : (taken dist N a g cand).Sublist (prune dist N a g cand) := by
    rw [prune_eq dist a hg]
    exact sublist_select _ _ _ _
  constructor
  · exact fun h => h.nodup.sublist hsub
  · intro h
    have hval : ∀ v ∈ prune dist N a g cand, v < N ∧ v ≠ g := fun v hv => by
      simpa using (List.mem_filter.mp (mem_prune dist hg hv)).2
    refine ⟨?_, fun hmem => (hval g hmem).2 rfl, fun v hv => (hval v hv).1, ?_⟩
    · rw [prune_eq dist a hg]
      exact nodup_selectNew h _
    · rw [prune_eq dist a hg,
        length_selectNew h (length_select_le _ _ (Nat.zero_le _) _)]
      congr 2
      ext v
      rw [List.mem_toFinset, List.mem_toFinset, List.mem_append,
        (nearest_perm dist g _).mem_iff]
      constructor
      · rintro (hv | hv)
        · exact mem_prune dist hg (hsub.mem hv)
        · exact hv
      · exact .inr

end

/-! ### The quantized distances -/

/-- The adjacency list of a node is valid exactly when every candidate that comes
more than once is blocked by the distinct candidates nearer to the node. -/
theorem validAdjacency_iff {ν ε : Type*} [LinearOrder ε] (pq : PQSymL2 ν δ ε) (a : Args) {g : ℕ}
    (hg : g < pq.N) (cand : List ℕ) :
    ValidAdjacency pq.N a.R g cand (prune pq.dist pq.N a g cand) ↔
      RepeatsBlocked pq.dist pq.N a g cand := by
  rw [validAdjacency_iff_nodup pq.dist (hg.trans pq.N_lt), nodup_taken_iff pq.dist pq.dist_self_le]

/-- With `T = 1` a taken id occludes its copies. -/
theorem repeatsBlocked_of_T_le (N : ℕ) {a : Args} (ha : a.T ≤ 1) (g : ℕ) (cand : List ℕ) :
    RepeatsBlocked dist N a g cand := by
  intro near v far _ _
  refine .inr ?_
  rw [Args.threshold_eq (ha.trans_lt (by norm_num))]
  omega

def oneOccluder : Args := ⟨2, 1, Bytes.two_lt_word, Bytes.one_lt_word⟩

/-- The row of a mutual edge names the other end twice; the first copy occludes the second. -/
theorem validAdjacency_mutual : prune twoOnLine.dist 2 oneOccluder 0 [1, 1] = [1] ∧
    ValidAdjacency 2 2 0 [1, 1] (prune twoOnLine.dist 2 oneOccluder 0 [1, 1]) :=
  ⟨by decide, (validAdjacency_iff twoOnLine oneOccluder (g := 0) (by decide) [1, 1]).mpr
    (repeatsBlocked_of_T_le _ _ le_rfl 0 [1, 1])⟩

def twoByTwo : Args := ⟨2, 2, Bytes.two_lt_word, Bytes.two_lt_word⟩

/-- One occluder is not enough, and both copies are taken. -/
theorem not_validAdjacency_mutual :
    ¬ ValidAdjacency 2 2 0 [1, 1] (prune twoOnLine.dist 2 twoByTwo 0 [1, 1]) := by
  decide

end HiDANN.Pruning
