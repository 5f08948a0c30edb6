import HiDANN.Pruning.Prune
import Mathlib.Data.Nat.Dist

/-! The pruning of a node against its description: going through the candidates by
(distance, id), one is selected unless `T` of those selected occlude it, and places
that are left over are filled in the same order. The code compares with `T` as a
signed number. From `2 ^ 31` on that number is negative, the code selects nothing in
the first phase, and its list is the nearest candidates; this is what the description
gives as long as what it selects comes first in the order. -/

namespace HiDANN.Pruning

open Selection

variable {δ : Type*} [LinearOrder δ] (dist : ℕ → ℕ → δ)

/-- Fewer than `T` selected ids occlude a candidate. -/
def Admitted (T g : ℕ) (S : List ℕ) (v : ℕ) : Prop := occluders dist g S v < T

instance (T g : ℕ) (S : List ℕ) (v : ℕ) : Decidable (Admitted dist T g S v) :=
  inferInstanceAs (Decidable (occluders dist g S v < T))

/-- What the description selects in the first phase. -/
def selected (N : ℕ) (a : Args) (g : ℕ) (cand : List ℕ) : List ℕ :=
  select a.R (Admitted dist a.T g) [] (nearest dist g (valid N g cand))

def greedyList (N : ℕ) (a : Args) (g : ℕ) (cand : List ℕ) : List ℕ :=
  let sel := selected dist N a g cand
  sel ++ ((nearest dist g (valid N g cand)).filter (· ∉ sel)).take (a.R - sel.length)

/-- The list of a node is the described one, in whatever order its candidates come,
and is the nearest candidates when `T` is at least `R`. -/
structure PrunesGreedily (N : ℕ) (a : Args) (g : ℕ) (cand : List ℕ) : Prop where
  list : prune dist N a g cand = greedyList dist N a g cand
  order : ∀ cand' : List ℕ, cand'.Perm cand →
    prune dist N a g cand' = greedyList dist N a g cand
  unoccluded : a.R ≤ a.T →
    prune dist N a g cand = (nearest dist g (valid N g cand)).take a.R

/-- When a candidate is occluded by `T` of those before it, which leave a place, so is
every candidate after it. -/
def OccludedFromThere (N : ℕ) (a : Args) (g : ℕ) (cand : List ℕ) : Prop :=
  ∀ near v far, nearest dist g (valid N g cand) = near ++ v :: far → near.length < a.R →
    a.T ≤ occluders dist g near v → ∀ w ∈ far, a.T ≤ occluders dist g near w

/-! ### The described list -/

theorem nearest_nodup (N g : ℕ) {cand : List ℕ} (h : cand.Nodup) :
    (nearest dist g (valid N g cand)).Nodup :=
  (nearest_perm dist g _).nodup_iff.mpr (h.filter _)

theorem occluders_append (g : ℕ) (S S' : List ℕ) (v : ℕ) :
    occluders dist g (S ++ S') v = occluders dist g S v + occluders dist g S' v :=
  List.countP_append

theorem greedyList_eq {N : ℕ} (a : Args) {g : ℕ} {cand : List ℕ} (h : cand.Nodup) :
    greedyList dist N a g cand =
      selectNew a.R (selected dist N a g cand) (nearest dist g (valid N g cand)) :=
  (selectNew_eq_append (nearest_nodup dist N g h) _).symm

theorem selectNew_nil_eq_take {l : List ℕ} (h : l.Nodup) (R : ℕ) : selectNew R [] l = l.take R := by
  rw [selectNew_eq_append h]
  simp

theorem selectNew_take {l : List ℕ} (h : l.Nodup) {R k : ℕ} (hk : (l.take k).length ≤ R) :
    selectNew R (l.take k) l = l.take R := by
  have hdrop : l.filter (· ∉ l.take k) = l.drop k := by
    conv_lhs => rw [← List.take_append_drop k l, List.filter_append, List.take_append_drop]
    rw [List.filter_eq_nil_iff.mpr, List.nil_append, List.filter_eq_self.mpr]
    · intro v hv
      exact decide_eq_true fun ht => (List.disjoint_take_drop h le_rfl) ht hv
    · intro v hv
      simpa using hv
  rw [selectNew_eq_append h, hdrop]
  rcases Nat.le_total k l.length with hle | hle
  · rw [List.length_take, Nat.min_eq_left hle] at hk ⊢
    conv_rhs => rw [← Nat.add_sub_cancel' hk, List.take_add]
  · rw [List.length_take, Nat.min_eq_right hle] at hk
    rw [List.drop_eq_nil_of_le hle, List.take_nil, List.append_nil, List.take_of_length_le hle,
      List.take_of_length_le hk]

theorem admitted_of_append (T g : ℕ) (S S' : List ℕ) (v : ℕ)
    (h : Admitted dist T g (S ++ S') v) : Admitted dist T g S v := by
  rw [Admitted, occluders_append] at h
  exact (Nat.le_add_right _ _).trans_lt h

theorem selected_eq_take_iff (N : ℕ) (a : Args) (g : ℕ) (cand : List ℕ) :
    (∃ k, selected dist N a g cand = (nearest dist g (valid N g cand)).take k) ↔
      OccludedFromThere dist N a g cand := by
  have h := select_eq_take_iff a.R (admitted_of_append dist a.T g) []
    (nearest dist g (valid N g cand))
  simpa [selected, Admitted, OccludedFromThere] using h

theorem greedyList_eq_take_iff {N : ℕ} (a : Args) (g : ℕ) {cand : List ℕ} (h : cand.Nodup) :
    greedyList dist N a g cand = (nearest dist g (valid N g cand)).take a.R ↔
      OccludedFromThere dist N a g cand := by
  have hnd := nearest_nodup dist N g h
  rw [← selected_eq_take_iff]
  constructor
  · intro he
    have hpre : selected dist N a g cand <+: (nearest dist g (valid N g cand)).take a.R := by
      rw [← he]
      exact List.prefix_append _ _
    exact ⟨_, List.prefix_iff_eq_take.mp (hpre.trans (List.take_prefix _ _))⟩
  · rintro ⟨k, hk⟩
    have hlen : (selected dist N a g cand).length ≤ a.R :=
      length_select_le a.R _ (Nat.zero_le _) _
    rw [greedyList_eq dist a h, hk]
    rw [hk] at hlen
    exact selectNew_take hnd hlen

theorem occludedFromThere_of_le {N : ℕ} {a : Args} {g : ℕ} {cand : List ℕ} (hT : a.R ≤ a.T) :
    OccludedFromThere dist N a g cand := by
  intro near v far _ hlt hv
  have hcount : occluders dist g near v ≤ near.length := List.countP_le_length
  omega

/-! ### The code -/

/-- Below `2 ^ 31` the code selects what is described. -/
theorem taken_eq_selected {N : ℕ} {a : Args} {g : ℕ} {cand : List ℕ} (hT : a.T < 2 ^ 31) :
    taken dist N a g cand = selected dist N a g cand := by
  refine select_congr _ _ (fun S v => ?_) _ _
  rw [Unoccluded, Admitted, Args.threshold_eq hT, Int.ofNat_lt]

theorem bmod_neg {T : ℕ} (hlt : T < 2 ^ 32) (hT : 2 ^ 31 ≤ T) : (T : ℤ).bmod (2 ^ 32) < 0 := by
  rw [Int.bmod_def, if_neg] <;> omega

/-- From there on the threshold is negative and nothing is selected. -/
theorem taken_eq_nil {N : ℕ} {a : Args} {g : ℕ} {cand : List ℕ} (hT : 2 ^ 31 ≤ a.T) :
    taken dist N a g cand = [] := by
  have hneg : a.threshold < 0 := bmod_neg a.T_lt hT
  rw [taken]
  refine select_eq_self a.R fun v _ => ?_
  rw [Unoccluded]
  omega

/-- The code's list is the described one when `T` keeps its sign, or else when the
described list is the nearest candidates. -/
theorem prune_eq_greedyList_iff {N : ℕ} (a : Args) {g : ℕ} (hg : g < 2 ^ 32) {cand : List ℕ}
    (h : cand.Nodup) : prune dist N a g cand = greedyList dist N a g cand ↔
      a.T < 2 ^ 31 ∨ OccludedFromThere dist N a g cand := by
  rcases Nat.lt_or_ge a.T (2 ^ 31) with hT | hT
  · rw [prune_eq dist a hg, taken_eq_selected dist hT, greedyList_eq dist a h]
    exact iff_of_true rfl (.inl hT)
  · rw [prune_eq dist a hg, taken_eq_nil dist hT, selectNew_nil_eq_take (nearest_nodup dist N g h),
      eq_comm, greedyList_eq_take_iff dist a g h]
    exact (or_iff_right (Nat.not_lt.mpr hT)).symm

/-- The pruning is the described one exactly when `T` is below `2 ^ 31` or occlusion
by `T` candidates lasts for all candidates after the first that is occluded. -/
theorem prunesGreedily_iff {N : ℕ} (a : Args) {g : ℕ} (hg : g < 2 ^ 32) {cand : List ℕ}
    (h : cand.Nodup) : PrunesGreedily dist N a g cand ↔
      a.T < 2 ^ 31 ∨ OccludedFromThere dist N a g cand := by
  rw [← prune_eq_greedyList_iff dist a hg h]
  constructor
  · exact fun hp => hp.list
  · intro he
    refine ⟨he, fun cand' hperm => (prune_perm dist a hg hperm).trans he, fun hT => ?_⟩
    rw [he, greedyList_eq_take_iff dist a g h]
    exact occludedFromThere_of_le dist hT

/-- Two candidates of a node of three, nearest first. -/
theorem prunesGreedily_three :
    PrunesGreedily Nat.dist 3 ⟨2, 1, by decide, by decide⟩ 0 [2, 1] :=
  (prunesGreedily_iff Nat.dist ⟨2, 1, by decide, by decide⟩ (by decide) (by decide)).mpr
    (.inl (by decide))

/-! ### A threshold of `2 ^ 31` -/

/-- The node 0 is at distance 1 from all others, the last of which is far from the
rest, which are together. -/
def hubDist (last u v : ℕ) : ℕ :=
  if u = 0 ∨ v = 0 then 1 else if u = last ∨ v = last then 2 else 0

theorem hubDist_symm (last u v : ℕ) : hubDist last u v = hubDist last v u := by
  simp only [hubDist, or_comm]

theorem nearest_hubDist (last n : ℕ) :
    nearest (hubDist last) 0 (valid (n + 1) 0 (List.range' 1 n)) = List.range' 1 n := by
  have hvalid : valid (n + 1) 0 (List.range' 1 n) = List.range' 1 n := by
    rw [valid, List.filter_eq_self]
    intro v hv
    rw [List.mem_range'_1] at hv
    simp
    omega
  rw [hvalid]
  refine eq_of_perm_of_pairwise _ (nearest_perm _ 0 _) (nearest_pairwise _ 0 _) ?_
  refine (List.pairwise_lt_range' (s := 1) (n := n)).imp fun {v w} hlt => ?_
  rw [key, key, Prod.Lex.toLex_le_toLex]
  exact .inr ⟨rfl, hlt.le⟩

/-- The candidates before the last two occlude only the last but one. -/
theorem not_occludedFromThere {a : Args} (hT : 1 ≤ a.T) (hR : a.R = a.T + 2) :
    ¬ OccludedFromThere (hubDist (a.T + 2)) (a.T + 3) a 0 (List.range' 1 (a.T + 2)) := by
  intro h
  have hsplit : List.range' 1 (a.T + 2) = List.range' 1 a.T ++ (a.T + 1) :: [a.T + 2] := by
    rw [← List.range'_append_1, Nat.add_comm 1 a.T]
    rfl
  have hmid : ∀ v ∈ List.range' 1 a.T, v ≠ 0 ∧ v ≠ a.T + 2 := by
    intro v hv
    rw [List.mem_range'_1] at hv
    omega
  have hall : occluders (hubDist (a.T + 2)) 0 (List.range' 1 a.T) (a.T + 1) = a.T := by
    rw [occluders, List.countP_eq_length.mpr, List.length_range']
    intro v hv
    simp [hubDist, hmid v hv]
  have hnone : occluders (hubDist (a.T + 2)) 0 (List.range' 1 a.T) (a.T + 2) = 0 := by
    rw [occluders, List.countP_eq_zero]
    intro v hv
    simp [hubDist, hmid v hv]
  have hocc := h (List.range' 1 a.T) (a.T + 1) [a.T + 2]
    ((nearest_hubDist (a.T + 2) (a.T + 2)).trans hsplit) (by simp [hR]) hall.ge (a.T + 2)
    (List.mem_singleton_self _)
  omega

/-- With this threshold the last two candidates change places. -/
theorem not_prunesGreedily : (List.range' 1 (2 ^ 31 + 2)).Nodup ∧
    (∀ u v, hubDist (2 ^ 31 + 2) u v = hubDist (2 ^ 31 + 2) v u) ∧
    ¬ PrunesGreedily (hubDist (2 ^ 31 + 2)) (2 ^ 31 + 3)
      ⟨2 ^ 31 + 2, 2 ^ 31, by decide, by decide⟩ 0 (List.range' 1 (2 ^ 31 + 2)) := by
  have hnd : (List.range' 1 (2 ^ 31 + 2)).Nodup := List.nodup_range'
  refine ⟨hnd, hubDist_symm _, fun h => ?_⟩
  rcases (prune_eq_greedyList_iff _ _ (by decide) hnd).mp h.list with hT | hfront
  · exact absurd hT (lt_irrefl _)
  · exact not_occludedFromThere (a := ⟨2 ^ 31 + 2, 2 ^ 31, by decide, by decide⟩) (by decide) rfl
      hfront

end HiDANN.Pruning
