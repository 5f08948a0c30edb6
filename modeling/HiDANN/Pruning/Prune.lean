import HiDANN.Library.Selection
import Mathlib.Algebra.Order.Ring.Nat
import Mathlib.Data.List.Sort
import Mathlib.Data.Prod.Lex
import Mathlib.Data.Int.DivMod

/-! The pruning of one node. Its candidates, without itself and what is no node,
are sorted by (distance, id). Going through them, one is taken unless `T` of
those taken lie no farther from it than the node does; places that are left over
go to candidates not taken yet, in the same order. Both phases are greedy
selections from one sorted list of ids, which depends on the candidates only as
a multiset. -/

namespace HiDANN.Pruning

open Selection

/-- The flags `--R` and `--T`, 32-bit unsigned. -/
structure Args where
  R : ℕ
  T : ℕ
  R_lt : R < 2 ^ 32
  T_lt : T < 2 ^ 32

/-- `(int)a.T`. -/
def Args.threshold (a : Args) : ℤ := (a.T : ℤ).bmod (2 ^ 32)

theorem Args.threshold_eq {a : Args} (h : a.T < 2 ^ 31) : a.threshold = a.T :=
  Int.bmod_eq_of_le (by omega) (by omega)

variable {δ : Type*} [LinearOrder δ] (dist : ℕ → ℕ → δ)

/-! ### The code -/

/-- The candidates of a node with their distances. -/
def pool (N g : ℕ) : List ℕ → List (ℕ × δ)
  | [] => []
  | v :: cand =>
    if N ≤ v ∨ v = g % 2 ^ 32 then pool N g cand
    else (v, dist (g % 2 ^ 32) v) :: pool N g cand

/-- The order of the pool, by distance and then id. -/
def poolKey (p : ℕ × δ) : δ ×ₗ ℕ := toLex (p.2, p.1)

/-- `std::sort` of the pool; entries with equal keys are equal. -/
def sortPool (pool : List (ℕ × δ)) : List (ℕ × δ) :=
  pool.insertionSort fun a b => poolKey a ≤ poolKey b

/-- The loop that counts the taken ones that occlude `v`, up to the threshold. -/
def occludedBy (threshold : ℤ) (v : ℕ) (dv : δ) : List ℕ → ℤ → ℤ
  | [], ocBy => ocBy
  | s :: out, ocBy =>
    if dist s v ≤ dv then
      if threshold ≤ ocBy + 1 then ocBy + 1 else occludedBy threshold v dv out (ocBy + 1)
    else occludedBy threshold v dv out ocBy

def occlude (a : Args) : List (ℕ × δ) → List ℕ → List ℕ
  | [], out => out
  | (v, dv) :: pool, out =>
    if a.R ≤ out.length then out
    else if occludedBy dist a.threshold v dv out 0 < a.threshold then
      occlude a pool (out ++ [v])
    else occlude a pool out

/-- The loop that fills the places left over. -/
def fillUp (a : Args) : List (ℕ × δ) → List ℕ → List ℕ
  | [], out => out
  | (v, _) :: pool, out =>
    if a.R ≤ out.length then out
    else if v ∈ out then fillUp a pool out
    else fillUp a pool (out ++ [v])

/-- The adjacency list of a node. -/
def prune (N : ℕ) (a : Args) (g : ℕ) (cand : List ℕ) : List ℕ :=
  let pool := sortPool (pool dist N g cand)
  let out := occlude dist a pool []
  if out.length < a.R then fillUp a pool out else out

/-! ### The sorted candidates -/

/-- The candidates that are considered. -/
def valid (N g : ℕ) (cand : List ℕ) : List ℕ := cand.filter fun v => v < N ∧ v ≠ g

def key (g v : ℕ) : δ ×ₗ ℕ := toLex (dist g v, v)

/-- Ids in the order of the pool. -/
def nearest (g : ℕ) (ids : List ℕ) : List ℕ :=
  ids.insertionSort fun v w => key dist g v ≤ key dist g w

omit [LinearOrder δ] in
theorem key_injective (g : ℕ) : Function.Injective (key dist g) := by
  intro v w h
  exact congrArg Prod.snd (toLex.injective h)

theorem nearest_perm (g : ℕ) (ids : List ℕ) : (nearest dist g ids).Perm ids :=
  List.perm_insertionSort _ _

theorem nearest_pairwise (g : ℕ) (ids : List ℕ) :
    (nearest dist g ids).Pairwise fun v w => key dist g v ≤ key dist g w := by
  have : Std.Total fun v w => key dist g v ≤ key dist g w := ⟨fun _ _ => le_total _ _⟩
  have : IsTrans ℕ fun v w => key dist g v ≤ key dist g w := ⟨fun _ _ _ h h' => h.trans h'⟩
  exact List.pairwise_insertionSort _ ids

/-- A list in the order of the pool is determined by its elements. -/
theorem eq_of_perm_of_pairwise {g : ℕ} {l l' : List ℕ} (h : l.Perm l')
    (hl : l.Pairwise fun v w => key dist g v ≤ key dist g w)
    (hl' : l'.Pairwise fun v w => key dist g v ≤ key dist g w) : l = l' :=
  h.eq_of_pairwise (fun _ _ _ _ hvw hwv => key_injective dist g (le_antisymm hvw hwv)) hl hl'

theorem nearest_congr {g : ℕ} {ids ids' : List ℕ} (h : ids.Perm ids') :
    nearest dist g ids = nearest dist g ids' := by
  refine eq_of_perm_of_pairwise dist ?_ (nearest_pairwise dist g ids) (nearest_pairwise dist g ids')
  exact (nearest_perm dist g ids).trans (h.trans (nearest_perm dist g ids').symm)

section Pool

variable {N g : ℕ} (hg : g < 2 ^ 32)

include hg in
omit [LinearOrder δ] in
theorem pool_eq (cand : List ℕ) :
    pool dist N g cand = (valid N g cand).map fun v => (v, dist g v) := by
  have hmod : g % 2 ^ 32 = g := Nat.mod_eq_of_lt hg
  induction cand with
  | nil => rfl
  | cons v cand ih =>
    rw [pool, hmod, ih, valid, valid]
    by_cases h : N ≤ v ∨ v = g
    · rw [if_pos h, List.filter_cons_of_neg]
      rw [decide_eq_true_eq]
      omega
    · rw [if_neg h, List.filter_cons_of_pos, List.map_cons]
      rw [decide_eq_true_eq]
      omega

include hg in
theorem sortPool_pool (cand : List ℕ) : sortPool (pool dist N g cand) =
    (nearest dist g (valid N g cand)).map fun v => (v, dist g v) := by
  rw [pool_eq dist hg, sortPool, nearest]
  exact (List.map_insertionSort (fun v w => key dist g v ≤ key dist g w)
    (fun p q => poolKey p ≤ poolKey q) (fun v => (v, dist g v)) _ fun v _ w _ => Iff.rfl).symm

end Pool

/-! ### The two phases -/

/-- How many taken ids lie no farther from a candidate than the node does. -/
def occluders (g : ℕ) (S : List ℕ) (v : ℕ) : ℕ := S.countP fun s => dist s v ≤ dist g v

/-- The taken ids leave the candidate unoccluded. -/
def Unoccluded (a : Args) (g : ℕ) (S : List ℕ) (v : ℕ) : Prop :=
  (occluders dist g S v : ℤ) < a.threshold

instance (a : Args) (g : ℕ) (S : List ℕ) (v : ℕ) : Decidable (Unoccluded dist a g S v) :=
  inferInstanceAs (Decidable ((occluders dist g S v : ℤ) < a.threshold))

/-- The count stops at the threshold, which does not change the comparison. -/
theorem occludedBy_lt_iff (t : ℤ) (g v : ℕ) (out : List ℕ) (n : ℤ) :
    occludedBy dist t v (dist g v) out n < t ↔ n + occluders dist g out v < t := by
  induction out generalizing n with
  | nil => simp [occludedBy, occluders]
  | cons s out ih =>
    rw [occludedBy, occluders, List.countP_cons]
    have hc : (occluders dist g out v : ℤ) = (out.countP fun s => dist s v ≤ dist g v : ℕ) := rfl
    by_cases h : dist s v ≤ dist g v
    · simp only [h, if_true, decide_true]
      split_ifs with ht
      · have := Int.natCast_nonneg (occluders dist g out v)
        push_cast
        omega
      · rw [ih, hc]
        push_cast
        omega
    · simp only [h, if_false, decide_false, Bool.false_eq_true, Nat.add_zero]
      rw [ih, hc]

theorem occlude_eq (a : Args) (g : ℕ) (ids out : List ℕ) :
    occlude dist a (ids.map fun v => (v, dist g v)) out =
      select a.R (Unoccluded dist a g) out ids := by
  induction ids generalizing out with
  | nil => rfl
  | cons v ids ih =>
    have hocc : occludedBy dist a.threshold v (dist g v) out 0 < a.threshold ↔
        Unoccluded dist a g out v := by
      rw [occludedBy_lt_iff, Int.zero_add, Unoccluded]
    rw [List.map_cons, occlude]
    by_cases hfull : a.R ≤ out.length
    · rw [if_pos hfull, select_full _ _ hfull]
    · rw [if_neg hfull, select_cons, step, ih, ih]
      by_cases ho : Unoccluded dist a g out v
      · rw [if_pos (hocc.mpr ho), if_pos ⟨Nat.lt_of_not_le hfull, ho⟩]
      · rw [if_neg fun h => ho (hocc.mp h), if_neg fun h => ho h.2]

omit [LinearOrder δ] in
theorem fillUp_eq (a : Args) (g : ℕ) (ids out : List ℕ) :
    fillUp a (ids.map fun v => (v, dist g v)) out = selectNew a.R out ids := by
  induction ids generalizing out with
  | nil => rfl
  | cons v ids ih =>
    rw [List.map_cons, fillUp, selectNew]
    by_cases hfull : a.R ≤ out.length
    · rw [if_pos hfull, select_full _ _ hfull]
    · rw [if_neg hfull, select_cons, step, ih, ih, selectNew, selectNew]
      by_cases hv : v ∈ out
      · rw [if_pos hv, if_neg fun h => h.2 hv]
      · rw [if_neg hv, if_pos ⟨Nat.lt_of_not_le hfull, hv⟩]

/-- The ids the first phase takes. -/
def taken (N : ℕ) (a : Args) (g : ℕ) (cand : List ℕ) : List ℕ :=
  select a.R (Unoccluded dist a g) [] (nearest dist g (valid N g cand))

/-- Both phases go through the sorted candidates. -/
theorem prune_eq {N : ℕ} (a : Args) {g : ℕ} (hg : g < 2 ^ 32) (cand : List ℕ) :
    prune dist N a g cand =
      selectNew a.R (taken dist N a g cand) (nearest dist g (valid N g cand)) := by
  simp only [prune, sortPool_pool dist hg, occlude_eq, fillUp_eq]
  rw [← taken]
  split_ifs with h
  · rfl
  · exact (select_full _ _ (Nat.le_of_not_lt h) _).symm

/-- The adjacency list depends on the candidates only as a multiset. -/
theorem prune_perm {N : ℕ} (a : Args) {g : ℕ} (hg : g < 2 ^ 32) {cand cand' : List ℕ}
    (h : cand.Perm cand') : prune dist N a g cand = prune dist N a g cand' := by
  have hv : nearest dist g (valid N g cand) = nearest dist g (valid N g cand') :=
    nearest_congr dist (h.filter _)
  rw [prune_eq dist a hg, prune_eq dist a hg, taken, taken, hv]

theorem length_prune_le {N : ℕ} (a : Args) {g : ℕ} (hg : g < 2 ^ 32) (cand : List ℕ) :
    (prune dist N a g cand).length ≤ a.R := by
  rw [prune_eq dist a hg]
  exact length_select_le _ _ (length_select_le _ _ (Nat.zero_le _) _) _

theorem length_prune_le_cand {N : ℕ} (a : Args) {g : ℕ} (hg : g < 2 ^ 32) (cand : List ℕ) :
    (prune dist N a g cand).length ≤ cand.length := by
  obtain ⟨l', hl, he⟩ := exists_sublist a.R (Unoccluded dist a g) []
    (nearest dist g (valid N g cand))
  rw [prune_eq dist a hg, taken, he]
  refine (length_selectNew_le hl).trans ?_
  rw [(nearest_perm dist g _).length_eq]
  exact List.length_filter_le _ _

theorem mem_prune {N : ℕ} {a : Args} {g : ℕ} (hg : g < 2 ^ 32) {cand : List ℕ} {v : ℕ}
    (h : v ∈ prune dist N a g cand) : v ∈ valid N g cand := by
  rw [prune_eq dist a hg] at h
  rcases mem_of_mem_select _ _ h with h | h
  · rcases mem_of_mem_select _ _ h with h | h
    · cases h
    · exact (nearest_perm dist g _).mem_iff.mp h
  · exact (nearest_perm dist g _).mem_iff.mp h

end HiDANN.Pruning
