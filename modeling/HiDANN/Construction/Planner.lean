import HiDANN.Construction.Pairs
import HiDANN.Library.LeastSearch
import Mathlib.Algebra.Order.Field.Rat
import Mathlib.Algebra.Order.Floor.Ring
import Mathlib.Data.Rat.Floor
import Mathlib.Tactic.GCongr
import Mathlib.Tactic.Linarith
import Mathlib.Tactic.Positivity
import Mathlib.Tactic.Ring

/-! How many partitions there are. The pipeline script looks for the least number of equal
partitions of which two fit into the budget, and the construction checks the two largest
partitions it makes against its own budget. Both estimate the memory of an index, each in
its own words; the doubles of both are taken as exact rationals. -/

namespace HiDANN.Construction

/-! ### The planner -/

namespace Planner

def graphSlackFactor : ℚ := 13 / 10

def overheadFactor : ℚ := 11 / 10

def linuxStdMutexBytes : ℕ := 40

def ptrdiffBytes : ℕ := 8

def estimateRamUsage (numPoints dim datasize degree : ℕ) : ℚ :=
  let roundedDim := (dim + 7) / 8 * 8
  let sizeOfData : ℚ := numPoints * roundedDim * datasize
  let sizeOfGraph := numPoints * degree * 4 * graphSlackFactor
  let sizeOfLocks : ℚ := numPoints * linuxStdMutexBytes
  let sizeOfOuterVector : ℚ := numPoints * ptrdiffBytes
  overheadFactor * (sizeOfData + sizeOfGraph + sizeOfLocks + sizeOfOuterVector)

def maxPart (npts p : ℕ) : ℕ := (npts + p - 1) / p

def pairUsage (npts dim degree p : ℕ) : ℚ := 2 * estimateRamUsage (maxPart npts p) dim 4 degree

def Fits (npts dim degree : ℕ) (memoryBudgetBytes : ℤ) (p : ℕ) : Prop :=
  pairUsage npts dim degree p ≤ memoryBudgetBytes

instance (npts dim degree : ℕ) (memoryBudgetBytes : ℤ) :
    DecidablePred (Fits npts dim degree memoryBudgetBytes) :=
  fun _ => inferInstanceAs (Decidable (_ ≤ _))

/-- A number of bytes without its fraction; a half goes to the even neighbour. -/
def formatBytes (q : ℚ) : String :=
  let n := ⌊q⌋
  toString (if q - n < 1 / 2 then n else if 1 / 2 < q - n then n + 1 else if n % 2 = 0 then n
    else n + 1)

/-- The number of partitions, the points of the largest, and the memory of two of these. -/
def requiredUniformPartitions (npts dim degree : ℕ) (memoryBudgetBytes startP : ℤ) :
    Except String (ℕ × ℕ × ℚ) :=
  let fits := Fits npts dim degree memoryBudgetBytes
  let hi := LeastSearch.double fits npts npts (max 1 startP).toNat
  if ¬ fits hi then
    .error ("memory budget is too small even with one point per partition: required_pair_ram=" ++
      formatBytes (pairUsage npts dim degree hi) ++ " bytes budget=" ++
      toString memoryBudgetBytes ++ " bytes")
  else
    let best := LeastSearch.halve fits hi 1 hi hi
    .ok (best, maxPart npts best, pairUsage npts dim degree best)

end Planner

/-! ### The check of the construction -/

def roundUpMacro (x y : ℕ) : ℕ := (x / y + if x % y ≠ 0 then 1 else 0) * y

/-- `diskann::estimate_ram_usage`, with mutexes of 40 bytes. -/
def estimateRamUsage (size dim datasize degree : ℕ) : ℚ :=
  let sizeOfData : ℚ := size * roundUpMacro dim 8 * datasize
  let sizeOfGraph : ℚ := size * degree * 4 * (13 / 10)
  let sizeOfLocks : ℚ := size * 40
  let sizeOfOuterVector : ℚ := size * 8
  11 / 10 * (sizeOfData + sizeOfGraph + sizeOfLocks + sizeOfOuterVector)

def largestPartition (N P : ℕ) : ℕ :=
  (List.range P).foldl (fun maxPart t =>
    let ts := makeOffsets N P t
    let te := if t + 1 < P then makeOffsets N P (t + 1) else N
    max maxPart (te - ts)) 0

def memoryBudgetCheck (N P D R memoryBudgetBytes : ℕ) : Except String Unit :=
  if 0 < memoryBudgetBytes then
    let oneIndexRam := estimateRamUsage (largestPartition N P) D 4 R
    let twoIndexRam := 2 * oneIndexRam
    if (memoryBudgetBytes : ℚ) < twoIndexRam then
      .error "P is too small for the requested memory budget; increase P before construction"
    else .ok ()
  else .ok ()

/-! ### The planned number is minimal -/

namespace Planner

variable {npts dim degree : ℕ} {memoryBudgetBytes startP : ℤ}

/-- The memory of an index is that of a point, for every point. -/
theorem estimateRamUsage_eq (numPoints dim datasize degree : ℕ) :
    estimateRamUsage numPoints dim datasize degree =
      numPoints * estimateRamUsage 1 dim datasize degree := by
  simp only [estimateRamUsage]
  ring

theorem estimateRamUsage_nonneg (numPoints dim datasize degree : ℕ) :
    0 ≤ estimateRamUsage numPoints dim datasize degree := by
  simp only [estimateRamUsage, overheadFactor, graphSlackFactor]
  positivity

theorem estimateRamUsage_mono {m n : ℕ} (h : m ≤ n) (dim datasize degree : ℕ) :
    estimateRamUsage m dim datasize degree ≤ estimateRamUsage n dim datasize degree := by
  rw [estimateRamUsage_eq m, estimateRamUsage_eq n]
  exact mul_le_mul_of_nonneg_right (Nat.cast_le.mpr h) (estimateRamUsage_nonneg _ _ _ _)

theorem maxPart_le_iff {p k : ℕ} (hp : 1 ≤ p) : maxPart npts p ≤ k ↔ npts ≤ k * p := by
  rw [maxPart, ← Nat.lt_succ_iff, Nat.div_lt_iff_lt_mul hp, Nat.succ_mul]
  omega

variable (npts) in
theorem maxPart_anti {p q : ℕ} (hp : 1 ≤ p) (h : p ≤ q) : maxPart npts q ≤ maxPart npts p := by
  rw [maxPart_le_iff (hp.trans h)]
  calc npts ≤ maxPart npts p * p := (maxPart_le_iff hp).mp le_rfl
    _ ≤ maxPart npts p * q := Nat.mul_le_mul_left _ h

theorem maxPart_eq_one {p : ℕ} (hn : 1 ≤ npts) (hp : npts ≤ p) : maxPart npts p = 1 := by
  apply le_antisymm
  · rw [maxPart_le_iff (hn.trans hp), Nat.one_mul]
    exact hp
  · rw [Nat.one_le_iff_ne_zero]
    intro hzero
    have hnone := (maxPart_le_iff (hn.trans hp)).mp hzero.le
    omega

theorem fits_mono {p q : ℕ} (hp : 1 ≤ p) (h : p ≤ q)
    (hfits : Fits npts dim degree memoryBudgetBytes p) :
    Fits npts dim degree memoryBudgetBytes q := by
  have hle := estimateRamUsage_mono (maxPart_anti npts hp h) dim 4 degree
  unfold Fits pairUsage at hfits ⊢
  linarith

theorem fits_congr {p q : ℕ} (hn : 1 ≤ npts) (hp : npts ≤ p) (hq : npts ≤ q) :
    Fits npts dim degree memoryBudgetBytes p ↔ Fits npts dim degree memoryBudgetBytes q := by
  rw [Fits, Fits, pairUsage, pairUsage, maxPart_eq_one hn hp, maxPart_eq_one hn hq]

variable (dim degree memoryBudgetBytes startP) in
/-- The guess that the halving starts from is the last that can help. -/
theorem fits_double_iff (hn : 1 ≤ npts) :
    Fits npts dim degree memoryBudgetBytes (LeastSearch.double
      (Fits npts dim degree memoryBudgetBytes) npts npts (max 1 startP).toNat) ↔
    Fits npts dim degree memoryBudgetBytes (max (npts : ℤ) startP).toNat := by
  obtain ⟨h1, h2, h3⟩ := LeastSearch.double_spec (Fits npts dim degree memoryBudgetBytes)
    npts npts (max 1 startP).toNat (by omega) (by omega)
  have hbound : (max (npts : ℤ) startP).toNat = max npts (max 1 startP).toNat := by omega
  constructor
  · intro h
    exact fits_mono (by omega) (by omega) h
  · intro h
    rcases h3 with h3 | h3
    · exact h3
    · exact (fits_congr hn h3 (by omega)).mpr h

variable (dim degree memoryBudgetBytes startP) in
/-- The plan is the least number of partitions that fits. -/
theorem requiredUniformPartitions_spec (hn : 1 ≤ npts) :
    (∃ e, requiredUniformPartitions npts dim degree memoryBudgetBytes startP = .error e ∧
      ¬ Fits npts dim degree memoryBudgetBytes (max (npts : ℤ) startP).toNat) ∨
    ∃ best, requiredUniformPartitions npts dim degree memoryBudgetBytes startP =
        .ok (best, maxPart npts best, pairUsage npts dim degree best) ∧
      IsLeast {p | 1 ≤ p ∧ Fits npts dim degree memoryBudgetBytes p} best ∧
      Fits npts dim degree memoryBudgetBytes (max (npts : ℤ) startP).toNat := by
  have hiff := fits_double_iff dim degree memoryBudgetBytes startP hn
  rw [requiredUniformPartitions]
  dsimp only
  have hge := (LeastSearch.double_spec (Fits npts dim degree memoryBudgetBytes) npts npts
    (max 1 startP).toNat (by omega) (by omega)).1
  generalize LeastSearch.double (Fits npts dim degree memoryBudgetBytes) npts npts
    (max 1 startP).toNat = hi at hiff hge
  by_cases hfits : Fits npts dim degree memoryBudgetBytes hi
  · right
    rw [if_neg (not_not.mpr hfits)]
    refine ⟨_, rfl, ?_, hiff.mp hfits⟩
    apply LeastSearch.halve_isLeast (fun m n hm h => fits_mono hm h) le_rfl (by omega) (by omega)
      (by omega) hfits
    intro n hone hlt
    omega
  · left
    rw [if_pos hfits]
    exact ⟨_, rfl, hiff.not.mp hfits⟩

end Planner

/-! ### The two agree -/

/-- The two estimates are the same function. -/
theorem estimateRamUsage_eq_planner (size dim datasize degree : ℕ) :
    estimateRamUsage size dim datasize degree =
      Planner.estimateRamUsage size dim datasize degree := by
  have hround : roundUpMacro dim 8 = (dim + 7) / 8 * 8 := by
    unfold roundUpMacro
    split_ifs with h
    · omega
    · omega
  rw [estimateRamUsage, hround]
  simp only [Planner.estimateRamUsage, Planner.overheadFactor, Planner.graphSlackFactor,
    Planner.linuxStdMutexBytes, Planner.ptrdiffBytes]
  push_cast
  ring

theorem partition_size {N P t : ℕ} (ht : t < P) :
    (if t + 1 < P then makeOffsets N P (t + 1) else N) - makeOffsets N P t = partSize N P t := by
  have hnext : makeOffsets N P (t + 1) = makeOffsets N P t + partSize N P t := rfl
  split_ifs with h
  · omega
  · have hend : makeOffsets N P P = N := makeOffsets_P (by omega)
    rw [show P = t + 1 by omega] at hend hnext ⊢
    omega

theorem foldl_max_le_iff (f : ℕ → ℕ) (n k : ℕ) :
    (List.range n).foldl (fun m t => max m (f t)) 0 ≤ k ↔ ∀ t < n, f t ≤ k := by
  induction n with
  | zero => simp
  | succ n ih =>
    rw [List.range_succ, List.foldl_append, List.foldl_cons, List.foldl_nil, max_le_iff, ih,
      Nat.forall_lt_succ_right]

theorem largestPartition_eq {N P : ℕ} (hP : 1 ≤ P) : largestPartition N P = Planner.maxPart N P := by
  apply eq_of_forall_ge_iff
  intro k
  rw [largestPartition, foldl_max_le_iff, Planner.maxPart_le_iff hP]
  have hdiv := Nat.div_add_mod N P
  have hmod := Nat.mod_lt N hP
  constructor
  · intro h
    have hfirst := h 0 hP
    rw [partition_size hP, partSize] at hfirst
    split_ifs at hfirst with hrem
    · calc N = P * (N / P) + N % P := hdiv.symm
        _ ≤ P * (N / P + 1) := by rw [Nat.mul_succ]; omega
        _ ≤ P * k := Nat.mul_le_mul_left P hfirst
        _ = k * P := Nat.mul_comm P k
    · calc N = P * (N / P) := by omega
        _ ≤ P * k := Nat.mul_le_mul_left P hfirst
        _ = k * P := Nat.mul_comm P k
  · intro h t ht
    rw [partition_size ht, partSize]
    have hle : N / P ≤ k := Nat.div_le_of_le_mul (by rwa [Nat.mul_comm])
    split_ifs with hrem
    · by_contra hgt
      have hk : k = N / P := by omega
      rw [hk, Nat.mul_comm] at h
      omega
    · exact hle

theorem memoryBudgetCheck_ok {N P D R memoryBudgetBytes : ℕ}
    (h : Planner.Fits N D R memoryBudgetBytes P) (hP : 1 ≤ P) :
    memoryBudgetCheck N P D R memoryBudgetBytes = .ok () := by
  unfold Planner.Fits Planner.pairUsage at h
  rw [memoryBudgetCheck, largestPartition_eq hP, estimateRamUsage_eq_planner]
  dsimp only
  split_ifs with hset hover
  · exact absurd h (not_le.mpr (by exact_mod_cast hover))
  · rfl
  · rfl

/-- The planner and the construction agree, and the plan is minimal: the planner returns the
least number of partitions of which two fit, with the size and the memory that belong to
it, and fails exactly if even one point per partition does not fit; and the construction
accepts the larger of it and any other number, with any budget from the planner's on. -/
theorem planner_agrees (npts dim degree : ℕ) (hn : 1 ≤ npts) (memoryBudgetBytes startP : ℤ) :
    (∀ best part usage, Planner.requiredUniformPartitions npts dim degree memoryBudgetBytes startP =
        .ok (best, part, usage) →
      IsLeast {p | 1 ≤ p ∧ Planner.pairUsage npts dim degree p ≤ memoryBudgetBytes} best ∧
      part = Planner.maxPart npts best ∧ usage = Planner.pairUsage npts dim degree best ∧
      ∀ minP budget : ℕ, memoryBudgetBytes ≤ budget →
        memoryBudgetCheck npts (max minP best) dim degree budget = .ok ()) ∧
    ((∃ e, Planner.requiredUniformPartitions npts dim degree memoryBudgetBytes startP = .error e) ↔
      (memoryBudgetBytes : ℚ) <
        Planner.pairUsage npts dim degree (max (npts : ℤ) startP).toNat) := by
  rcases Planner.requiredUniformPartitions_spec dim degree memoryBudgetBytes startP hn with
    ⟨e, herr, hnot⟩ | ⟨best, hok, hleast, hfits⟩
  · rw [herr]
    constructor
    · intro best part usage h
      cases h
    · exact ⟨fun _ => not_le.mp hnot, fun _ => ⟨e, rfl⟩⟩
  · rw [hok]
    constructor
    · rintro best' part usage h
      obtain ⟨rfl, rfl, rfl⟩ := Prod.mk.inj (Except.ok.inj h)
      refine ⟨hleast, rfl, rfl, fun minP budget hbudget => ?_⟩
      obtain ⟨hone, hbest⟩ := hleast.1
      apply memoryBudgetCheck_ok _ (hone.trans (le_max_right _ _))
      apply Planner.fits_mono hone (le_max_right _ _)
      exact le_trans hbest (by exact_mod_cast hbudget)
    · constructor
      · rintro ⟨e, he⟩
        cases he
      · intro h
        exact absurd hfits (not_le.mpr h)

theorem pairUsage_four (p : ℕ) : Planner.pairUsage 4 1 1 p = Planner.maxPart 4 p * (4686 / 25) := by
  rw [Planner.pairUsage, Planner.estimateRamUsage_eq]
  norm_num [Planner.estimateRamUsage, Planner.overheadFactor, Planner.graphSlackFactor,
    Planner.linuxStdMutexBytes, Planner.ptrdiffBytes]
  ring

/-- Two halves of four points fit, and so do three partitions. -/
theorem four_points_planned : ∃ usage,
    Planner.requiredUniformPartitions 4 1 1 400 1 = .ok (2, 2, usage) ∧
      memoryBudgetCheck 4 3 1 1 400 = .ok () := by
  obtain ⟨hplan, hfails⟩ := planner_agrees 4 1 1 (by decide) 400 1
  cases hrun : Planner.requiredUniformPartitions 4 1 1 400 1 with
  | error e =>
    have hlt := hfails.mp ⟨e, hrun⟩
    have hpart : Planner.maxPart 4 4 = 1 := by decide
    rw [show (max ((4 : ℕ) : ℤ) 1).toNat = 4 by decide, pairUsage_four, hpart] at hlt
    norm_num at hlt
  | ok plan =>
    obtain ⟨best, part, usage⟩ := plan
    obtain ⟨⟨⟨hone, hfits⟩, hleast⟩, rfl, -, hcheck⟩ := hplan best part usage hrun
    have hle : best ≤ 2 := by
      apply hleast
      have hpart : Planner.maxPart 4 2 = 2 := by decide
      refine ⟨by decide, ?_⟩
      rw [pairUsage_four, hpart]
      norm_num
    have hne : best ≠ 1 := by
      rintro rfl
      have hpart : Planner.maxPart 4 1 = 4 := by decide
      rw [pairUsage_four, hpart] at hfits
      norm_num at hfits
    obtain rfl : best = 2 := by omega
    exact ⟨usage, rfl, hcheck 3 400 (by decide)⟩

end HiDANN.Construction
