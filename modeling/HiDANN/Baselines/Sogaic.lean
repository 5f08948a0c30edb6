import HiDANN.Construction.Planner
import HiDANN.Library.Bisect
import HiDANN.Library.Rounding
import Mathlib.Algebra.BigOperators.Group.Finset.Piecewise
import Mathlib.Algebra.Order.BigOperators.Group.Finset
import Mathlib.Algebra.Order.Ring.Nat
import Mathlib.Data.List.Sort

/-! The partition of the SOGAIC baseline. A shard holds as many points as the
memory budget allows, and there are as many shards as the overlap factor asks for.
The points are read in blocks; each goes greedily to shards that are near it,
where a bound on the distance that follows the average of the shards considered
is dropped when a full shard is met. The shards before a point have fewer entries
than all of them can hold, so one with room is always found. -/

namespace HiDANN.Baselines

open Bisect Rounding
open Construction (roundUpMacro)

/-! ### The code -/

/-- `GRAPH_SLACK_FACTOR`, a `float`. -/
def graphSlackFactor : ℚ := roundTo 24 (13 / 10)

/-- `OVERHEAD_FACTOR`, a `double`. -/
def overheadFactor : ℚ := roundTo 53 (11 / 10)

/-- `diskann::estimate_ram_usage`, with mutexes of 40 bytes. Each product and each sum is a
`double`, far from the ends of their range. -/
def estimateRamUsage (size dim datasize degree : ℕ) : ℚ :=
  let double := roundTo 53
  let sizeOfData := double (double (double size * double (roundUpMacro dim 8)) * datasize)
  let sizeOfGraph := double (double (double (double size * degree) * 4) * graphSlackFactor)
  let sizeOfLocks := double (double size * 40)
  let sizeOfOuterVector := double (double size * 8)
  double (overheadFactor *
    double (double (double (sizeOfData + sizeOfGraph) + sizeOfLocks) + sizeOfOuterVector))

/-- `max_capacity_for_memory_budget`; between the bounds `low + (high - low) / 2` is
the middle that `bisect` takes. -/
def maxCapacityForMemoryBudget (sizeofT memoryBudgetBytes dim graphDegree npts : ℕ) : ℕ :=
  if memoryBudgetBytes = 0 ∨ npts = 0 then 0
  else
    bisect (fun mid => decide (estimateRamUsage mid (dim % 2 ^ 32) sizeofT
      (graphDegree % 2 ^ 32) ≤ roundTo 53 memoryBudgetBytes)) 1 npts 0 one_pos

/-- The number of shards, without rounding errors. -/
def numCenters (maxOverlapFactor : ℚ) (npts maxCapacity : ℕ) : ℕ :=
  let numCenters := ⌈maxOverlapFactor * npts / maxCapacity⌉₊
  if numCenters < 1 then 1 else numCenters

/-- The block size that `DISKANN_CHUNK_BYTES` asks for, when it is a number. -/
def blockSizeOf (chunkBytes : Option ℕ) (bytesPerPoint : ℕ) : ℕ :=
  match chunkBytes with
  | none => 100000
  | some envTarget =>
    let calculatedSize := envTarget / bytesPerPoint
    let calculatedSize := if calculatedSize < 1000 then 1000 else calculatedSize
    if 5000000 < calculatedSize then 5000000 else calculatedSize

/-- What stops the program, which prints
* "Error: Memory budget is too small to fit even one vector under
  estimate_ram_usage(). Budget bytes: " and the bytes,
* "Error. dimensions dont match for train set and base set",
* "Error: max_overlap_factor must be at least 1. Got: " and the factor,
* "Error: SOGAIC assignment left " and the points " points without any shard
  assignment.",
* "Error: SOGAIC assignment produced " and the shards " shards above Gamma.". -/
inductive Failure where
  | budget (bytes : ℕ)
  | dimensions
  | overlapFactor (got : ℚ)
  | unassigned (points : ℕ)
  | overloaded (shards : ℕ)

section Code

variable {δ β : Type*}

/-- The settings of the assignment; `infinity` is the largest `float`. -/
structure Settings (δ : Type*) where
  maxOverlapFactor : ℚ
  epsilon : δ
  infinity : δ
  maxCapacity : ℕ

def Settings.maxOverlapCount (cfg : Settings δ) : ℕ := ⌊cfg.maxOverlapFactor⌋₊

/-- The counts of the shards and what is written to their files after the headers. -/
structure Shards (β : Type*) where
  shardCounts : ℕ → ℕ
  data : ℕ → List β
  idmap : ℕ → List ℕ

def Shards.assign (s : Shards β) (c id : ℕ) (row : β) : Shards β where
  shardCounts := Function.update s.shardCounts c (s.shardCounts c + 1)
  data := Function.update s.data c (s.data c ++ [row])
  idmap := Function.update s.idmap c (s.idmap c ++ [id % 2 ^ 32])

/-- The variables of the greedy assignment of one point. -/
structure Scan (δ : Type*) where
  curOLPCnt : ℕ
  curOLPFactor : ℕ
  accDist : δ
  curAVGDist : δ
  assignedToAnyShard : Bool

variable [LinearOrder δ] [Zero δ] [Add δ] [Mul δ] [Div δ] [NatCast δ]

/-- The loop over the shards, nearest first. -/
def greedy (cfg : Settings δ) (id : ℕ) (row : β) :
    List (ℕ × δ) → Scan δ → Shards β → Scan δ × Shards β
  | [], st, s => (st, s)
  | (c, d) :: dists, st, s =>
    if cfg.maxOverlapCount ≤ st.curOLPCnt then (st, s)
    else if d ≤ cfg.epsilon * st.curAVGDist then
      let curOLPFactor := st.curOLPFactor + 1
      let accDist := st.accDist + d
      if s.shardCounts c < cfg.maxCapacity then
        let st := { curOLPCnt := st.curOLPCnt + 1, curOLPFactor, accDist,
                    curAVGDist := accDist / (curOLPFactor : δ), assignedToAnyShard := true }
        greedy cfg id row dists st (s.assign c id row)
      else
        -- a full shard lifts the bound on the distance
        greedy cfg id row dists { st with curOLPFactor, accDist, curAVGDist := cfg.infinity } s
    else greedy cfg id row dists st s

structure State (β : Type*) where
  shards : Shards β
  pointsWithAssignment : ℕ
  unassignedCount : ℕ

/-- The base file, the centroids and the sort by distance, which may order equal
distances in any way. -/
structure Input (δ β : Type*) where
  numPoints : ℕ
  numCenters : ℕ
  rows : ℕ → β
  dist : ℕ → ℕ → δ
  sort : List (ℕ × δ) → List (ℕ × δ)

def Input.dists (inp : Input δ β) (i : ℕ) : List (ℕ × δ) :=
  (List.range inp.numCenters).map fun c => (c, inp.dist i c)

def Scan.start (infinity : δ) : Scan δ where
  curOLPCnt := 0
  curOLPFactor := 0
  accDist := 0
  curAVGDist := infinity
  assignedToAnyShard := false

def assignPoint (cfg : Settings δ) (inp : Input δ β) (st : State β) (i : ℕ) : State β :=
  let r := greedy cfg i (inp.rows i) (inp.sort (inp.dists i)) (Scan.start cfg.infinity) st.shards
  if r.1.assignedToAnyShard then
    { st with shards := r.2, pointsWithAssignment := st.pointsWithAssignment + 1 }
  else { st with shards := r.2, unassignedCount := st.unassignedCount + 1 }

def assignBlock (cfg : Settings δ) (inp : Input δ β) (blockSize : ℕ) (st : State β)
    (block : ℕ) : State β :=
  let startId := block * blockSize
  let endId := min ((block + 1) * blockSize) inp.numPoints
  (List.range (endId - startId)).foldl (fun st p => assignPoint cfg inp st (startId + p)) st

def assignAll (cfg : Settings δ) (inp : Input δ β) (blockSize : ℕ) : State β :=
  let blockSize := if inp.numPoints < blockSize then inp.numPoints else blockSize
  let numBlocks := (inp.numPoints + blockSize - 1) / blockSize
  (List.range numBlocks).foldl (assignBlock cfg inp blockSize)
    { shards := { shardCounts := fun _ => 0, data := fun _ => [], idmap := fun _ => [] },
      pointsWithAssignment := 0, unassignedCount := 0 }

structure ShardFiles (β : Type*) where
  dataCount : ℕ
  dataDim : ℕ
  data : List β
  idmapCount : ℕ
  idmapDim : ℕ
  idmap : List ℕ

def finalize (basedim32 : ℕ) (s : Shards β) (c : ℕ) : ShardFiles β where
  dataCount := s.shardCounts c % 2 ^ 32
  dataDim := basedim32
  data := s.data c
  idmapCount := s.shardCounts c % 2 ^ 32
  idmapDim := 1
  idmap := s.idmap c

/-- `sogaic_shard_data_into_clusters`, with what it leaves in the files. -/
def sogaicShardDataIntoClusters (cfg : Settings δ) (inp : Input δ β) (basedim32 dim : ℕ)
    (blockSize : ℕ) : Except Failure (ℕ → ShardFiles β) :=
  if basedim32 ≠ dim then .error .dimensions
  else if cfg.maxOverlapCount = 0 then .error (.overlapFactor cfg.maxOverlapFactor)
  else
    let st := assignAll cfg inp blockSize
    let overloadedShards := (List.range inp.numCenters).countP fun i =>
      cfg.maxCapacity < st.shards.shardCounts i
    if st.unassignedCount ≠ 0 ∨ st.pointsWithAssignment ≠ inp.numPoints then
      .error (.unassigned st.unassignedCount)
    else if overloadedShards ≠ 0 then .error (.overloaded overloadedShards)
    else .ok (finalize basedim32 st.shards)

/-- `sogaic_partition` once the budget of a shard is known; `dist` are the distances
from the given number of centroids. -/
def sogaicPartition (sizeofT capacityBudgetBytes dim graphDegree npts : ℕ)
    (maxOverlapFactor : ℚ) (epsilon infinity : δ) (rows : ℕ → β) (dist : ℕ → ℕ → ℕ → δ)
    (sort : List (ℕ × δ) → List (ℕ × δ)) (chunkBytes : Option ℕ) :
    Except Failure (ℕ → ShardFiles β) :=
  let maxCapacity :=
    maxCapacityForMemoryBudget sizeofT capacityBudgetBytes dim graphDegree npts
  if maxCapacity = 0 then .error (.budget capacityBudgetBytes)
  else
    let P := numCenters maxOverlapFactor npts maxCapacity
    sogaicShardDataIntoClusters { maxOverlapFactor, epsilon, infinity, maxCapacity }
      { numPoints := npts, numCenters := P, rows, dist := dist P, sort } dim dim
      (blockSizeOf chunkBytes (dim * sizeofT + dim * 4 + P * 4 + 4))

end Code

/-! ### The largest shard -/

theorem graphSlackFactor_nonneg : 0 ≤ graphSlackFactor := roundTo_nonneg _ (by norm_num)

theorem overheadFactor_pos : 0 < overheadFactor := roundTo_pos (by decide) (by norm_num)

/-- A smaller shard is not estimated larger, however its products and sums are rounded. -/
theorem estimateRamUsage_grows (dim datasize degree : ℕ) :
    Grows fun size => estimateRamUsage size dim datasize degree := by
  have double : ∀ {f : ℕ → ℚ}, Grows f → Grows fun n => roundTo 53 (f n) :=
    fun h => h.round (by decide)
  have hsize := double Grows.natCast
  have htimes : ∀ n : ℕ, Grows fun size : ℕ => roundTo 53 (roundTo 53 size * n) :=
    fun n => double (hsize.mul (.const n.cast_nonneg))
  have hdata : Grows fun size : ℕ => roundTo 53 (roundTo 53 (roundTo 53 size *
      roundTo 53 (roundUpMacro dim 8)) * datasize) :=
    double ((double (hsize.mul (.const (roundTo_nonneg _ (Nat.cast_nonneg _))))).mul
      (.const (Nat.cast_nonneg _)))
  have hgraph : Grows fun size : ℕ => roundTo 53 (roundTo 53 (roundTo 53 (roundTo 53 size *
      degree) * 4) * graphSlackFactor) :=
    double ((double ((htimes degree).mul (.const (by norm_num)))).mul
      (.const graphSlackFactor_nonneg))
  have hsum := double ((double ((double (hdata.add hgraph)).add (htimes 40))).add (htimes 8))
  exact double ((Grows.const overheadFactor_pos.le).mul hsum)

theorem estimateRamUsage_mono {j k : ℕ} (h : j ≤ k) (dim datasize degree : ℕ) :
    estimateRamUsage j dim datasize degree ≤ estimateRamUsage k dim datasize degree :=
  (estimateRamUsage_grows dim datasize degree).mono h

theorem estimateRamUsage_pos (dim datasize degree : ℕ) :
    0 < estimateRamUsage 1 dim datasize degree := by
  have hnonneg : ∀ {q r : ℚ}, 0 ≤ q → 0 ≤ r → 0 ≤ roundTo 53 (q * r) :=
    fun hq hr => roundTo_nonneg _ (mul_nonneg hq hr)
  have hone : (0 : ℚ) < roundTo 53 ((1 : ℕ) : ℚ) := roundTo_pos (by decide) (by norm_num)
  have houter : (0 : ℚ) < roundTo 53 (roundTo 53 ((1 : ℕ) : ℚ) * 8) :=
    roundTo_pos (by decide) (mul_pos hone (by norm_num))
  refine roundTo_pos (by decide) (mul_pos overheadFactor_pos (roundTo_pos (by decide) ?_))
  refine add_pos_of_nonneg_of_pos (roundTo_nonneg _ (add_nonneg (roundTo_nonneg _ (add_nonneg ?_ ?_))
    (hnonneg hone.le (by norm_num)))) houter
  · exact hnonneg (hnonneg hone.le (roundTo_nonneg _ (Nat.cast_nonneg _))) (Nat.cast_nonneg _)
  · exact hnonneg (hnonneg (hnonneg hone.le (Nat.cast_nonneg _)) (by norm_num))
      graphSlackFactor_nonneg

theorem fits_mono (sizeofT memoryBudgetBytes dim graphDegree j k : ℕ) (hjk : j ≤ k)
    (hk : decide (estimateRamUsage k (dim % 2 ^ 32) sizeofT (graphDegree % 2 ^ 32) ≤
      roundTo 53 memoryBudgetBytes) = true) :
    decide (estimateRamUsage j (dim % 2 ^ 32) sizeofT (graphDegree % 2 ^ 32) ≤
      roundTo 53 memoryBudgetBytes) = true := by
  rw [decide_eq_true_eq] at hk ⊢
  exact (estimateRamUsage_mono hjk _ _ _).trans hk

theorem maxCapacityForMemoryBudget_isGreatest {sizeofT memoryBudgetBytes dim graphDegree npts : ℕ}
    (h : 0 < maxCapacityForMemoryBudget sizeofT memoryBudgetBytes dim graphDegree npts) :
    IsGreatest {m | m ≤ npts ∧ estimateRamUsage m (dim % 2 ^ 32) sizeofT (graphDegree % 2 ^ 32) ≤
      roundTo 53 memoryBudgetBytes}
      (maxCapacityForMemoryBudget sizeofT memoryBudgetBytes dim graphDegree npts) := by
  rw [maxCapacityForMemoryBudget] at h ⊢
  by_cases h0 : memoryBudgetBytes = 0 ∨ npts = 0
  · rw [if_pos h0] at h
    exact absurd h (lt_irrefl 0)
  rw [if_neg h0] at h ⊢
  obtain ⟨-, hfits, hgreatest⟩ := bisect_greatest
    (fits_mono sizeofT memoryBudgetBytes dim graphDegree) npts one_pos (Nat.zero_add 1)
  constructor
  · refine ⟨?_, of_decide_eq_true (hfits h)⟩
    rcases bisect_mem _ 0 one_pos with he | ⟨-, hle⟩
    · exact absurd he h.ne'
    · exact hle
  · rintro m ⟨hm, hok⟩
    by_contra hlt
    exact hgreatest m (Nat.lt_of_not_le hlt) hm (decide_eq_true hok)

theorem maxCapacityForMemoryBudget_pos_iff (sizeofT memoryBudgetBytes dim graphDegree : ℕ)
    {npts : ℕ} (hN : 1 ≤ npts) :
    0 < maxCapacityForMemoryBudget sizeofT memoryBudgetBytes dim graphDegree npts ↔
      estimateRamUsage 1 (dim % 2 ^ 32) sizeofT (graphDegree % 2 ^ 32) ≤
        roundTo 53 memoryBudgetBytes := by
  constructor
  · intro h
    obtain ⟨-, hfits⟩ := (maxCapacityForMemoryBudget_isGreatest h).1
    exact (estimateRamUsage_mono h _ _ _).trans hfits
  · intro h
    have hbudget : memoryBudgetBytes ≠ 0 := by
      rintro rfl
      rw [Nat.cast_zero, roundTo_zero] at h
      exact absurd h (not_le.mpr (estimateRamUsage_pos _ _ _))
    by_contra h0
    rw [maxCapacityForMemoryBudget, if_neg (by omega)] at h0
    refine (bisect_greatest ?_ npts one_pos (Nat.zero_add 1)).2.2 1 (Nat.lt_of_not_le h0) hN ?_
    · exact fits_mono sizeofT memoryBudgetBytes dim graphDegree
    · exact decide_eq_true h

theorem mul_le_numCenters_mul (maxOverlapFactor : ℚ) {maxCapacity : ℕ} (h : 0 < maxCapacity)
    (npts : ℕ) :
    maxOverlapFactor * npts ≤ numCenters maxOverlapFactor npts maxCapacity * maxCapacity := by
  have hpos : (0 : ℚ) < maxCapacity := Nat.cast_pos.mpr h
  have hceil : maxOverlapFactor * npts / maxCapacity ≤
      ⌈maxOverlapFactor * npts / maxCapacity⌉₊ := Nat.le_ceil _
  have hle : ⌈maxOverlapFactor * npts / maxCapacity⌉₊ ≤
      numCenters maxOverlapFactor npts maxCapacity := by
    simp only [numCenters]
    split_ifs <;> omega
  calc maxOverlapFactor * npts ≤ ⌈maxOverlapFactor * npts / maxCapacity⌉₊ * maxCapacity :=
        (div_le_iff₀ hpos).mp hceil
    _ ≤ numCenters maxOverlapFactor npts maxCapacity * maxCapacity :=
        mul_le_mul_of_nonneg_right (Nat.cast_le.mpr hle) hpos.le

/-! ### One point -/

section Point

variable {δ β : Type*}

/-- A point and its vector are written to the shards of a list. -/
def Shards.put (s : Shards β) (A : List ℕ) (id : ℕ) (row : β) : Shards β where
  shardCounts c := if c ∈ A then s.shardCounts c + 1 else s.shardCounts c
  data c := if c ∈ A then s.data c ++ [row] else s.data c
  idmap c := if c ∈ A then s.idmap c ++ [id % 2 ^ 32] else s.idmap c

@[simp] theorem Shards.put_nil (s : Shards β) (id : ℕ) (row : β) : s.put [] id row = s := by
  simp [Shards.put]

theorem ite_update {γ : Type*} (f : ℕ → γ) (g : γ → γ) {c : ℕ} {A : List ℕ} (hc : c ∉ A) :
    (fun e => if e ∈ A then g (Function.update f c (g (f c)) e)
      else Function.update f c (g (f c)) e) = fun e => if e ∈ c :: A then g (f e) else f e := by
  funext e
  by_cases he : e = c
  · simp [he, hc]
  · simp [he]

/-- The shards after the first are written like the first. -/
theorem Shards.put_assign (s : Shards β) {c : ℕ} {A : List ℕ} (hc : c ∉ A) (id : ℕ) (row : β) :
    (s.assign c id row).put A id row = s.put (c :: A) id row := by
  simp only [Shards.put, Shards.assign, Shards.mk.injEq]
  exact ⟨ite_update s.shardCounts (· + 1) hc, ite_update s.data (· ++ [row]) hc,
    ite_update s.idmap (· ++ [id % 2 ^ 32]) hc⟩

variable [LinearOrder δ] [Zero δ] [Add δ] [Mul δ] [Div δ] [NatCast δ]

variable (cfg : Settings δ) (id : ℕ) (row : β)

omit [Zero δ] in
/-- The point goes to some of the shards, no more than are left, each with room. -/
theorem greedy_eq_put (dists : List (ℕ × δ)) (st : Scan δ) (s : Shards β)
    (hnd : (dists.map Prod.fst).Nodup) :
    ∃ A : List ℕ, A.Sublist (dists.map Prod.fst) ∧
      A.length ≤ cfg.maxOverlapCount - st.curOLPCnt ∧
      (∀ c ∈ A, s.shardCounts c < cfg.maxCapacity) ∧
      (greedy cfg id row dists st s).2 = s.put A id row ∧
      ((greedy cfg id row dists st s).1.assignedToAnyShard = true ↔
        st.assignedToAnyShard = true ∨ A ≠ []) := by
  induction dists generalizing st s with
  | nil =>
    exact ⟨[], List.Sublist.refl _, Nat.zero_le _, by simp, by simp [greedy], by simp [greedy]⟩
  | cons e dists ih =>
    obtain ⟨c, d⟩ := e
    rw [List.map_cons, List.nodup_cons] at hnd
    rw [greedy, List.map_cons]
    by_cases hcnt : cfg.maxOverlapCount ≤ st.curOLPCnt
    · rw [if_pos hcnt]
      exact ⟨[], List.nil_sublist _, Nat.zero_le _, by simp, by simp, by simp⟩
    rw [if_neg hcnt]
    by_cases hd : d ≤ cfg.epsilon * st.curAVGDist
    · rw [if_pos hd]
      by_cases hroom : s.shardCounts c < cfg.maxCapacity
      · simp only [if_pos hroom]
        obtain ⟨A, hsub, hlen, hA, hput, hass⟩ := ih
          { curOLPCnt := st.curOLPCnt + 1, curOLPFactor := st.curOLPFactor + 1,
            accDist := st.accDist + d,
            curAVGDist := (st.accDist + d) / ((st.curOLPFactor + 1 : ℕ) : δ),
            assignedToAnyShard := true } (s.assign c id row) hnd.2
        have hc : c ∉ A := fun h => hnd.1 (hsub.mem h)
        refine ⟨c :: A, hsub.cons_cons c, ?_, ?_, ?_, ?_⟩
        · rw [List.length_cons]
          simp only at hlen
          omega
        · intro e he
          rcases List.mem_cons.mp he with rfl | he
          · exact hroom
          · have hne : e ≠ c := fun h => hc (h ▸ he)
            simpa [Shards.assign, hne] using hA e he
        · rw [hput, s.put_assign hc]
        · simp [hass]
      · simp only [if_neg hroom]
        obtain ⟨A, hsub, hlen, hA, hput, hass⟩ := ih
          { st with curOLPFactor := st.curOLPFactor + 1, accDist := st.accDist + d,
                    curAVGDist := cfg.infinity } s hnd.2
        exact ⟨A, hsub.cons c, hlen, hA, hput, hass⟩
    · rw [if_neg hd]
      obtain ⟨A, hsub, hlen, hA, hput, hass⟩ := ih st s hnd.2
      exact ⟨A, hsub.cons c, hlen, hA, hput, hass⟩

omit [Zero δ] in
/-- While only full shards are met every distance is near enough, so the first with
room takes the point. -/
theorem greedy_assigned (dists : List (ℕ × δ)) (st : Scan δ) (s : Shards β)
    (hnd : (dists.map Prod.fst).Nodup) (hcnt : st.curOLPCnt < cfg.maxOverlapCount)
    (havg : st.curAVGDist = cfg.infinity)
    (hnear : ∀ e ∈ dists, e.2 ≤ cfg.epsilon * cfg.infinity)
    (hroom : ∃ e ∈ dists, s.shardCounts e.1 < cfg.maxCapacity) :
    (greedy cfg id row dists st s).1.assignedToAnyShard = true := by
  induction dists generalizing st with
  | nil => simp at hroom
  | cons e dists ih =>
    obtain ⟨c, d⟩ := e
    rw [List.map_cons, List.nodup_cons] at hnd
    have hd : d ≤ cfg.epsilon * st.curAVGDist := by
      rw [havg]
      exact hnear (c, d) List.mem_cons_self
    rw [greedy, if_neg (Nat.not_le.mpr hcnt), if_pos hd]
    by_cases hc : s.shardCounts c < cfg.maxCapacity
    · simp only [if_pos hc]
      obtain ⟨A, -, -, -, -, hass⟩ := greedy_eq_put cfg id row dists _ (s.assign c id row) hnd.2
      exact hass.mpr (.inl rfl)
    · simp only [if_neg hc]
      refine ih _ hnd.2 hcnt rfl (fun e he => hnear e (List.mem_cons_of_mem _ he)) ?_
      obtain ⟨e, he, hlt⟩ := hroom
      rcases List.mem_cons.mp he with rfl | he
      · exact absurd hlt hc
      · exact ⟨e, he, hlt⟩

end Point

/-! ### All points -/

section Points

variable {δ β : Type*}

def shardsOf (numCenters : ℕ) (idmap : ℕ → List ℕ) (v : ℕ) : Finset ℕ :=
  (Finset.range numCenters).filter fun c => v ∈ idmap c

/-- `std::sort` by the distance. -/
structure Input.SortSpec [LinearOrder δ] (inp : Input δ β) : Prop where
  perm : ∀ dists, (inp.sort dists).Perm dists
  sorted : ∀ dists, (inp.sort dists).Pairwise fun a b => a.2 ≤ b.2

/-- The state after the points below `i`. -/
structure Assigned (cfg : Settings δ) (inp : Input δ β) (i : ℕ) (st : State β) : Prop where
  counts : ∀ c, (st.shards.idmap c).length = st.shards.shardCounts c
  capacity : ∀ c, st.shards.shardCounts c ≤ cfg.maxCapacity
  data : ∀ c, st.shards.data c = (st.shards.idmap c).map inp.rows
  ascending : ∀ c, (st.shards.idmap c).Pairwise (· < ·)
  below : ∀ c, ∀ v ∈ st.shards.idmap c, v < i
  covered : ∀ v < i, 1 ≤ (shardsOf inp.numCenters st.shards.idmap v).card ∧
    (shardsOf inp.numCenters st.shards.idmap v).card ≤ cfg.maxOverlapCount
  total : ∑ c ∈ Finset.range inp.numCenters, st.shards.shardCounts c ≤ i * cfg.maxOverlapCount
  assigned : st.pointsWithAssignment = i
  unassigned : st.unassignedCount = 0

theorem card_filter_mem {P : ℕ} {A : List ℕ} (hnd : A.Nodup) (hA : ∀ c ∈ A, c < P) :
    ((Finset.range P).filter (· ∈ A)).card = A.length := by
  rw [← List.toFinset_card_of_nodup hnd]
  congr 1
  ext c
  simp only [Finset.mem_filter, Finset.mem_range, List.mem_toFinset]
  exact ⟨fun h => h.2, fun h => ⟨hA c h, h⟩⟩

theorem Shards.idmap_put (s : Shards β) (A : List ℕ) {i : ℕ} (hi : i < 2 ^ 32) (row : β) (c : ℕ) :
    (s.put A i row).idmap c = if c ∈ A then s.idmap c ++ [i] else s.idmap c := by
  rw [Shards.put, Nat.mod_eq_of_lt hi]

theorem Shards.mem_idmap_put (s : Shards β) {A : List ℕ} {i : ℕ} (hi : i < 2 ^ 32) (row : β)
    (c v : ℕ) : v ∈ (s.put A i row).idmap c ↔ v ∈ s.idmap c ∨ c ∈ A ∧ v = i := by
  rw [s.idmap_put A hi]
  by_cases hc : c ∈ A <;> simp [hc]

theorem Shards.sum_shardCounts_put (s : Shards β) {P : ℕ} {A : List ℕ} (hnd : A.Nodup)
    (hA : ∀ c ∈ A, c < P) (i : ℕ) (row : β) :
    ∑ c ∈ Finset.range P, (s.put A i row).shardCounts c =
      ∑ c ∈ Finset.range P, s.shardCounts c + A.length := by
  rw [← card_filter_mem hnd hA, Finset.card_filter, ← Finset.sum_add_distrib]
  refine Finset.sum_congr rfl fun c _ => ?_
  by_cases hc : c ∈ A <;> simp [Shards.put, hc]

theorem Assigned.put {cfg : Settings δ} {inp : Input δ β} {i : ℕ} {st : State β}
    (h : Assigned cfg inp i st) (hi : i < 2 ^ 32) {A : List ℕ} (hnd : A.Nodup)
    (hA : ∀ c ∈ A, c < inp.numCenters ∧ st.shards.shardCounts c < cfg.maxCapacity)
    (hpos : A ≠ []) (hlen : A.length ≤ cfg.maxOverlapCount) :
    Assigned cfg inp (i + 1)
      { shards := st.shards.put A i (inp.rows i),
        pointsWithAssignment := st.pointsWithAssignment + 1
        unassignedCount := st.unassignedCount } := by
  have hlt : ∀ c ∈ A, c < inp.numCenters := fun c hc => (hA c hc).1
  have hmap := st.shards.idmap_put A hi (inp.rows i)
  have hmem := st.shards.mem_idmap_put (A := A) hi (inp.rows i)
  constructor
  case counts =>
    intro c
    by_cases hc : c ∈ A <;> simp [Shards.put, hc, h.counts]
  case capacity =>
    intro c
    by_cases hc : c ∈ A
    · simpa [Shards.put, hc] using Nat.succ_le_of_lt (hA c hc).2
    · simpa [Shards.put, hc] using h.capacity c
  case data =>
    intro c
    rw [hmap]
    by_cases hc : c ∈ A <;> simp [Shards.put, hc, h.data]
  case ascending =>
    intro c
    rw [hmap]
    by_cases hc : c ∈ A
    · simpa [hc, List.pairwise_append] using ⟨h.ascending c, h.below c⟩
    · simpa [hc] using h.ascending c
  case below =>
    intro c v hv
    rcases (hmem c v).mp hv with hv | ⟨-, rfl⟩
    · exact Nat.lt_succ_of_lt (h.below c v hv)
    · exact Nat.lt_succ_self v
  case covered =>
    intro v hv
    rcases Nat.lt_succ_iff_lt_or_eq.mp hv with hlt | rfl
    · have hsame : shardsOf inp.numCenters (st.shards.put A i (inp.rows i)).idmap v =
          shardsOf inp.numCenters st.shards.idmap v := by
        refine Finset.filter_congr fun c _ => ?_
        rw [hmem]
        exact or_iff_left fun hc => hlt.ne hc.2
      rw [hsame]
      exact h.covered v hlt
    · have hnew : shardsOf inp.numCenters (st.shards.put A v (inp.rows v)).idmap v =
          (Finset.range inp.numCenters).filter (· ∈ A) := by
        refine Finset.filter_congr fun c _ => ?_
        rw [hmem]
        refine (or_iff_right fun hc => ?_).trans (and_iff_left rfl)
        exact lt_irrefl v (h.below c v hc)
      rw [hnew, card_filter_mem hnd hlt]
      exact ⟨List.length_pos_iff.mpr hpos, hlen⟩
  case total =>
    rw [st.shards.sum_shardCounts_put hnd hlt, Nat.succ_mul]
    exact Nat.add_le_add h.total hlen
  case assigned => exact congrArg (· + 1) h.assigned
  case unassigned => exact h.unassigned

variable [LinearOrder δ] [Mul δ]

structure Roomy (cfg : Settings δ) (inp : Input δ β) : Prop where
  points : inp.numPoints < 2 ^ 32
  sort : inp.SortSpec
  near : ∀ i < inp.numPoints, ∀ c < inp.numCenters, inp.dist i c ≤ cfg.epsilon * cfg.infinity
  overlap : 1 ≤ cfg.maxOverlapCount
  room : inp.numPoints * cfg.maxOverlapCount ≤ inp.numCenters * cfg.maxCapacity

variable {cfg : Settings δ} {inp : Input δ β}

/-- The points before one do not fill all shards. -/
theorem exists_room (hr : Roomy cfg inp) {i : ℕ} (hi : i < inp.numPoints) {st : State β}
    (h : Assigned cfg inp i st) :
    ∃ c < inp.numCenters, st.shards.shardCounts c < cfg.maxCapacity := by
  by_contra hno
  push Not at hno
  have hfull : inp.numCenters * cfg.maxCapacity ≤
      ∑ c ∈ Finset.range inp.numCenters, st.shards.shardCounts c := by
    have := Finset.card_nsmul_le_sum (Finset.range inp.numCenters) st.shards.shardCounts
      cfg.maxCapacity fun c hc => hno c (Finset.mem_range.mp hc)
    simpa using this
  have hlt : i * cfg.maxOverlapCount < inp.numPoints * cfg.maxOverlapCount :=
    Nat.mul_lt_mul_of_pos_right hi hr.overlap
  exact absurd (hfull.trans h.total) (Nat.not_le.mpr (hlt.trans_le hr.room))

variable [Zero δ] [Add δ] [Div δ] [NatCast δ]

theorem assignPoint_assigned (hr : Roomy cfg inp) {i : ℕ} (hi : i < inp.numPoints) {st : State β}
    (h : Assigned cfg inp i st) : Assigned cfg inp (i + 1) (assignPoint cfg inp st i) := by
  have hperm : ((inp.sort (inp.dists i)).map Prod.fst).Perm (List.range inp.numCenters) := by
    have := (hr.sort.perm (inp.dists i)).map Prod.fst
    rwa [Input.dists, List.map_map, Function.comp_def, List.map_id'] at this
  have hnd : ((inp.sort (inp.dists i)).map Prod.fst).Nodup :=
    hperm.nodup_iff.mpr List.nodup_range
  obtain ⟨A, hsub, hlen, hroom, hput, hass⟩ := greedy_eq_put cfg i (inp.rows i)
    (inp.sort (inp.dists i)) (Scan.start cfg.infinity) st.shards hnd
  have hmem : ∀ e, e ∈ inp.sort (inp.dists i) ↔ ∃ c < inp.numCenters, (c, inp.dist i c) = e := by
    intro e
    rw [(hr.sort.perm (inp.dists i)).mem_iff, Input.dists]
    simp
  have htrue : (greedy cfg i (inp.rows i) (inp.sort (inp.dists i)) (Scan.start cfg.infinity)
      st.shards).1.assignedToAnyShard = true := by
    refine greedy_assigned cfg i _ _ _ _ hnd hr.overlap rfl ?_ ?_
    · intro e he
      obtain ⟨c, hc, rfl⟩ := (hmem e).mp he
      exact hr.near i hi c hc
    · obtain ⟨c, hc, hlt⟩ := exists_room hr hi h
      exact ⟨_, (hmem _).mpr ⟨c, hc, rfl⟩, hlt⟩
  have hA : A ≠ [] := (hass.mp htrue).resolve_left Bool.false_ne_true
  have hnext := h.put (hi.trans hr.points) (hsub.nodup hnd)
    (fun c hc => ⟨List.mem_range.mp (hperm.mem_iff.mp (hsub.mem hc)), hroom c hc⟩) hA hlen
  simp only [assignPoint, htrue, if_true, hput]
  exact hnext

theorem foldl_assignPoint (hr : Roomy cfg inp) {i n : ℕ} (hn : i + n ≤ inp.numPoints)
    {st : State β} (h : Assigned cfg inp i st) : Assigned cfg inp (i + n)
      ((List.range n).foldl (fun st p => assignPoint cfg inp st (i + p)) st) := by
  induction n with
  | zero => exact h
  | succ n ih =>
    have hlt : i + n < inp.numPoints := by omega
    rw [List.range_succ, List.foldl_append]
    exact assignPoint_assigned hr hlt (ih hlt.le)

/-- The blocks make no difference. -/
theorem assignAll_assigned (hr : Roomy cfg inp) {blockSize : ℕ} (hb : 0 < blockSize)
    (hN : 0 < inp.numPoints) : Assigned cfg inp inp.numPoints (assignAll cfg inp blockSize) := by
  rw [assignAll]
  set B := if inp.numPoints < blockSize then inp.numPoints else blockSize with hB
  have hBpos : 0 < B := by
    rw [hB]
    split_ifs <;> assumption
  have hblocks : ∀ n, Assigned cfg inp (min (n * B) inp.numPoints)
      ((List.range n).foldl (assignBlock cfg inp B)
        { shards := { shardCounts := fun _ => 0, data := fun _ => [], idmap := fun _ => [] },
          pointsWithAssignment := 0, unassignedCount := 0 }) := by
    intro n
    induction n with
    | zero =>
      rw [Nat.zero_mul, Nat.zero_min]
      constructor <;> simp
    | succ n ih =>
      rw [List.range_succ, List.foldl_append, List.foldl_cons, List.foldl_nil, assignBlock]
      have hsucc : (n + 1) * B = n * B + B := Nat.succ_mul n B
      rcases Nat.le_total inp.numPoints (n * B) with hle | hle
      · -- a block beyond the points is empty
        have hend : min ((n + 1) * B) inp.numPoints - n * B = 0 := by omega
        rw [hend, Nat.min_eq_right (by omega), ← Nat.min_eq_right hle]
        exact ih
      · have hend : min ((n + 1) * B) inp.numPoints =
            n * B + (min ((n + 1) * B) inp.numPoints - n * B) := by omega
        rw [Nat.min_eq_left hle] at ih
        have := foldl_assignPoint hr (by omega) ih
          (n := min ((n + 1) * B) inp.numPoints - n * B)
        rwa [← hend] at this
  have hcover : inp.numPoints ≤ (inp.numPoints + B - 1) / B * B := by
    have := Nat.lt_mul_div_succ (inp.numPoints + B - 1) hBpos
    rw [Nat.mul_succ, Nat.mul_comm] at this
    omega
  have := hblocks ((inp.numPoints + B - 1) / B)
  rwa [Nat.min_eq_right hcover] at this

theorem sogaicShardDataIntoClusters_ok (hr : Roomy cfg inp) {blockSize : ℕ} (hb : 0 < blockSize)
    (hN : 0 < inp.numPoints) (dim : ℕ) : ∃ s : State β, Assigned cfg inp inp.numPoints s ∧
      sogaicShardDataIntoClusters cfg inp dim dim blockSize = .ok (finalize dim s.shards) := by
  have h := assignAll_assigned hr hb hN
  refine ⟨_, h, ?_⟩
  have hover : (List.range inp.numCenters).countP (fun i =>
      decide (cfg.maxCapacity < (assignAll cfg inp blockSize).shards.shardCounts i)) = 0 := by
    rw [List.countP_eq_zero]
    intro c _
    simpa using h.capacity c
  have hcount := hr.overlap
  rw [sogaicShardDataIntoClusters, if_neg (not_not.mpr rfl), if_neg (by omega)]
  simp [h.assigned, h.unassigned, hover]

end Points

/-! ### The partition -/

section Partition

variable {δ β : Type*} [LinearOrder δ] [Zero δ] [Add δ] [Mul δ] [Div δ] [NatCast δ]

/-- The files of the shards are a partition with overlaps. -/
structure Partitioned (cfg : Settings δ) (inp : Input δ β) (files : ℕ → ShardFiles β) : Prop where
  covered : ∀ v < inp.numPoints,
    1 ≤ (shardsOf inp.numCenters (fun c => (files c).idmap) v).card ∧
    (shardsOf inp.numCenters (fun c => (files c).idmap) v).card ≤ ⌊cfg.maxOverlapFactor⌋₊
  capacity : ∀ c, (files c).idmap.length ≤ cfg.maxCapacity
  points : ∀ c, ∀ v ∈ (files c).idmap, v < inp.numPoints
  ascending : ∀ c, (files c).idmap.Pairwise (· < ·)
  idmapHeader : ∀ c, (files c).idmapCount = (files c).idmap.length
  dataHeader : ∀ c, (files c).dataCount = (files c).data.length
  data : ∀ c, (files c).data = (files c).idmap.map inp.rows

omit [LinearOrder δ] [Zero δ] [Add δ] [Mul δ] [Div δ] [NatCast δ] in
theorem Assigned.partitioned {cfg : Settings δ} {inp : Input δ β} {st : State β}
    (h : Assigned cfg inp inp.numPoints st) (hcap : cfg.maxCapacity < 2 ^ 32) (dim : ℕ) :
    Partitioned cfg inp (finalize dim st.shards) := by
  have hmod : ∀ c, st.shards.shardCounts c % 2 ^ 32 = (st.shards.idmap c).length := by
    intro c
    rw [h.counts, Nat.mod_eq_of_lt ((h.capacity c).trans_lt hcap)]
  constructor
  case covered => exact h.covered
  case capacity => exact fun c => (h.counts c).trans_le (h.capacity c)
  case points => exact h.below
  case ascending => exact h.ascending
  case idmapHeader => exact hmod
  case dataHeader =>
    intro c
    simp only [finalize, h.data, List.length_map]
    exact hmod c
  case data => exact h.data

omit [Zero δ] [Add δ] [Div δ] [NatCast δ] in
theorem roomy_of_planned {cfg : Settings δ} {inp : Input δ β} (hN32 : inp.numPoints < 2 ^ 32)
    (hsort : inp.SortSpec) (hΩ : 1 ≤ cfg.maxOverlapFactor) (hpos : 0 < cfg.maxCapacity)
    (hP : inp.numCenters = numCenters cfg.maxOverlapFactor inp.numPoints cfg.maxCapacity)
    (hnear : ∀ i < inp.numPoints, ∀ c < inp.numCenters,
      inp.dist i c ≤ cfg.epsilon * cfg.infinity) : Roomy cfg inp where
  points := hN32
  sort := hsort
  near := hnear
  overlap := Nat.le_floor (by exact_mod_cast hΩ)
  room := by
    have hfloor : (cfg.maxOverlapCount : ℚ) ≤ cfg.maxOverlapFactor :=
      Nat.floor_le (zero_le_one.trans hΩ)
    have hle := mul_le_numCenters_mul cfg.maxOverlapFactor hpos inp.numPoints
    rw [← hP, mul_comm] at hle
    exact_mod_cast (mul_le_mul_of_nonneg_left hfloor (Nat.cast_nonneg inp.numPoints)).trans hle

/-- A shard holds as many points as fit the budget, and the assignment to the shards
that the overlap factor asks for succeeds. -/
theorem sogaic_assignment {cfg : Settings δ} {inp : Input δ β} (hN : 1 ≤ inp.numPoints)
    (hN32 : inp.numPoints < 2 ^ 32) (hsort : inp.SortSpec) (hΩ : 1 ≤ cfg.maxOverlapFactor)
    (sizeofT memoryBudgetBytes dim graphDegree : ℕ)
    (hΓ : cfg.maxCapacity =
      maxCapacityForMemoryBudget sizeofT memoryBudgetBytes dim graphDegree inp.numPoints)
    (hpos : 0 < cfg.maxCapacity)
    (hP : inp.numCenters = numCenters cfg.maxOverlapFactor inp.numPoints cfg.maxCapacity)
    (hnear : ∀ i < inp.numPoints, ∀ c < inp.numCenters,
      inp.dist i c ≤ cfg.epsilon * cfg.infinity) {blockSize : ℕ} (hb : 0 < blockSize) :
    IsGreatest {m | m ≤ inp.numPoints ∧
        estimateRamUsage m (dim % 2 ^ 32) sizeofT (graphDegree % 2 ^ 32) ≤
          roundTo 53 memoryBudgetBytes}
      cfg.maxCapacity ∧
    ∃ files, sogaicShardDataIntoClusters cfg inp dim dim blockSize = .ok files ∧
      Partitioned cfg inp files := by
  have hgreatest := maxCapacityForMemoryBudget_isGreatest (hΓ ▸ hpos)
  rw [← hΓ] at hgreatest
  obtain ⟨st, hst, hok⟩ := sogaicShardDataIntoClusters_ok
    (roomy_of_planned hN32 hsort hΩ hpos hP hnear) hb hN dim
  exact ⟨hgreatest, _, hok, hst.partitioned (hgreatest.1.1.trans_lt hN32) dim⟩

/-- Shards of two points, of which each may be in two. -/
def twoEach : Settings ℚ where
  maxOverlapFactor := 2
  epsilon := 2
  infinity := 10
  maxCapacity := 2

/-- Three points on a line and three centroids, one step off the points. -/
def threeInLine : Input ℚ ℕ where
  numPoints := 3
  numCenters := 3
  rows i := i
  dist i c := 1 + |(i : ℚ) - c|
  sort := List.insertionSort fun a b => a.2 ≤ b.2

theorem twoEach_capacity : twoEach.maxCapacity = maxCapacityForMemoryBudget 4 200 1 1 3 := by
  have hpos : 0 < maxCapacityForMemoryBudget 4 200 1 1 3 := by
    rw [maxCapacityForMemoryBudget_pos_iff _ _ _ _ (by decide)]
    decide +kernel
  refine (maxCapacityForMemoryBudget_isGreatest hpos).unique
    ⟨⟨by decide, by decide +kernel⟩, fun m hm => ?_⟩ |>.symm
  have hthree : ¬ estimateRamUsage 3 (1 % 2 ^ 32) 4 (1 % 2 ^ 32) ≤ roundTo 53 (200 : ℕ) := by
    decide +kernel
  have hne : m ≠ 3 := fun he => hthree (he ▸ hm.2)
  have := hm.1
  change m ≤ 2
  omega

/-- Two shards are full with the first two points, so that the third is in one only. -/
theorem three_assigned : IsGreatest {m | m ≤ 3 ∧
      estimateRamUsage m (1 % 2 ^ 32) 4 (1 % 2 ^ 32) ≤ roundTo 53 (200 : ℕ)} 2 ∧
    ∃ files, sogaicShardDataIntoClusters twoEach threeInLine 1 1 2 = .ok files ∧
      Partitioned twoEach threeInLine files ∧
      (List.range 3).map (fun c => (files c).idmap) = [[0, 1], [0, 1], [2]] := by
  have htot : Std.Total fun a b : ℕ × ℚ => a.2 ≤ b.2 := ⟨fun _ _ => le_total _ _⟩
  have htrans : IsTrans (ℕ × ℚ) fun a b => a.2 ≤ b.2 := ⟨fun _ _ _ h h' => h.trans h'⟩
  have hnear : ∀ i < 3, ∀ c < 3, threeInLine.dist i c ≤ twoEach.epsilon * twoEach.infinity := by
    decide +kernel
  have hsort : threeInLine.SortSpec :=
    ⟨fun _ => List.perm_insertionSort _ _, fun _ => List.pairwise_insertionSort _ _⟩
  have hΩ : 1 ≤ twoEach.maxOverlapFactor := by decide +kernel
  obtain ⟨hgreatest, files, hok, hpart⟩ := sogaic_assignment (by decide) (by decide) hsort hΩ
    4 200 1 1 twoEach_capacity (by decide) (by decide +kernel) hnear Nat.two_pos
  refine ⟨hgreatest, files, hok, hpart, ?_⟩
  have hmaps : (sogaicShardDataIntoClusters twoEach threeInLine 1 1 2).toOption.map
      (fun f => (List.range 3).map fun c => (f c).idmap) = some [[0, 1], [0, 1], [2]] := by
    decide +kernel
  rw [hok] at hmaps
  exact Option.some.inj hmaps

theorem blockSizeOf_pos (chunkBytes : Option ℕ) (bytesPerPoint : ℕ) :
    0 < blockSizeOf chunkBytes bytesPerPoint := by
  cases chunkBytes with
  | none => exact Nat.succ_pos _
  | some envTarget =>
    simp only [blockSizeOf]
    split_ifs <;> omega

/-- The program stops only when no vector fits the budget. -/
theorem sogaicPartition_ok_iff (sizeofT capacityBudgetBytes dim graphDegree : ℕ) {npts : ℕ}
    (hN : 1 ≤ npts) (hN32 : npts < 2 ^ 32) {maxOverlapFactor : ℚ} (hΩ : 1 ≤ maxOverlapFactor)
    {epsilon infinity : δ} (rows : ℕ → β) {dist : ℕ → ℕ → ℕ → δ}
    (hnear : ∀ P i c, dist P i c ≤ epsilon * infinity) {sort : List (ℕ × δ) → List (ℕ × δ)}
    (hsort : ∀ l, (sort l).Perm l ∧ (sort l).Pairwise fun a b => a.2 ≤ b.2)
    (chunkBytes : Option ℕ) :
    (∃ files, sogaicPartition sizeofT capacityBudgetBytes dim graphDegree npts maxOverlapFactor
      epsilon infinity rows dist sort chunkBytes = .ok files) ↔
    estimateRamUsage 1 (dim % 2 ^ 32) sizeofT (graphDegree % 2 ^ 32) ≤
      roundTo 53 capacityBudgetBytes := by
  rw [← maxCapacityForMemoryBudget_pos_iff _ _ _ _ hN, sogaicPartition]
  set Γ := maxCapacityForMemoryBudget sizeofT capacityBudgetBytes dim graphDegree npts
  rcases Nat.eq_zero_or_pos Γ with h0 | hpos
  · simp [h0]
  · simp only [hpos, iff_true, if_neg hpos.ne']
    set P := numCenters maxOverlapFactor npts Γ with hP
    have hr : Roomy { maxOverlapFactor, epsilon, infinity, maxCapacity := Γ }
        { numPoints := npts, numCenters := P, rows, dist := dist P, sort } :=
      roomy_of_planned hN32 ⟨fun l => (hsort l).1, fun l => (hsort l).2⟩ hΩ hpos hP
        fun i _ c _ => hnear P i c
    obtain ⟨st, -, hok⟩ := sogaicShardDataIntoClusters_ok hr (blockSizeOf_pos chunkBytes _) hN dim
    exact ⟨_, hok⟩

end Partition

end HiDANN.Baselines
