import HiDANN.Pruning.Batches
import HiDANN.Reverse.StripeBudget

/-! The two searches for a size. `pick_batch_k_local` looks for the most rows whose ids and
output fit a budget, `pick_hi` for the longest stripe whose ids fit the memory left beside
it. In exact integers what is needed grows with the size and what there is shrinks, so that
a bisection is right. The programs compute in 64 bits, where a sum that wraps makes the need
smaller: a size may then pass that does not fit, and the search is wrong when it tries one. -/

namespace HiDANN.Reverse

open Bytes Bisect Scatter Pruning

/-! ### The need of a batch -/

def rowEnd (buf : List UInt8) (i : ℕ) : ℕ := metaOff buf i + metaCnt buf i * 4

/-- The least start of the ids of the `k` rows from row `u` on, and of row `u`. -/
def leastOff (buf : List UInt8) (u : ℕ) : ℕ → ℕ
  | 0 => metaOff buf u
  | k + 1 => min (leastOff buf u k) (metaOff buf (u + k))

/-- The greatest end of the ids of the `k` rows from row `u` on. -/
def greatestEnd (buf : List UInt8) (u : ℕ) : ℕ → ℕ
  | 0 => 0
  | k + 1 => max (greatestEnd buf u k) (rowEnd buf (u + k))

/-- The span of the rows and their output bytes. -/
def batchNeed (a : Pruning.Args) (buf : List UInt8) (u k : ℕ) : ℕ :=
  greatestEnd buf u k - leastOff buf u k + 2 * k * (a.R * 4 + 4)

def batchFits (a : Pruning.Args) (b : Budget) (buf : List UInt8) (u k : ℕ) : Bool :=
  (spanBytes (span buf u k) + 2 * k * (a.R * 4 + 4)) % 2 ^ 64 ≤ b.effectiveBatchBudget

theorem pickBatchK_eq (a : Pruning.Args) (b : Budget) (buf : List UInt8) (u n : ℕ) :
    pickBatchK a b buf u n = bisect (batchFits a b buf u) 1 n 1 Nat.one_pos := rfl

section Batch

variable {a : Pruning.Args} {b : Budget} {buf : List UInt8} {u n : ℕ}

theorem leastOff_anti (buf : List UInt8) (u : ℕ) {j k : ℕ} (h : j ≤ k) :
    leastOff buf u k ≤ leastOff buf u j := by
  induction k, h using Nat.le_induction with
  | base => exact le_rfl
  | succ k _ ih => exact (min_le_left _ _).trans ih

theorem greatestEnd_mono (buf : List UInt8) (u : ℕ) {j k : ℕ} (h : j ≤ k) :
    greatestEnd buf u j ≤ greatestEnd buf u k := by
  induction k, h using Nat.le_induction with
  | base => exact le_rfl
  | succ k _ ih => exact ih.trans (le_max_left _ _)

theorem batchNeed_mono (a : Pruning.Args) (buf : List UInt8) (u : ℕ) {j k : ℕ} (h : j ≤ k) :
    batchNeed a buf u j ≤ batchNeed a buf u k := by
  have hstart := leastOff_anti buf u h
  have hend := greatestEnd_mono buf u h
  have hout := Nat.mul_le_mul_right (a.R * 4 + 4) (Nat.mul_le_mul_left 2 h)
  unfold batchNeed
  omega

theorem span_succ (buf : List UInt8) (u k : ℕ) :
    span buf u (k + 1) = spanStep buf u (span buf u k) k := by
  rw [span, List.range_succ, List.foldl_append]
  rfl

theorem metaOff_lt (buf : List UInt8) (i : ℕ) : metaOff buf i < 2 ^ 64 := by
  have hlen : (slice buf (16 * i) 8).length ≤ 8 := by
    rw [length_slice]
    exact Nat.min_le_left _ _
  calc metaOff buf i < 256 ^ (slice buf (16 * i) 8).length := val_lt _
    _ ≤ 256 ^ 8 := Nat.pow_le_pow_right (by decide) hlen
    _ = 2 ^ 64 := by norm_num

theorem span_fst (buf : List UInt8) (u k : ℕ) :
    (span buf u (k + 1)).1 = leastOff buf u (k + 1) := by
  induction k with
  | zero =>
    have hlt := metaOff_lt buf u
    change (if metaOff buf u < 2 ^ 64 - 1 then metaOff buf u else 2 ^ 64 - 1) =
      min (metaOff buf u) (metaOff buf u)
    rw [min_self]
    split_ifs with h
    · rfl
    · omega
  | succ k ih =>
    rw [span_succ, leastOff, ← ih]
    simp only [spanStep]
    split_ifs <;> omega

theorem span_snd (buf : List UInt8) (u k : ℕ) : (span buf u k).2 ≤ greatestEnd buf u k ∧
    ((∀ i < k, rowEnd buf (u + i) < 2 ^ 64) → (span buf u k).2 = greatestEnd buf u k) := by
  induction k with
  | zero => exact ⟨le_rfl, fun _ => rfl⟩
  | succ k ih =>
    obtain ⟨hle, heq⟩ := ih
    have hmod : (metaOff buf (u + k) + metaCnt buf (u + k) * 4) % 2 ^ 64 ≤ rowEnd buf (u + k) :=
      Nat.mod_le _ _
    rw [span_succ, greatestEnd]
    simp only [spanStep]
    constructor
    · split_ifs <;> omega
    · intro hend
      have hprefix := heq fun i hi => hend i (by omega)
      have hlast : (metaOff buf (u + k) + metaCnt buf (u + k) * 4) % 2 ^ 64 = rowEnd buf (u + k) :=
        Nat.mod_eq_of_lt (hend k (Nat.lt_succ_self k))
      rw [hlast, hprefix]
      split_ifs <;> omega

theorem batchFits_of_need {k : ℕ} (hk : 1 ≤ k) (h : batchNeed a buf u k ≤ b.effectiveBatchBudget) :
    batchFits a b buf u k := by
  obtain ⟨k, rfl⟩ := Nat.exists_eq_add_of_le' hk
  have hend := (span_snd buf u (k + 1)).1
  have hspan : spanBytes (span buf u (k + 1)) ≤
      greatestEnd buf u (k + 1) - leastOff buf u (k + 1) := by
    rw [spanBytes, span_fst]
    split_ifs <;> omega
  apply decide_eq_true
  calc (spanBytes (span buf u (k + 1)) + 2 * (k + 1) * (a.R * 4 + 4)) % 2 ^ 64
      ≤ spanBytes (span buf u (k + 1)) + 2 * (k + 1) * (a.R * 4 + 4) := Nat.mod_le _ _
    _ ≤ batchNeed a buf u (k + 1) := Nat.add_le_add_right hspan _
    _ ≤ b.effectiveBatchBudget := h

theorem batchNeed_of_fits (hend : ∀ i < n, rowEnd buf (u + i) < 2 ^ 64)
    (hneed : batchNeed a buf u n < 2 ^ 64) {k : ℕ} (hk : 1 ≤ k) (hkn : k ≤ n)
    (h : batchFits a b buf u k) : batchNeed a buf u k ≤ b.effectiveBatchBudget := by
  have hlt := (batchNeed_mono a buf u hkn).trans_lt hneed
  obtain ⟨k, rfl⟩ := Nat.exists_eq_add_of_le' hk
  have hlast := (span_snd buf u (k + 1)).2 fun i hi => hend i (by omega)
  have hspan : spanBytes (span buf u (k + 1)) =
      greatestEnd buf u (k + 1) - leastOff buf u (k + 1) := by
    rw [spanBytes, span_fst, hlast]
    split_ifs <;> omega
  have hfits : (spanBytes (span buf u (k + 1)) + 2 * (k + 1) * (a.R * 4 + 4)) % 2 ^ 64 ≤
      b.effectiveBatchBudget := of_decide_eq_true h
  rw [hspan] at hfits
  rwa [← Nat.mod_eq_of_lt hlt]

/-- The batch is the largest that fits exactly when none that does not passes on the way. -/
theorem pickBatchK_largest_iff (a : Pruning.Args) (b : Budget) (buf : List UInt8) (u n : ℕ) :
    LargestOr {k | 1 ≤ k ∧ k ≤ n ∧ batchNeed a buf u k ≤ b.effectiveBatchBudget} 1
        (pickBatchK a b buf u n) ↔
      ∀ k ∈ tried (batchFits a b buf u) 1 n Nat.one_pos, 1 < k → batchFits a b buf u k →
        batchNeed a buf u k ≤ b.effectiveBatchBudget := by
  have h := @largestOr_bisect_iff
    (fun k => decide (batchNeed a buf u k ≤ b.effectiveBatchBudget)) (batchFits a b buf u) 1
    (fun j k _ hjk hk => decide_eq_true ((batchNeed_mono a buf u hjk).trans (of_decide_eq_true hk)))
    (fun k hk hfit => batchFits_of_need hk (of_decide_eq_true hfit)) n Nat.one_pos
  rw [pickBatchK_eq]
  simpa only [decide_eq_true_eq] using h

end Batch

/-! ### The memory of a stripe -/

def idsBytesOf64 (off : ℕ → ℕ) (lo hi : ℕ) : ℕ := idsBytesOf off lo hi % 2 ^ 64

/-- `avail_for_U`, with the overhead in 64 bits. -/
def availForU64 (m : Memory) (N U : ℕ) : ℕ :=
  let avail := if m.safety < m.budget then m.budget - m.safety else 0
  let overhead := (4 * N + 8 * (N + 1) + 8 * U + 4 * 1024 * 1024) % 2 ^ 64
  let fill := m.payloadFill (avail - overhead)
  if U = 0 then 0
  else if avail ≤ overhead then 0
  else if fill = 0 then 0
  else if m.maxMib ≠ 0 then min fill (m.maxMib * 1024 * 1024 % 2 ^ 64)
  else fill

def stripePasses (m : Memory) (N : ℕ) (off : ℕ → ℕ) (lo mid : ℕ) : Bool :=
  availForU64 m N (mid - lo) ≠ 0 ∧ idsBytesOf64 off lo mid ≤ availForU64 m N (mid - lo)

def pickHi64 (m : Memory) (N : ℕ) (off : ℕ → ℕ) (lo : ℕ) : ℕ :=
  bisect (stripePasses m N off lo) (lo + 1) N (lo + 1) (Nat.succ_pos lo)

def StripeFits (m : Memory) (N : ℕ) (off : ℕ → ℕ) (lo hi : ℕ) : Prop :=
  availForU m N (hi - lo) ≠ 0 ∧ idsBytesOf off lo hi ≤ availForU m N (hi - lo)

instance (m : Memory) (N : ℕ) (off : ℕ → ℕ) (lo hi : ℕ) : Decidable (StripeFits m N off lo hi) :=
  instDecidableAnd

section Stripe

variable {m : Memory} {N : ℕ} {cnt : ℕ → ℕ} {lo hi : ℕ}

/-- An overhead that wraps leaves more. -/
theorem availForU_le_availForU64 (hm : Monotone m.payloadFill) (N U : ℕ) :
    availForU m N U ≤ availForU64 m N U := by
  unfold availForU availForU64
  dsimp only
  have hover := Nat.mod_le (4 * N + 8 * (N + 1) + 8 * U + 4 * 1024 * 1024) (2 ^ 64)
  generalize (4 * N + 8 * (N + 1) + 8 * U + 4 * 1024 * 1024) % 2 ^ 64 = wrapped at *
  generalize 4 * N + 8 * (N + 1) + 8 * U + 4 * 1024 * 1024 = overhead at *
  generalize (if m.safety < m.budget then m.budget - m.safety else 0) = avail
  have hfill : m.payloadFill (avail - overhead) ≤ m.payloadFill (avail - wrapped) := hm (by omega)
  split_ifs <;> omega

theorem availForU64_eq {U : ℕ} (h : 4 * N + 8 * (N + 1) + 8 * U + 4 * 1024 * 1024 < 2 ^ 64) :
    availForU64 m N U = availForU m N U := by
  rw [availForU64, availForU, Nat.mod_eq_of_lt h]

theorem stripePasses_of_fits (hm : Monotone m.payloadFill)
    (h : StripeFits m N (offElems cnt) lo hi) : stripePasses m N (offElems cnt) lo hi := by
  obtain ⟨hpos, hfits⟩ := h
  have hle := availForU_le_availForU64 hm N (hi - lo)
  apply decide_eq_true
  refine ⟨by omega, ?_⟩
  calc idsBytesOf64 (offElems cnt) lo hi ≤ idsBytesOf (offElems cnt) lo hi := Nat.mod_le _ _
    _ ≤ availForU m N (hi - lo) := hfits
    _ ≤ availForU64 m N (hi - lo) := hle

/-- Where the ids and the overhead of all nodes can be counted in 64 bits, what passes fits. -/
theorem stripePasses_iff (hids : 4 * offElems cnt N < 2 ^ 64)
    (hover : 4 * N + 8 * (N + 1) + 8 * N + 4 * 1024 * 1024 < 2 ^ 64) (hhi : hi ≤ N) :
    stripePasses m N (offElems cnt) lo hi ↔ StripeFits m N (offElems cnt) lo hi := by
  have hbytes : idsBytesOf (offElems cnt) lo hi < 2 ^ 64 := by
    have hoff : offElems cnt hi ≤ offElems cnt N := offset_le cnt hhi
    unfold idsBytesOf
    omega
  rw [stripePasses, StripeFits, decide_eq_true_eq, availForU64_eq (by omega), idsBytesOf64,
    Nat.mod_eq_of_lt hbytes]

theorem StripeFits.of_le (hm : Monotone m.payloadFill) (h : StripeFits m N (offElems cnt) lo hi)
    {mid : ℕ} (hlo : lo + 1 ≤ mid) (hmid : mid ≤ hi) : StripeFits m N (offElems cnt) lo mid := by
  obtain ⟨hpos, hfits⟩ := h
  have havail : availForU m N (hi - lo) ≤ availForU m N (mid - lo) :=
    availForU_anti hm N (by omega) (by omega)
  have hids := idsBytesOf_le cnt (le_refl lo) hmid
  exact ⟨by omega, by omega⟩

/-- The stripe is the longest that fits exactly when none that does not passes on the way. -/
theorem pickHi64_largest_iff (hm : Monotone m.payloadFill) (N : ℕ) (cnt : ℕ → ℕ) (lo : ℕ) :
    LargestOr {hi | lo + 1 ≤ hi ∧ hi ≤ N ∧ StripeFits m N (offElems cnt) lo hi} (lo + 1)
        (pickHi64 m N (offElems cnt) lo) ↔
      ∀ hi ∈ tried (stripePasses m N (offElems cnt) lo) (lo + 1) N (Nat.succ_pos lo), lo + 1 < hi →
        stripePasses m N (offElems cnt) lo hi → StripeFits m N (offElems cnt) lo hi := by
  have h := @largestOr_bisect_iff (fun hi => decide (StripeFits m N (offElems cnt) lo hi))
    (stripePasses m N (offElems cnt) lo) (lo + 1)
    (fun j k hj hjk hk => decide_eq_true ((of_decide_eq_true hk).of_le hm hj hjk))
    (fun k _ hfit => stripePasses_of_fits hm (of_decide_eq_true hfit)) N (Nat.succ_pos lo)
  rw [pickHi64]
  simpa only [decide_eq_true_eq] using h

/-- Nothing wraps, and the stripes are those of exact integers. -/
theorem pickHi64_eq (hids : 4 * offElems cnt N < 2 ^ 64)
    (hover : 4 * N + 8 * (N + 1) + 8 * N + 4 * 1024 * 1024 < 2 ^ 64) :
    pickHi64 m N (offElems cnt) lo = pickHi m N (offElems cnt) lo := by
  refine bisect_congr _ _ fun mid _ hmid => ?_
  rw [Bool.eq_iff_iff, stripePasses_iff hids hover hmid, decide_eq_true_eq]
  rfl

end Stripe

/-! ### Both searches -/

/-- Both searches find the largest size that fits, or the least size there is; in 64 bits
they end with it, and no bound they set wraps. -/
structure PickersExact (a : Pruning.Args) (b : Budget) (buf : List UInt8) (u n : ℕ) (m : Memory)
    (N : ℕ) (cnt : ℕ → ℕ) (lo : ℕ) : Prop where
  batch : LargestOr {k | 1 ≤ k ∧ k ≤ n ∧ batchNeed a buf u k ≤ b.effectiveBatchBudget} 1
    (pickBatchK a b buf u n)
  batchEnds : ∀ turns, n < turns →
    bisectMod (2 ^ 64) (batchFits a b buf u) turns 1 n 1 = some (pickBatchK a b buf u n)
  batchBounds : ∀ k ∈ tried (batchFits a b buf u) 1 n Nat.one_pos, 0 < k ∧ k + 1 < 2 ^ 64
  stripe : LargestOr {hi | lo + 1 ≤ hi ∧ hi ≤ N ∧ StripeFits m N (offElems cnt) lo hi} (lo + 1)
    (pickHi64 m N (offElems cnt) lo)
  stripeEnds : ∀ turns, N < turns →
    bisectMod (2 ^ 64) (stripePasses m N (offElems cnt) lo) turns (lo + 1) N (lo + 1) =
      some (pickHi64 m N (offElems cnt) lo)
  stripeBounds : ∀ hi ∈ tried (stripePasses m N (offElems cnt) lo) (lo + 1) N (Nat.succ_pos lo),
    0 < hi ∧ hi + 1 < 2 ^ 64

/-- The rows of a meta batch are few, and the offsets of all nodes lie in memory, so that the
bounds never wrap. The searches are exact when no size they try passes without fitting. -/
theorem pickersExact_iff (a : Pruning.Args) (b : Budget) (buf : List UInt8) (u n : ℕ)
    (hn : n ≤ b.metaBatchRows) (budget safety maxMib N : ℕ) (cnt : ℕ → ℕ) (lo : ℕ)
    (hN : 8 * (N + 1) < 2 ^ 64) :
    PickersExact a b buf u n (.ofBudget budget safety maxMib) N cnt lo ↔
      (∀ k ∈ tried (batchFits a b buf u) 1 n Nat.one_pos, 1 < k → batchFits a b buf u k →
        batchNeed a buf u k ≤ b.effectiveBatchBudget) ∧
      ∀ hi ∈ tried (stripePasses (.ofBudget budget safety maxMib) N (offElems cnt) lo) (lo + 1) N
          (Nat.succ_pos lo),
        lo + 1 < hi → stripePasses (.ofBudget budget safety maxMib) N (offElems cnt) lo hi →
          StripeFits (.ofBudget budget safety maxMib) N (offElems cnt) lo hi := by
  have hrows : n ≤ 10000000 := hn.trans (Nat.min_le_right _ _)
  have hm : Monotone (Memory.ofBudget budget safety maxMib).payloadFill := stripePayloadFill_mono
  constructor
  · intro h
    exact ⟨(pickBatchK_largest_iff a b buf u n).mp h.batch,
      (pickHi64_largest_iff hm N cnt lo).mp h.stripe⟩
  · rintro ⟨hbatch, hstripe⟩
    refine ⟨(pickBatchK_largest_iff a b buf u n).mpr hbatch, fun turns hturns => ?_, fun k hk => ?_,
      (pickHi64_largest_iff hm N cnt lo).mpr hstripe, fun turns hturns => ?_, fun k hk => ?_⟩
    · exact bisectMod_eq _ 1 Nat.one_pos (by omega) (by omega)
    · have := mem_tried hk
      omega
    · exact bisectMod_eq _ (lo + 1) (Nat.succ_pos lo) (by omega) (by omega)
    · have := mem_tried hk
      omega

/-- Where the ends of the rows, the need of all of them, the ids of all nodes and the overhead
for them can be counted in 64 bits, what the searches try passes only if it fits. -/
theorem tried_fits {a : Pruning.Args} {b : Budget} {buf : List UInt8} {u n : ℕ} {m : Memory} {N : ℕ}
    {cnt : ℕ → ℕ} {lo : ℕ} (hend : ∀ i < n, rowEnd buf (u + i) < 2 ^ 64)
    (hneed : batchNeed a buf u n < 2 ^ 64) (hids : 4 * offElems cnt N < 2 ^ 64)
    (hover : 4 * N + 8 * (N + 1) + 8 * N + 4 * 1024 * 1024 < 2 ^ 64) :
    (∀ k ∈ tried (batchFits a b buf u) 1 n Nat.one_pos, 1 < k → batchFits a b buf u k →
      batchNeed a buf u k ≤ b.effectiveBatchBudget) ∧
    ∀ hi ∈ tried (stripePasses m N (offElems cnt) lo) (lo + 1) N (Nat.succ_pos lo),
      lo + 1 < hi → stripePasses m N (offElems cnt) lo hi →
        StripeFits m N (offElems cnt) lo hi := by
  constructor
  · intro k hk _ hfits
    have hin := mem_tried hk
    exact batchNeed_of_fits hend hneed hin.1 hin.2 hfits
  · intro hi hhi _ hpass
    exact (stripePasses_iff hids hover (mem_tried hhi).2).mp hpass

/-- The rows of a meta batch are few. Where the ends of the rows, the need of all of them, the ids
of all nodes and the overhead for them can be counted in 64 bits, both searches are exact. -/
theorem pickers_exact {a : Pruning.Args} {b : Budget} {buf : List UInt8} {u n : ℕ}
    (hn : n ≤ b.metaBatchRows) (budget safety maxMib : ℕ) {N : ℕ} {cnt : ℕ → ℕ} (lo : ℕ)
    (hend : ∀ i < n, rowEnd buf (u + i) < 2 ^ 64) (hneed : batchNeed a buf u n < 2 ^ 64)
    (hids : 4 * offElems cnt N < 2 ^ 64)
    (hover : 4 * N + 8 * (N + 1) + 8 * N + 4 * 1024 * 1024 < 2 ^ 64) :
    PickersExact a b buf u n (.ofBudget budget safety maxMib) N cnt lo :=
  (pickersExact_iff a b buf u n hn budget safety maxMib N cnt lo (by omega)).mpr
    (tried_fits hend hneed hids hover)

/-- Rows of an index, each an offset and a count. -/
def indexRows (rows : List (ℕ × ℕ)) : List UInt8 :=
  rows.flatMap fun row => le 8 row.1 ++ le 4 row.2 ++ le 4 0

def oneEdge : Pruning.Args := ⟨1, 0, one_lt_word, zero_lt_word⟩

/-- A row of one id and one of two, of which the first alone fits; and the three nodes of a path. -/
theorem twoRows_exact : pickBatchK oneEdge ⟨0, 32⟩ (indexRows [(0, 1), (4, 2)]) 0 2 = 1 ∧
    PickersExact oneEdge ⟨0, 32⟩ (indexRows [(0, 1), (4, 2)]) 0 2 (.ofBudget 4194372 0 0) 3
      pathCounts 0 := by
  have hexact : PickersExact oneEdge ⟨0, 32⟩ (indexRows [(0, 1), (4, 2)]) 0 2
      (.ofBudget 4194372 0 0) 3 pathCounts 0 :=
    pickers_exact (by decide) 4194372 0 0 0 (by decide) (by decide) (by decide) (by decide)
  refine ⟨?_, hexact⟩
  rcases hexact.batch with hmax | ⟨-, hleast⟩
  · have htwo : ¬ batchNeed oneEdge (indexRows [(0, 1), (4, 2)]) 0 2 ≤ 32 := by decide
    obtain ⟨⟨hge, hle, hfits⟩, -⟩ := hmax
    rcases Nat.lt_or_eq_of_le hle with hlt | heq
    · omega
    · rw [heq] at hfits
      exact absurd hfits htwo
  · exact hleast

/-- The end of the second row wraps to zero, both rows seem to need nothing but their output,
and the search takes both; the first alone fits. -/
theorem wrapped_row_taken :
    pickBatchK oneEdge ⟨0, 32⟩ (indexRows [(0, 0), (2 ^ 64 - 4, 1)]) 0 2 = 2 ∧
      batchNeed oneEdge (indexRows [(0, 0), (2 ^ 64 - 4, 1)]) 0 2 = 2 ^ 64 + 32 ∧
      ¬ PickersExact oneEdge ⟨0, 32⟩ (indexRows [(0, 0), (2 ^ 64 - 4, 1)]) 0 2
        (.ofBudget 4194372 0 0) 3 pathCounts 0 := by
  have hone : batchFits oneEdge ⟨0, 32⟩ (indexRows [(0, 0), (2 ^ 64 - 4, 1)]) 0 1 := by decide
  have htwo : batchFits oneEdge ⟨0, 32⟩ (indexRows [(0, 0), (2 ^ 64 - 4, 1)]) 0 2 := by decide
  have hneed : batchNeed oneEdge (indexRows [(0, 0), (2 ^ 64 - 4, 1)]) 0 2 = 2 ^ 64 + 32 := by
    decide
  have hpick : pickBatchK oneEdge ⟨0, 32⟩ (indexRows [(0, 0), (2 ^ 64 - 4, 1)]) 0 2 = 2 := by
    rw [pickBatchK_eq, bisect, if_pos (by decide)]
    dsimp only
    rw [if_pos hone, bisect, if_pos (by decide)]
    dsimp only
    rw [if_pos htwo, bisect, if_neg (by decide)]
  refine ⟨hpick, hneed, fun h => ?_⟩
  have hbatch := h.batch
  rw [hpick] at hbatch
  rcases hbatch with hmax | ⟨-, hleast⟩
  · have hfits := hmax.1.2.2
    rw [hneed] at hfits
    exact absurd hfits (by decide)
  · exact absurd hleast (by decide)

end HiDANN.Reverse
