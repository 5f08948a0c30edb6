import HiDANN.Library.Rounding
import HiDANN.Library.Words
import HiDANN.Pruning.Batches

/-! The memory of the pruning program. What the resident codes and the safety share leave
of the budget goes first to the buffer of index rows, of ten thousand rows at least,
and half of the rest to a batch. The check on the resident codes does not ask for room
for that buffer, so a budget can pass it that the buffer does not fit. -/

namespace HiDANN.Pruning

open Rounding

/-! ### The program -/

/-- What the budget is computed from: 64-bit numbers of bytes, and the safety share. -/
structure MemoryArgs where
  memBudgetBytes : ℕ
  pqBytes : ℕ
  chunkBytes : ℕ
  safetyFrac : ℚ
  memBudgetBytes_lt : memBudgetBytes < 2 ^ 64
  pqBytes_lt : pqBytes < 2 ^ 64
  chunkBytes_lt : chunkBytes < 2 ^ 64
  safetyFrac_nonneg : 0 ≤ safetyFrac
  safetyFrac_lt_one : safetyFrac < 1

def pruneBatchPayloadFill : ℚ := 1 / 2

def pruneBatchMaxBytes : ℕ := 768 * 1024 * 1024

namespace MemoryArgs

variable (m : MemoryArgs)

/-- The product has the 64 digits of a long double. -/
def safety : ℕ := ⌊roundTo 64 (m.memBudgetBytes * m.safetyFrac)⌋₊

/-- The check on the resident codes. -/
def PassesPqCheck : Prop := (m.pqBytes + m.safety) % 2 ^ 64 < m.memBudgetBytes

instance : Decidable m.PassesPqCheck := inferInstanceAs (Decidable (_ < _))

def memAvailForBatch : ℕ := Words.sub 64 (Words.sub 64 m.memBudgetBytes m.pqBytes) m.safety

/-- A tenth, in doubles of 53 digits. -/
def metaRamTarget : ℕ := ⌊roundTo 53 (roundTo 53 m.memAvailForBatch * roundTo 53 (1 / 10))⌋₊

def metaBatchRows : ℕ := min (max (m.metaRamTarget / 16) 10000) 10000000

/-- `mem_avail_for_batch`, reduced by the size of the buffer of rows. -/
def memAfterMeta : ℕ := Words.sub 64 m.memAvailForBatch (m.metaBatchRows * 16)

def effectiveBatchBudget : ℕ :=
  let budget := ⌊roundTo 64 (m.memAfterMeta * pruneBatchPayloadFill)⌋₊
  let budget := if 0 < m.chunkBytes then min budget m.chunkBytes else budget
  min budget pruneBatchMaxBytes

/-- The sizes of the batches, or why the program stops. -/
def batchSizes : Except String Budget :=
  if m.PassesPqCheck then
    if m.effectiveBatchBudget = 0 then .error "effective pruning batch budget is zero"
    else .ok ⟨m.metaRamTarget, m.effectiveBatchBudget⟩
  else .error ("PQ resident bytes exceed mem budget. " ++
    "Streaming optimization cannot fix this if PQ itself is too big.")

/-- No difference wraps around, and the two buffers fit what they are to share. -/
structure WithinBudget : Prop where
  pqBytes_le : m.pqBytes ≤ m.memBudgetBytes
  safety_le : m.safety ≤ m.memBudgetBytes - m.pqBytes
  metaBytes_le : m.metaBatchRows * 16 ≤ m.memAvailForBatch
  fits : m.metaBatchRows * 16 + m.effectiveBatchBudget ≤ m.memBudgetBytes - m.pqBytes - m.safety

/-! ### The shares -/

theorem safety_le_memBudgetBytes : m.safety ≤ m.memBudgetBytes := by
  have hnonneg : (0 : ℚ) ≤ m.memBudgetBytes := Nat.cast_nonneg _
  have hle : m.memBudgetBytes * m.safetyFrac ≤ (m.memBudgetBytes : ℚ) :=
    mul_le_of_le_one_right hnonneg m.safetyFrac_lt_one.le
  exact Nat.floor_le_of_le
    (roundTo_le_natCast m.memBudgetBytes_lt (mul_nonneg hnonneg m.safetyFrac_nonneg) hle)

/-- Three roundings do not make a tenth more than the whole. -/
theorem metaRamTarget_le : m.metaRamTarget ≤ m.memAvailForBatch := by
  have hnonneg : (0 : ℚ) ≤ m.memAvailForBatch := Nat.cast_nonneg _
  have havail : roundTo 53 m.memAvailForBatch ≤ 2 * (m.memAvailForBatch : ℚ) :=
    roundTo_le_two_mul (by decide) hnonneg
  have htenth : roundTo 53 (1 / 10) ≤ 2 * (1 / 10) := roundTo_le_two_mul (by decide) (by norm_num)
  have hprod : roundTo 53 m.memAvailForBatch * roundTo 53 (1 / 10) ≤
      2 * m.memAvailForBatch * (2 * (1 / 10)) :=
    mul_le_mul havail htenth (roundTo_nonneg _ (by norm_num)) (by linarith)
  have hround := roundTo_le_two_mul (p := 53) (by decide)
    (mul_nonneg (roundTo_nonneg 53 hnonneg) (roundTo_nonneg 53 (by norm_num : (0 : ℚ) ≤ 1 / 10)))
  exact Nat.floor_le_of_le (by linarith)

theorem effectiveBatchBudget_le : m.effectiveBatchBudget ≤ m.memAfterMeta := by
  have hnonneg : (0 : ℚ) ≤ m.memAfterMeta := Nat.cast_nonneg _
  have hround : roundTo 64 (m.memAfterMeta * pruneBatchPayloadFill) ≤ (m.memAfterMeta : ℚ) := by
    have := roundTo_le_two_mul (p := 64) (q := m.memAfterMeta * pruneBatchPayloadFill)
      (by decide) (mul_nonneg hnonneg (by norm_num [pruneBatchPayloadFill]))
    refine this.trans (le_of_eq ?_)
    rw [pruneBatchPayloadFill]
    ring
  have hfloor := Nat.floor_le_of_le hround
  unfold effectiveBatchBudget
  dsimp only
  split_ifs <;> omega

theorem metaBytes_le_iff :
    m.metaBatchRows * 16 ≤ m.memAvailForBatch ↔ 160000 ≤ m.memAvailForBatch := by
  have := m.metaRamTarget_le
  unfold metaBatchRows
  omega

theorem memAvailForBatch_eq (hpq : m.pqBytes ≤ m.memBudgetBytes)
    (hsafety : m.safety ≤ m.memBudgetBytes - m.pqBytes) :
    m.memAvailForBatch = m.memBudgetBytes - m.pqBytes - m.safety := by
  have hlt := m.memBudgetBytes_lt
  rw [memAvailForBatch, Words.sub_of_le hpq hlt,
    Words.sub_of_le hsafety ((Nat.sub_le _ _).trans_lt hlt)]

/-! ### The budget -/

/-- The buffers stay within the budget exactly when it has room for the resident codes,
the safety share and ten thousand index rows. -/
theorem withinBudget_iff :
    m.WithinBudget ↔ m.pqBytes + m.safety + 160000 ≤ m.memBudgetBytes := by
  constructor
  · intro h
    have havail := m.memAvailForBatch_eq h.pqBytes_le h.safety_le
    have hrows := m.metaBytes_le_iff.mp h.metaBytes_le
    omega
  · intro h
    have hpq : m.pqBytes ≤ m.memBudgetBytes := by omega
    have hsafety : m.safety ≤ m.memBudgetBytes - m.pqBytes := by omega
    have havail := m.memAvailForBatch_eq hpq hsafety
    have hmeta : m.metaBatchRows * 16 ≤ m.memAvailForBatch := m.metaBytes_le_iff.mpr (by omega)
    refine ⟨hpq, hsafety, hmeta, ?_⟩
    have hafter : m.memAfterMeta = m.memAvailForBatch - m.metaBatchRows * 16 :=
      Words.sub_of_le hmeta (Words.sub_lt ..)
    have := m.effectiveBatchBudget_le
    omega

/-- The room that is left is enough for a budget to pass the check. -/
theorem passesPqCheck_of_room (h : m.pqBytes + m.safety + 160000 ≤ m.memBudgetBytes) :
    m.PassesPqCheck := by
  have := m.memBudgetBytes_lt
  unfold PassesPqCheck
  rw [Nat.mod_eq_of_lt (by omega)]
  omega

/-- Every budget that passes the check is kept to exactly when each of them has that room. -/
theorem accepted_withinBudget_iff :
    (m.PassesPqCheck → m.WithinBudget) ↔
      (m.PassesPqCheck → m.pqBytes + m.safety + 160000 ≤ m.memBudgetBytes) := by
  rw [withinBudget_iff]

/-- The sizes the program goes on with fit such a budget. -/
theorem fits_of_batchSizes_eq {b : Budget} (hb : m.batchSizes = .ok b)
    (h : m.pqBytes + m.safety + 160000 ≤ m.memBudgetBytes) :
    b.metaBatchRows * 16 + b.effectiveBatchBudget ≤ m.memBudgetBytes - m.pqBytes - m.safety := by
  have hfits := (m.withinBudget_iff.mpr h).fits
  unfold batchSizes at hb
  split_ifs at hb
  cases hb
  exact hfits

/-- Where the rows do not fit, what is left wraps around, and the cap is all that limits
a batch. -/
theorem effectiveBatchBudget_of_lt (h : m.memAvailForBatch < 160000) :
    m.effectiveBatchBudget =
      if 0 < m.chunkBytes then min m.chunkBytes pruneBatchMaxBytes else pruneBatchMaxBytes := by
  have hrows : m.metaBatchRows = 10000 := by
    have := m.metaRamTarget_le
    unfold metaBatchRows
    omega
  have hafter : m.memAfterMeta = 2 ^ 64 - (160000 - m.memAvailForBatch) := by
    rw [memAfterMeta, hrows]
    exact Words.sub_of_lt h (by norm_num)
  have hhalf : (pruneBatchMaxBytes : ℚ) ≤ m.memAfterMeta * pruneBatchPayloadFill := by
    have : 2 * pruneBatchMaxBytes ≤ m.memAfterMeta := by
      rw [hafter, pruneBatchMaxBytes]
      omega
    have : 2 * (pruneBatchMaxBytes : ℚ) ≤ m.memAfterMeta := by exact_mod_cast this
    rw [pruneBatchPayloadFill]
    linarith
  have hcap : (0 : ℚ) < pruneBatchMaxBytes := by norm_num [pruneBatchMaxBytes]
  have hfloor := Nat.le_floor
    (natCast_le_roundTo (p := 64) (by norm_num [pruneBatchMaxBytes]) (hcap.trans_le hhalf) hhalf)
  unfold effectiveBatchBudget
  dsimp only
  split_ifs <;> omega

end MemoryArgs

/-- A budget of which the codes and the tables of one chunk leave 149000 bytes. -/
def tightBudget : MemoryArgs where
  memBudgetBytes := 412178
  pqBytes := 263178
  chunkBytes := 0
  safetyFrac := 0
  memBudgetBytes_lt := by norm_num
  pqBytes_lt := by norm_num
  chunkBytes_lt := by norm_num
  safetyFrac_nonneg := le_rfl
  safetyFrac_lt_one := one_pos

theorem safety_tightBudget : tightBudget.safety = 0 := by
  simp [MemoryArgs.safety, tightBudget]

/-- The codes fit it, the index rows do not, and a batch gets 768 MiB. -/
theorem tightBudget_exceeded :
    tightBudget.PassesPqCheck ∧ ¬ tightBudget.WithinBudget ∧
      tightBudget.effectiveBatchBudget = 768 * 1024 * 1024 := by
  have hpq : tightBudget.pqBytes = 263178 := rfl
  have hbudget : tightBudget.memBudgetBytes = 412178 := rfl
  have hsafety := safety_tightBudget
  have havail := tightBudget.memAvailForBatch_eq (by omega) (by omega)
  refine ⟨?_, fun h => ?_, ?_⟩
  · rw [MemoryArgs.PassesPqCheck, hsafety, hpq, hbudget]
    norm_num
  · have := tightBudget.withinBudget_iff.mp h
    omega
  · rw [tightBudget.effectiveBatchBudget_of_lt (by omega)]
    rfl

end HiDANN.Pruning
