import HiDANN.Search.Refine
import HiDANN.Search.ResultFiles
import Mathlib.Algebra.BigOperators.Ring.Finset
import Mathlib.Algebra.Order.Field.Rat
import Mathlib.Data.Finset.Card
import Mathlib.Data.List.Dedup

/-! The two recalls of a run. `calculate_recall` intersects the set of the ground truth, with
all ids that tie with the `K`-th, and the set of the result slots; the recall of a query in
the statistics file counts the slots that hold one of the first `K` ids. Slots that the
search has not filled hold the id `0`. -/

namespace HiDANN.Search

/-! ### `calculate_recall` -/

/-- `recall_at - 1`, on 32 bits. -/
def pred32 (recallAt : ℕ) : ℕ := if recallAt = 0 then 2 ^ 32 - 1 else recallAt - 1

section

variable {δ : Type*} [DecidableEq δ]

/-- The loop that moves the end of the ground truth over the ties. -/
def tieLoop (gtDistVec : List δ) (dimGs recallAt : ℕ) : ℕ → ℕ → ℕ
  | 0, tieBreaker => tieBreaker
  | fuel + 1, tieBreaker =>
    if tieBreaker < dimGs ∧ gtDistVec[tieBreaker]? = gtDistVec[pred32 recallAt]? then
      tieLoop gtDistVec dimGs recallAt fuel (tieBreaker + 1)
    else tieBreaker

/-- How many ids of the ground truth count for query `i`. -/
def tieBreaker (gsDist : Option (List δ)) (dimGs recallAt i : ℕ) : ℕ :=
  match gsDist with
  | none => recallAt
  | some gsDist => tieLoop (gsDist.drop (dimGs * i)) dimGs recallAt dimGs (pred32 recallAt)

variable (goldStd : List ℕ) (gsDist : Option (List δ)) (dimGs : ℕ) (ourResults : List ℕ)
  (dimOr recallAt : ℕ)

def gtSet (i : ℕ) : Finset ℕ :=
  ((goldStd.drop (dimGs * i)).take (tieBreaker gsDist dimGs recallAt i)).toFinset

def resSet (i : ℕ) : Finset ℕ := ((ourResults.drop (dimOr * i)).take recallAt).toFinset

def hitIds (i : ℕ) : Finset ℕ :=
  {v ∈ gtSet goldStd gsDist dimGs recallAt i | v ∈ resSet ourResults dimOr recallAt i}

def calculateRecall (numQueries : ℕ) : ℚ :=
  let totalRecall := ((List.range numQueries).map fun i =>
    ((hitIds goldStd gsDist dimGs ourResults dimOr recallAt i).card : ℚ)).sum
  totalRecall / numQueries * (100 / recallAt)

end

/-! ### The recall of a query -/

section

variable (gtIds : List ℕ) (gtDim : ℕ) (queryResultIds : List ℕ) (recallAt : ℕ)

def comparedIds (i : ℕ) : List ℕ := (gtIds.drop (i * gtDim)).take (min gtDim recallAt)

def slotIds (i : ℕ) : List ℕ := (queryResultIds.drop (i * recallAt)).take recallAt

def queryHits (i : ℕ) : ℕ :=
  (slotIds queryResultIds recallAt i).countP (· ∈ comparedIds gtIds gtDim recallAt i)

def queryRecall (i : ℕ) : ℚ :=
  if 0 < min gtDim recallAt then queryHits gtIds gtDim queryResultIds recallAt i / recallAt else 0

end

/-! ### Repetitions and ties -/

/-- The slots with a compared id that a later slot holds again. -/
def repeatedHits (compared : List ℕ) : List ℕ → ℕ
  | [] => 0
  | v :: slots => (if v ∈ compared ∧ v ∈ slots then 1 else 0) + repeatedHits compared slots

/-- Every hit is the last one of its id, or is repeated. -/
theorem countP_eq_card_add (compared slots : List ℕ) : slots.countP (· ∈ compared) =
    {v ∈ slots.toFinset | v ∈ compared}.card + repeatedHits compared slots := by
  induction slots with
  | nil => rfl
  | cons v slots ih =>
    rw [List.countP_cons, ih, repeatedHits, List.toFinset_cons, Finset.filter_insert]
    by_cases hv : v ∈ compared
    · rw [if_pos (decide_eq_true hv), if_pos hv]
      by_cases hagain : v ∈ slots
      · have hmem : v ∈ {u ∈ slots.toFinset | u ∈ compared} :=
          Finset.mem_filter.mpr ⟨List.mem_toFinset.mpr hagain, hv⟩
        rw [Finset.insert_eq_of_mem hmem, if_pos ⟨hv, hagain⟩]
        omega
      · have hnot : v ∉ {u ∈ slots.toFinset | u ∈ compared} := fun h =>
          hagain (List.mem_toFinset.mp (Finset.mem_filter.mp h).1)
        rw [Finset.card_insert_of_notMem hnot, if_neg fun h => hagain h.2]
        omega
    · rw [if_neg (mt of_decide_eq_true hv), if_neg hv, if_neg fun h => hv h.1, Nat.zero_add,
        Nat.add_zero]

section

variable {δ : Type*} [DecidableEq δ] {gtDistVec : List δ} {dimGs recallAt : ℕ}

theorem pred32_of_pos (h : 0 < recallAt) : pred32 recallAt = recallAt - 1 := if_neg h.ne'

theorem le_tieLoop (fuel n : ℕ) : n ≤ tieLoop gtDistVec dimGs recallAt fuel n := by
  induction fuel generalizing n with
  | zero => exact le_rfl
  | succ fuel ih =>
    rw [tieLoop]
    split_ifs
    · exact (Nat.le_succ n).trans (ih (n + 1))
    · exact le_rfl

theorem le_tieBreaker (gsDist : Option (List δ)) (hK : 0 < recallAt) (hdim : recallAt ≤ dimGs)
    (i : ℕ) : recallAt ≤ tieBreaker gsDist dimGs recallAt i := by
  unfold tieBreaker
  cases gsDist with
  | none => exact le_rfl
  | some gsDist =>
    dsimp only
    rw [pred32_of_pos hK]
    obtain ⟨fuel, rfl⟩ := Nat.exists_eq_add_of_le' (hK.trans_le hdim)
    rw [tieLoop, pred32_of_pos hK, if_pos ⟨by omega, rfl⟩]
    calc recallAt = recallAt - 1 + 1 := (Nat.sub_add_cancel hK).symm
      _ ≤ _ := le_tieLoop fuel _

/-! ### The two recalls -/

variable (gtIds : List ℕ) (gtDists : Option (List δ)) (gtDim : ℕ) (queryResultIds : List ℕ)

variable (recallAt) in
/-- The ids of the ground truth of a query behind the first `K` that tie with the `K`-th. -/
def tiedIds (i : ℕ) : List ℕ :=
  ((gtIds.drop (gtDim * i)).take (tieBreaker gtDists gtDim recallAt i)).drop recallAt

variable (recallAt) in
/-- The ids in the slots of a query that are in its ground truth only by a tie. -/
def tieHits (i : ℕ) : Finset ℕ :=
  {v ∈ (slotIds queryResultIds recallAt i).toFinset |
    v ∈ tiedIds recallAt gtIds gtDists gtDim i ∧ v ∉ comparedIds gtIds gtDim recallAt i}

/-- The ground truth of a query are its first `K` ids and the ones that tie. -/
theorem mem_gtSet_iff (hK : 0 < recallAt) (hdim : recallAt ≤ gtDim) (i v : ℕ) :
    v ∈ gtSet gtIds gtDists gtDim recallAt i ↔ v ∈ comparedIds gtIds gtDim recallAt i ∨
      v ∈ tiedIds recallAt gtIds gtDists gtDim i := by
  rw [gtSet, List.mem_toFinset, comparedIds, tiedIds, min_eq_right hdim, Nat.mul_comm i,
    ← List.mem_append]
  have htake := List.take_append_drop recallAt
    ((gtIds.drop (gtDim * i)).take (tieBreaker gtDists gtDim recallAt i))
  rw [List.take_take, min_eq_left (le_tieBreaker gtDists hK hdim i)] at htake
  rw [htake]

/-- The set-based count and the count of slots differ by the repetitions and the ties. -/
theorem card_hitIds_add (hK : 0 < recallAt) (hdim : recallAt ≤ gtDim) (i : ℕ) :
    (hitIds gtIds gtDists gtDim queryResultIds recallAt recallAt i).card +
      repeatedHits (comparedIds gtIds gtDim recallAt i) (slotIds queryResultIds recallAt i) =
    queryHits gtIds gtDim queryResultIds recallAt i +
      (tieHits recallAt gtIds gtDists gtDim queryResultIds i).card := by
  have hhit : ∀ v, v ∈ hitIds gtIds gtDists gtDim queryResultIds recallAt recallAt i ↔
      (v ∈ comparedIds gtIds gtDim recallAt i ∨ v ∈ tiedIds recallAt gtIds gtDists gtDim i) ∧
        v ∈ (slotIds queryResultIds recallAt i).toFinset := by
    intro v
    rw [hitIds, Finset.mem_filter, mem_gtSet_iff gtIds gtDists gtDim hK hdim, resSet, slotIds,
      Nat.mul_comm]
  have hcompared : {v ∈ hitIds gtIds gtDists gtDim queryResultIds recallAt recallAt i |
      v ∈ comparedIds gtIds gtDim recallAt i} =
      {v ∈ (slotIds queryResultIds recallAt i).toFinset |
        v ∈ comparedIds gtIds gtDim recallAt i} := by
    ext v
    rw [Finset.mem_filter, Finset.mem_filter, hhit]
    tauto
  have htied : {v ∈ hitIds gtIds gtDists gtDim queryResultIds recallAt recallAt i |
      v ∉ comparedIds gtIds gtDim recallAt i} =
      tieHits recallAt gtIds gtDists gtDim queryResultIds i := by
    ext v
    rw [tieHits, Finset.mem_filter, Finset.mem_filter, hhit]
    tauto
  have hsplit := Finset.card_filter_add_card_filter_not
    (s := hitIds gtIds gtDists gtDim queryResultIds recallAt recallAt i)
    (p := fun v => v ∈ comparedIds gtIds gtDim recallAt i)
  rw [hcompared, htied] at hsplit
  rw [queryHits, countP_eq_card_add]
  omega

variable (recallAt) in
/-- The mean of the recalls of the queries, in percent. -/
def meanQueryRecall (queryNum : ℕ) : ℚ :=
  100 * (((List.range queryNum).map (queryRecall gtIds gtDim queryResultIds recallAt)).sum / queryNum)

theorem meanQueryRecall_eq (hK : 0 < recallAt) (hdim : recallAt ≤ gtDim) (queryNum : ℕ) :
    meanQueryRecall recallAt gtIds gtDim queryResultIds queryNum =
      100 * ((((List.range queryNum).map
        (queryHits gtIds gtDim queryResultIds recallAt)).sum : ℕ) / recallAt / queryNum) := by
  have hrow : queryRecall gtIds gtDim queryResultIds recallAt =
      fun i => (queryHits gtIds gtDim queryResultIds recallAt i : ℚ) * (recallAt : ℚ)⁻¹ := by
    funext i
    rw [queryRecall, if_pos (lt_min (hK.trans_le hdim) hK), div_eq_mul_inv]
  rw [meanQueryRecall, hrow, List.sum_map_mul_right, Nat.cast_list_sum, List.map_map,
    div_eq_mul_inv _ (recallAt : ℚ)]
  rfl

theorem calculateRecall_eq (queryNum : ℕ) :
    calculateRecall gtIds gtDists gtDim queryResultIds recallAt recallAt queryNum =
      100 * ((((List.range queryNum).map fun i =>
        (hitIds gtIds gtDists gtDim queryResultIds recallAt recallAt i).card).sum : ℕ) /
          recallAt / queryNum) := by
  rw [calculateRecall, Nat.cast_list_sum, List.map_map, div_mul_div_comm, div_div,
    mul_comm (queryNum : ℚ), mul_comm _ (100 : ℚ), mul_div_assoc]
  rfl

/-- The mean of the recalls in the statistics file is the reported recall exactly if over
all queries as many slots repeat a hit as ids of the results count only as ties. -/
theorem query_recall_agrees_iff (hK : 0 < recallAt) (hdim : recallAt ≤ gtDim) (queryNum : ℕ) :
    meanQueryRecall recallAt gtIds gtDim queryResultIds queryNum =
      calculateRecall gtIds gtDists gtDim queryResultIds recallAt recallAt queryNum ↔
    ((List.range queryNum).map fun i => repeatedHits (comparedIds gtIds gtDim recallAt i)
      (slotIds queryResultIds recallAt i)).sum =
    ((List.range queryNum).map fun i =>
      (tieHits recallAt gtIds gtDists gtDim queryResultIds i).card).sum := by
  have hsum : ((List.range queryNum).map fun i =>
        (hitIds gtIds gtDists gtDim queryResultIds recallAt recallAt i).card).sum +
      ((List.range queryNum).map fun i => repeatedHits (comparedIds gtIds gtDim recallAt i)
        (slotIds queryResultIds recallAt i)).sum =
      ((List.range queryNum).map (queryHits gtIds gtDim queryResultIds recallAt)).sum +
      ((List.range queryNum).map fun i =>
        (tieHits recallAt gtIds gtDists gtDim queryResultIds i).card).sum := by
    rw [← List.sum_map_add, ← List.sum_map_add]
    simp only [card_hitIds_add gtIds gtDists gtDim queryResultIds hK hdim]
  rw [meanQueryRecall_eq gtIds gtDim queryResultIds hK hdim, calculateRecall_eq]
  rcases Nat.eq_zero_or_pos queryNum with rfl | hn
  · simp
  · have hK' : (recallAt : ℚ) ≠ 0 := Nat.cast_ne_zero.mpr hK.ne'
    have hn' : (queryNum : ℚ) ≠ 0 := Nat.cast_ne_zero.mpr hn.ne'
    rw [mul_right_inj' (by norm_num), div_left_inj' hn', div_left_inj' hK', Nat.cast_inj]
    omega

/-- One query with a result that only ties, and one with a result in both slots. -/
theorem tie_and_repetition_agree :
    meanQueryRecall 2 [4, 5, 9, 4, 5, 9] 3 [4, 9, 4, 4] 2 =
      calculateRecall [4, 5, 9, 4, 5, 9] (some [1, 2, 2, 1, 2, 2]) 3 [4, 9, 4, 4] 2 2 2 :=
  (query_recall_agrees_iff [4, 5, 9, 4, 5, 9] (some [1, 2, 2, 1, 2, 2]) 3 [4, 9, 4, 4]
    (by decide) (by decide) 2).mpr (by decide)

/-- A result that ties with the `K`-th id counts in one recall and not in the other. -/
theorem tie_not_agree : meanQueryRecall 1 [4, 9] 2 [9] 1 ≠
    calculateRecall [4, 9] (some [1, 1]) 2 [9] 1 1 1 := by
  have hslots : ((List.range 1).map (queryHits [4, 9] 2 [9] 1)).sum = 0 := by decide
  have hset : ((List.range 1).map fun i =>
      (hitIds [4, 9] (some [1, 1]) 2 [9] 1 1 i).card).sum = 1 := by decide
  rw [meanQueryRecall_eq _ _ _ (by decide) (by decide), calculateRecall_eq, hslots, hset]
  norm_num

end

end HiDANN.Search
