import HiDANN.Search.EarlyExit
import HiDANN.Search.Recall

/-! What the reported recall counts. A search that selects fewer than `K` candidates for
refinement fills fewer than `K` slots, the buffer was zeroed, and nothing says how many
slots were filled: the id `0` is then among the results whether it was returned or not. -/

namespace HiDANN.Search

open Bytes

variable {δ : Type*} [LinearOrder δ]

/-! ### What is handed out -/

section

variable {heap : TopKHeap δ} {a : RefineArgs} {exact : ℕ → δ} {candidates : List (Neighbor δ)}

omit [LinearOrder δ] in
theorem ids_refineBatch (start bsz : ℕ) :
    (refineBatch exact start bsz candidates).map Neighbor.id = candidates.map Neighbor.id := by
  have hcomp : Neighbor.id ∘ (fun c : Neighbor δ => { c with distance := exact c.id }) =
      Neighbor.id := rfl
  rw [refineBatch, List.map_append, List.map_append, List.map_map, hcomp, ← List.map_append,
    ← List.map_append, List.append_assoc, ← List.drop_drop, List.take_append_drop,
    List.take_append_drop]

theorem ids_refineLoop (M fuel : ℕ) (s : Refinement δ) :
    (refineLoop heap a exact M fuel s).candidates.map Neighbor.id =
      s.candidates.map Neighbor.id := by
  induction fuel generalizing s with
  | zero => rfl
  | succ fuel ih =>
    rw [refineLoop]
    dsimp only
    split_ifs
    · exact ids_refineBatch _ _
    · exact (ih _).trans (ids_refineBatch _ _)
    · exact (ih _).trans (ids_refineBatch _ _)
    · exact (ih _).trans (ids_refineBatch _ _)
    · rfl

variable (heap a exact candidates) in
theorem ids_refine :
    (refine heap a exact candidates).candidates.map Neighbor.id = candidates.map Neighbor.id :=
  ids_refineLoop _ _ _

variable [Neg δ] {innerProduct : Bool}

theorem length_results : (results heap a exact innerProduct candidates).length =
    min a.kSearch (a.refineNum candidates.length) := by
  have hlen : (refine heap a exact candidates).candidates.length = candidates.length := by
    have := congrArg List.length (ids_refine heap a exact candidates)
    rwa [List.length_map, List.length_map] at this
  have hM := a.refineNum_le candidates.length
  rw [results, List.length_map, List.length_take, sortCandidates, List.length_insertionSort,
    List.length_take, hlen]
  omega

theorem mem_candidates_of_mem_results {v : ℕ}
    (h : v ∈ (results heap a exact innerProduct candidates).map Prod.fst) :
    v ∈ (candidates.take (a.refineNum candidates.length)).map Neighbor.id := by
  rw [results, List.map_map, List.mem_map] at h
  obtain ⟨c, hc, rfl⟩ := h
  rw [List.map_take, ← ids_refine heap a exact, ← List.map_take]
  exact List.mem_map_of_mem ((List.mem_insertionSort _).mp (List.mem_of_mem_take hc))

/-- When fewer than `K` candidates are selected, all of them are handed out. -/
theorem mem_results_iff (hM : a.refineNum candidates.length ≤ a.kSearch) (v : ℕ) :
    v ∈ (results heap a exact innerProduct candidates).map Prod.fst ↔
      v ∈ (candidates.take (a.refineNum candidates.length)).map Neighbor.id := by
  refine ⟨mem_candidates_of_mem_results, fun h => ?_⟩
  rw [List.map_take, ← ids_refine heap a exact, ← List.map_take,
    List.mem_map] at h
  obtain ⟨c, hc, rfl⟩ := h
  have hall : (sortCandidates ((refine heap a exact candidates).candidates.take
      (a.refineNum candidates.length))).take (min a.kSearch (a.refineNum candidates.length)) =
      sortCandidates ((refine heap a exact candidates).candidates.take
        (a.refineNum candidates.length)) := by
    apply List.take_of_length_le
    rw [sortCandidates, List.length_insertionSort, List.length_take]
    omega
  rw [results, List.map_map, hall, List.mem_map]
  exact ⟨c, (List.mem_insertionSort _).mpr hc, rfl⟩

end

/-! ### The slots of a query -/

section

variable [Zero δ] {recallAt queryNum : ℕ} {outcome : ℕ → Outcome δ recallAt}

omit [LinearOrder δ] in
/-- The result set of a query: what was found, and `0` for a slot that is not filled. -/
theorem mem_resSet_iff {i : ℕ} (hi : i < queryNum) (v : ℕ) :
    v ∈ resSet (ResultBuffers.ofOutcomes queryNum outcome).ids recallAt recallAt i ↔
      v ∈ (outcome i).found.map Prod.fst ∨ (outcome i).found.length < recallAt ∧ v = 0 := by
  have hslots := slice_flatMap _ _ (fun i _ => (outcome i).length_slots Prod.fst) i
    (show i < (List.range queryNum).length by rwa [List.length_range])
  rw [List.getElem_range, slice] at hslots
  have hmod : (resultSlots recallAt ((outcome i).found.map Prod.fst)).map (· % 2 ^ 32) =
      resultSlots recallAt ((outcome i).found.map Prod.fst) := by
    apply (List.map_congr_left ?_).trans (List.map_id' _)
    intro u hu
    apply Nat.mod_eq_of_lt
    rcases List.mem_append.mp hu with hu | hu
    · obtain ⟨p, hp, rfl⟩ := List.mem_map.mp hu
      exact (outcome i).id_lt p hp
    · rw [List.eq_of_mem_replicate hu]
      exact Nat.two_pow_pos 32
  rw [resSet, ResultBuffers.ofOutcomes, ← List.map_drop, ← List.map_take, hslots, hmod,
    List.mem_toFinset, resultSlots, List.mem_append, List.length_map, List.mem_replicate]
  apply or_congr_right
  apply and_congr_left'
  omega

variable (outcome) in
/-- The hits of a query are returned ids unless `0` is a hit of an unfilled slot. -/
theorem hits_returned_iff (goldStd : List ℕ) (gsDist : Option (List δ)) (dimGs : ℕ) {i : ℕ}
    (hi : i < queryNum) :
    (∀ v ∈ hitIds goldStd gsDist dimGs (ResultBuffers.ofOutcomes queryNum outcome).ids recallAt
        recallAt i, v ∈ (outcome i).found.map Prod.fst) ↔
      recallAt ≤ (outcome i).found.length ∨ 0 ∉ gtSet goldStd gsDist dimGs recallAt i ∨
        0 ∈ (outcome i).found.map Prod.fst := by
  simp only [hitIds, Finset.mem_filter, mem_resSet_iff hi]
  constructor
  · intro h
    by_contra hnot
    obtain ⟨hlen, hgt, hzero⟩ : _ ∧ _ ∧ _ := by
      simpa only [not_or, not_le, not_not] using hnot
    exact hzero (h 0 ⟨hgt, .inr ⟨hlen, rfl⟩⟩)
  · rintro h v ⟨hgt, hv | ⟨hlen, rfl⟩⟩
    · exact hv
    · rcases h with h | h | h
      · omega
      · exact absurd hgt h
      · exact h

end

/-! ### The searches of a run -/

structure CandidateList (δ : Type*) where
  retset : List (Neighbor δ)
  id_lt : ∀ c ∈ retset, c.id < 2 ^ 32

def searchOutcome [Neg δ] (heap : TopKHeap δ) (a : RefineArgs) (exact : ℕ → δ)
    (innerProduct : Bool) (candidates : CandidateList δ) : Outcome δ a.kSearch where
  found := results heap a exact innerProduct candidates.retset
  length_le := length_results.trans_le (min_le_left _ _)
  id_lt := by
    intro p hp
    obtain ⟨c, hc, he⟩ := List.mem_map.mp
      (mem_candidates_of_mem_results (List.mem_map_of_mem (f := Prod.fst) hp))
    rw [← he]
    exact candidates.id_lt c (List.mem_of_mem_take hc)

/-- An id counts for a query only if it was returned, exactly if `K` candidates were
selected for refinement, or `0` is not in the ground truth of the query, or it is the id of
a selected candidate. -/
theorem reported_recall_returned_iff [Neg δ] [Zero δ] (heap : TopKHeap δ) (a : RefineArgs)
    (exact : ℕ → ℕ → δ) (innerProduct : Bool) (candidates : ℕ → CandidateList δ)
    (goldStd : List ℕ) (gsDist : Option (List δ)) (dimGs queryNum : ℕ) (i : Fin queryNum) :
    (∀ v ∈ hitIds goldStd gsDist dimGs (ResultBuffers.ofOutcomes queryNum fun i =>
        searchOutcome heap a (exact i) innerProduct (candidates i)).ids a.kSearch a.kSearch i,
      v ∈ (results heap a (exact i) innerProduct (candidates i).retset).map Prod.fst) ↔
    a.kSearch ≤ a.refineNum (candidates i).retset.length ∨
      0 ∉ gtSet goldStd gsDist dimGs a.kSearch i ∨
      0 ∈ ((candidates i).retset.take (a.refineNum (candidates i).retset.length)).map
        Neighbor.id := by
  have hlen : (searchOutcome heap a (exact i) innerProduct (candidates i)).found.length =
      min a.kSearch (a.refineNum (candidates i).retset.length) := length_results
  have hiff := hits_returned_iff (fun i =>
    searchOutcome heap a (exact i) innerProduct (candidates i)) goldStd gsDist dimGs i.isLt
  rw [hlen] at hiff
  apply hiff.trans
  rcases le_total a.kSearch (a.refineNum (candidates i).retset.length) with h | h
  · exact iff_of_true (.inl (le_min le_rfl h)) (.inl h)
  · apply or_congr
    · exact ⟨fun hk => hk.trans (min_le_right _ _), le_min le_rfl⟩
    · exact or_congr_right (mem_results_iff h 0)

def oneOfTwo : RefineArgs where
  kSearch := 2
  lSearch := 4
  refineTotal := false
  earlyExitStreak := 1
  fixedRefineCount := 1
  fixedRefineRatio := 0
  ceilMul _ _ := 0
  B := 50
  B_pos := by decide

def twoCandidates : CandidateList ℤ where
  retset := [⟨5, 2, true⟩, ⟨7, 4, true⟩]
  id_lt := by decide

/-- The ids `5` and `0` both count, and only `5` was returned. -/
theorem unfilled_slot_counts :
    ¬ ∀ v ∈ hitIds [5, 0] (none : Option (List ℤ)) 2 (ResultBuffers.ofOutcomes 1 fun _ =>
        searchOutcome (TopK.decreasingHeap TopKNode.d) oneOfTwo exactly false twoCandidates).ids
        2 2 0,
      v ∈ (results (TopK.decreasingHeap TopKNode.d) oneOfTwo exactly false
        twoCandidates.retset).map Prod.fst := by
  decide

end HiDANN.Search
