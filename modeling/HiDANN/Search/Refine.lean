import HiDANN.Library.TopK
import HiDANN.Search.Queue
import Mathlib.Algebra.Order.Ring.Rat
import Mathlib.Data.List.Sort

/-! The refinement of the candidate list. Batches of candidates get their exact
distances in the order of the list; after each batch the ids of the `k` nearest of all
candidates, refined or not, are compared with those before it. The refinement stops
when they have stayed the same for a number of batches. The candidates are sorted by
approximate distance, so an unrefined id among the nearest has every id of those
batches in front of it. -/

namespace HiDANN.Search

open TopK

/-- How the candidates are to be refined. `ceilMul` is the ceiling of a product of doubles. -/
structure RefineArgs where
  kSearch : ℕ
  lSearch : ℕ
  refineTotal : Bool
  earlyExitStreak : ℕ
  fixedRefineCount : ℕ
  fixedRefineRatio : ℚ
  ceilMul : ℕ → ℚ → ℕ
  B : ℕ
  B_pos : 0 < B

namespace RefineArgs

variable (a : RefineArgs)

/-- `refine_num`, for a number of candidates. -/
def refineNum (size : ℕ) : ℕ :=
  let refineNum := min a.lSearch size
  if 0 < a.fixedRefineCount then min refineNum a.fixedRefineCount
  else if 0 < a.fixedRefineRatio then
    min refineNum (max a.kSearch (a.ceilMul refineNum a.fixedRefineRatio))
  else refineNum

/-- A streak of zero batches counts as one. -/
def streak : ℕ := if a.earlyExitStreak = 0 then 1 else a.earlyExitStreak

def useDynamicEarlyExit : Bool :=
  !a.refineTotal && a.fixedRefineCount = 0 && a.fixedRefineRatio = 0

theorem refineNum_le (size : ℕ) : a.refineNum size ≤ size := by
  have h : min a.lSearch size ≤ size := min_le_right _ _
  unfold refineNum
  dsimp only
  split_ifs
  · exact (min_le_left _ _).trans h
  · exact (min_le_left _ _).trans h
  · exact h

theorem streak_pos : 0 < a.streak := by
  unfold streak
  split_ifs with h
  · exact Nat.one_pos
  · exact Nat.pos_of_ne_zero h

end RefineArgs

structure TopKNode (δ : Type*) where
  d : δ
  id : ℕ

variable {δ : Type*} [LinearOrder δ]

/-- The heap of `compute_topk_ids` compares distances only. -/
abbrev TopKHeap (δ : Type*) [LinearOrder δ] := HeapOps (TopKNode.d (δ := δ))

def Neighbor.node (c : Neighbor δ) : TopKNode δ := ⟨c.distance, c.id⟩

/-- The ids of the `k` nearest of the first candidates, sorted. -/
def computeTopkIds (heap : TopKHeap δ) (candidates : List (Neighbor δ)) (upto k : ℕ) : List ℕ :=
  ((select heap (min k upto) ((candidates.take upto).map Neighbor.node)).map
    TopKNode.id).insertionSort (· ≤ ·)

/-- Give a batch of candidates their exact distances. -/
def refineBatch (exact : ℕ → δ) (start bsz : ℕ) (candidates : List (Neighbor δ)) :
    List (Neighbor δ) :=
  candidates.take start ++
    ((candidates.drop start).take bsz).map (fun c => { c with distance := exact c.id }) ++
    candidates.drop (start + bsz)

structure Refinement (δ : Type*) where
  candidates : List (Neighbor δ)
  prevTopkIds : List ℕ
  streakCnt : ℕ
  start : ℕ

/-- What the loop ends with: the number of refined candidates, the ids that were compared
last, and whether the exit test stopped it. -/
structure Refined (δ : Type*) where
  candidates : List (Neighbor δ)
  refined : ℕ
  topkIds : List ℕ
  stopped : Bool

section

variable (heap : TopKHeap δ) (a : RefineArgs) (exact : ℕ → δ)

/-- The loop over the batches of the first `M` candidates. -/
def refineLoop (M : ℕ) : ℕ → Refinement δ → Refined δ
  | 0, s => ⟨s.candidates, min s.start M, s.prevTopkIds, false⟩
  | fuel + 1, s =>
    if s.start < M then
      let bsz := min a.B (M - s.start)
      let candidates := refineBatch exact s.start bsz s.candidates
      if a.useDynamicEarlyExit then
        let currTopkIds := computeTopkIds heap candidates M a.kSearch
        if currTopkIds = s.prevTopkIds then
          if a.streak ≤ s.streakCnt + 1 then ⟨candidates, s.start + bsz, currTopkIds, true⟩
          else refineLoop M fuel ⟨candidates, currTopkIds, s.streakCnt + 1, s.start + a.B⟩
        else refineLoop M fuel ⟨candidates, currTopkIds, 0, s.start + a.B⟩
      else refineLoop M fuel ⟨candidates, s.prevTopkIds, s.streakCnt, s.start + a.B⟩
    else ⟨s.candidates, min s.start M, s.prevTopkIds, false⟩

/-- The refinement; a batch refines at least one candidate, so `M` rounds are enough. -/
def refine (candidates : List (Neighbor δ)) : Refined δ :=
  let M := a.refineNum candidates.length
  refineLoop heap a exact M M ⟨candidates,
    if a.useDynamicEarlyExit then computeTopkIds heap candidates M a.kSearch else [], 0, 0⟩

/-- The order `partial_sort` gives the candidates. -/
def sortCandidates (candidates : List (Neighbor δ)) : List (Neighbor δ) :=
  candidates.insertionSort fun x y => x.key ≤ y.key

/-- The ids and distances handed out: the nearest of the first `M` candidates. -/
def results [Neg δ] (innerProduct : Bool) (candidates : List (Neighbor δ)) : List (ℕ × δ) :=
  let M := a.refineNum candidates.length
  ((sortCandidates ((refine heap a exact candidates).candidates.take M)).take (min a.kSearch M)).map
    fun c => (c.id, if innerProduct then -c.distance else c.distance)

end

/-! ### The candidates after some batches -/

section Batches

variable {heap : TopKHeap δ} {a : RefineArgs} {exact : ℕ → δ} {candidates : List (Neighbor δ)}

/-- The candidates with their first `n` refined. -/
def refinedTo (exact : ℕ → δ) (candidates : List (Neighbor δ)) (n : ℕ) : List (Neighbor δ) :=
  (candidates.take n).map (fun c => { c with distance := exact c.id }) ++ candidates.drop n

omit [LinearOrder δ] in
theorem refinedTo_zero : refinedTo exact candidates 0 = candidates := rfl

omit [LinearOrder δ] in
theorem ids_refinedTo (n : ℕ) :
    (refinedTo exact candidates n).map Neighbor.id = candidates.map Neighbor.id := by
  have hcomp : Neighbor.id ∘ (fun c : Neighbor δ => { c with distance := exact c.id }) =
      Neighbor.id := rfl
  rw [refinedTo, List.map_append, List.map_map, hcomp, ← List.map_append, List.take_append_drop]

omit [LinearOrder δ] in
theorem refineBatch_refinedTo {start bsz : ℕ} (h : start ≤ candidates.length) :
    refineBatch exact start bsz (refinedTo exact candidates start) =
      refinedTo exact candidates (start + bsz) := by
  have hlen : ((candidates.take start).map
      fun c => { c with distance := exact c.id }).length = start := by
    rw [List.length_map, List.length_take, min_eq_left h]
  have htake : (refinedTo exact candidates start).take start =
      (candidates.take start).map fun c => { c with distance := exact c.id } := by
    rw [refinedTo, List.take_left' hlen]
  have hdrop : (refinedTo exact candidates start).drop start = candidates.drop start := by
    rw [refinedTo, List.drop_left' hlen]
  rw [refineBatch, htake, hdrop, ← List.drop_drop, hdrop, List.drop_drop, ← List.map_append,
    refinedTo, List.take_add]

omit [LinearOrder δ] in
/-- The part of the list that a batch boundary `n ≤ m` leaves unrefined. -/
theorem take_refinedTo {n m : ℕ} (h : n ≤ m) : (refinedTo exact candidates n).take m =
    (candidates.take n).map (fun c => { c with distance := exact c.id }) ++
      (candidates.drop n).take (m - n) := by
  rw [refinedTo, List.take_append, List.length_map, List.length_take]
  congr 1
  · rw [List.take_of_length_le]
    rw [List.length_map, List.length_take]
    omega
  · rcases Nat.le_total n candidates.length with hn | hn
    · rw [min_eq_left hn]
    · rw [List.drop_eq_nil_of_le hn, List.take_nil, List.take_nil]

/-- A refinement that is not stopped refines all of the first `M` candidates. -/
theorem refineLoop_complete {M : ℕ} (hM : M ≤ candidates.length) (fuel : ℕ) {s : Refinement δ}
    (hfuel : M ≤ s.start + fuel)
    (hlist : s.candidates = refinedTo exact candidates (min s.start M))
    (hrun : (refineLoop heap a exact M fuel s).stopped = false) :
    (refineLoop heap a exact M fuel s).refined = M ∧
      (refineLoop heap a exact M fuel s).candidates = refinedTo exact candidates M := by
  induction fuel generalizing s with
  | zero =>
    have hend : min s.start M = M := min_eq_right hfuel
    rw [refineLoop]
    exact ⟨hend, by rw [hlist, hend]⟩
  | succ fuel ih =>
    have hpos := a.B_pos
    rw [refineLoop] at hrun ⊢
    by_cases hlt : s.start < M
    · have hbatch : refineBatch exact s.start (min a.B (M - s.start)) s.candidates =
          refinedTo exact candidates (min (s.start + a.B) M) := by
        rw [hlist, min_eq_left hlt.le, refineBatch_refinedTo (by omega)]
        congr 1
        omega
      have hnext : ∀ ids streak, (refineLoop heap a exact M fuel
          ⟨refinedTo exact candidates (min (s.start + a.B) M), ids, streak,
            s.start + a.B⟩).stopped = false → _ := fun ids streak =>
        ih (s := ⟨refinedTo exact candidates (min (s.start + a.B) M), ids, streak,
          s.start + a.B⟩) (by simp only; omega) rfl
      simp only [if_pos hlt, hbatch] at hrun ⊢
      split_ifs at hrun ⊢
      · exact hnext _ _ hrun
      · exact hnext _ _ hrun
      · exact hnext _ _ hrun
    · have hend : min s.start M = M := min_eq_right (Nat.le_of_not_lt hlt)
      rw [if_neg hlt]
      exact ⟨hend, by rw [hlist, hend]⟩

theorem refine_complete (hrun : (refine heap a exact candidates).stopped = false) :
    (refine heap a exact candidates).refined = a.refineNum candidates.length ∧
      (refine heap a exact candidates).candidates =
        refinedTo exact candidates (a.refineNum candidates.length) :=
  refineLoop_complete (a.refineNum_le _) _ (Nat.le_add_left _ _)
    (by rw [Nat.zero_min, refinedTo_zero]) hrun

end Batches

end HiDANN.Search
