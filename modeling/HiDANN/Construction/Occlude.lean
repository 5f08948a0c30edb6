import HiDANN.Search.Queue
import Mathlib.Data.List.Sort

/-! `occlude_list_ptr`: the robust prune of a candidate pool across two
partitions. The pool is sorted by (distance, id); a candidate is kept unless a
kept one blocks it, and at most `degree` are kept. The arithmetic of the
distances is left open: only their order is linear. -/

namespace HiDANN.Construction

/-- A pool entry. -/
structure CN (δ : Type*) where
  id : ℕ
  distance : δ

section

variable {ν δ : Type*} [LinearOrder δ]

/-- `CN::operator<` is the order of these keys. -/
def CN.key (c : CN δ) : δ ×ₗ ℕ := toLex (c.distance, c.id)

/-- `std::sort` of a pool; entries with equal keys are equal. -/
def sortPool (pool : List (CN δ)) : List (CN δ) := pool.insertionSort fun a b => a.key ≤ b.key

theorem sortPool_perm (pool : List (CN δ)) : (sortPool pool).Perm pool :=
  List.perm_insertionSort _ _

/-- The vectors two partitions hold, the distance between two of them, and the
constant that stands in for a zero distance in a quotient. -/
structure PairAccessor (ν δ : Type*) where
  get : ℕ → Option ν
  l2sqr : ν → ν → δ
  tiny : δ

variable [Zero δ] [One δ] [Mul δ] [Div δ]

/-- The loop over the kept ids: `none` when one of them blocks the candidate,
else the occlusion factor. -/
def occlusionFactor (acc : PairAccessor ν δ) (curAlpha : δ) (pv : ν) (distance : δ) :
    List ℕ → δ → Option δ
  | [], f => some f
  | u :: out, f =>
    match acc.get u with
    | none => occlusionFactor acc curAlpha pv distance out f
    | some pu =>
      let duv := acc.l2sqr pu pv
      if duv ≤ curAlpha * distance then none
      else
        let f' := max f (distance / if duv ≤ 0 then acc.tiny else duv)
        if curAlpha < f' then none else occlusionFactor acc curAlpha pv distance out f'

/-- One pass over the pool with its occlusion factors; `none` is the largest
float, which every test skips. -/
def occludePass (acc : PairAccessor ν δ) (location degree : ℕ) (curAlpha : δ) :
    List (CN δ × Option δ) → List ℕ → List (CN δ × Option δ) × List ℕ
  | [], out => ([], out)
  | (c, f) :: rest, out =>
    if degree ≤ out.length then ((c, f) :: rest, out)
    else if f.all fun x => curAlpha < x then
      let r := occludePass acc location degree curAlpha rest out
      ((c, f) :: r.1, r.2)
    else if c.id = location then
      let r := occludePass acc location degree curAlpha rest out
      ((c, none) :: r.1, r.2)
    else match acc.get c.id with
      | none =>
        let r := occludePass acc location degree curAlpha rest out
        ((c, none) :: r.1, r.2)
      | some pv =>
        match occlusionFactor acc curAlpha pv c.distance out 0 with
        | none =>
          let r := occludePass acc location degree curAlpha rest out
          ((c, none) :: r.1, r.2)
        | some f' =>
          let r := occludePass acc location degree curAlpha rest (out ++ [c.id])
          ((c, some f') :: r.1, r.2)

/-- The passes, for the values of `cur_alpha` that are at most `alpha`. -/
def occludePasses (acc : PairAccessor ν δ) (location degree : ℕ) :
    List δ → List (CN δ × Option δ) → List ℕ → List ℕ
  | [], _, out => out
  | curAlpha :: alphas, pool, out =>
    if degree ≤ out.length then out
    else
      let r := occludePass acc location degree curAlpha pool out
      occludePasses acc location degree alphas r.1 r.2

/-- `occlude_list_ptr` with `alpha = 1`: the one value of `cur_alpha` is 1. -/
def occludeListPtr (acc : PairAccessor ν δ) (location : ℕ) (pool : List (CN δ)) (degree : ℕ) :
    List ℕ :=
  occludePasses acc location degree [1] ((sortPool pool).map fun c => (c, some 0)) []

omit [One δ] in
/-- A pass adds ids of the pool, each entry's at most once and in pool order, and
never the location. -/
theorem occludePass_spec (acc : PairAccessor ν δ) (location degree : ℕ) (curAlpha : δ)
    (pool : List (CN δ × Option δ)) (out : List ℕ) :
    ∃ kept, (occludePass acc location degree curAlpha pool out).2 = out ++ kept ∧
      kept.Sublist (pool.map fun p => p.1.id) ∧ location ∉ kept := by
  induction pool generalizing out with
  | nil => exact ⟨[], by simp [occludePass], by simp, by simp⟩
  | cons p rest ih =>
    obtain ⟨c, f⟩ := p
    -- an entry that is passed over
    have skip : ∃ kept, (occludePass acc location degree curAlpha rest out).2 = out ++ kept ∧
        kept.Sublist (((c, f) :: rest).map fun p => p.1.id) ∧ location ∉ kept := by
      obtain ⟨kept, h1, h2, h3⟩ := ih out
      exact ⟨kept, h1, h2.cons _, h3⟩
    rw [occludePass]
    split_ifs with hdeg hf hloc
    · exact ⟨[], by simp, by simp, by simp⟩
    · exact skip
    · exact skip
    · split
      · exact skip
      · split
        · exact skip
        · obtain ⟨kept, h1, h2, h3⟩ := ih (out ++ [c.id])
          refine ⟨c.id :: kept, by simpa using h1, h2.cons_cons _, ?_⟩
          simpa [Ne.symm hloc] using h3

/-- The result lists ids of the pool, none twice when the pool has none twice. -/
theorem occludeListPtr_spec (acc : PairAccessor ν δ) (location : ℕ) (pool : List (CN δ))
    (degree : ℕ) :
    (occludeListPtr acc location pool degree).Sublist ((sortPool pool).map CN.id) ∧
      location ∉ occludeListPtr acc location pool degree := by
  unfold occludeListPtr occludePasses
  split_ifs with hdeg
  · simp
  · obtain ⟨kept, h1, h2, h3⟩ := occludePass_spec acc location degree 1
      ((sortPool pool).map fun c => (c, some (0 : δ))) []
    simp only [occludePasses, h1, List.nil_append]
    exact ⟨by simpa [Function.comp_def] using h2, h3⟩

end

end HiDANN.Construction
