import HiDANN.Library.Selection
import HiDANN.Search.Queue
import Mathlib.Algebra.Order.Archimedean.Basic
import Mathlib.Algebra.Order.Field.Basic
import Mathlib.Data.Finset.Insert
import Mathlib.Data.List.Sort

/-! `Index::occlude_list` and `prune_neighbors`. The pool is tried in rounds with a growing
`cur_alpha`. An entry is taken when its occlusion factor is at most `cur_alpha`; it then
raises the factors of the entries behind it. Every entry that is taken occludes, also one
that is not added to the result because it is the location or has been deleted. -/

namespace HiDANN.Memory

open Search

inductive Metric where
  | l2
  | innerProduct
  | cosine
deriving DecidableEq

variable {K : Type*} [Field K] [LinearOrder K]

/-- The arguments and settings of a prune that stay the same throughout. -/
structure PruneArgs (K : Type*) where
  metric : Metric
  getDistance : ℕ → ℕ → K
  location : ℕ
  alpha : K
  degree : ℕ
  maxc : ℕ
  deleteSet : Finset ℕ
  saturateGraph : Bool
  pqDist : Bool

namespace PruneArgs

variable (A : PruneArgs K)

/-- `cur_alpha *= 1.2f`. -/
def growth : K := 6 / 5

/-- The factor of `c` when `u` is taken; `none` is the largest float. -/
def raise (curAlpha : K) (u c : Neighbor K) : Option K → Option K
  | none => none
  | some f =>
    if A.alpha < f then some f
    else
      let djk := A.getDistance c.id u.id
      match A.metric with
      | .innerProduct =>
        let eps := curAlpha + 1 / 100
        if curAlpha * -c.distance < -djk then some (max f eps) else some f
      | _ => if djk = 0 then none else some (max f (c.distance / djk))

/-- An entry that is taken is added to the result unless it is deleted or the location. -/
def push (u : Neighbor K) (result : List ℕ) : List ℕ :=
  if u.id ∉ A.deleteSet ∧ u.id ≠ A.location then result ++ [u.id] else result

def occludeRound (curAlpha : K) :
    List (Neighbor K) → List (Option K) → List ℕ → List (Option K) × List ℕ
  | u :: pool, f :: factors, result =>
    if A.degree ≤ result.length then (f :: factors, result)
    else if f.all fun x => curAlpha < x then
      let r := occludeRound curAlpha pool factors result
      (f :: r.1, r.2)
    else
      let r := occludeRound curAlpha pool (List.zipWith (A.raise curAlpha u) pool factors)
        (A.push u result)
      (none :: r.1, r.2)
  | _, factors, result => (factors, result)

def occludeRounds (pool : List (Neighbor K)) :
    ℕ → K → List (Option K) → List ℕ → Option (List ℕ)
  | 0, _, _, _ => none
  | fuel + 1, curAlpha, factors, result =>
    if curAlpha ≤ A.alpha ∧ result.length < A.degree then
      let r := A.occludeRound curAlpha pool factors result
      occludeRounds pool fuel (curAlpha * growth) r.1 r.2
    else some result

def occludeList (fuel : ℕ) (pool : List (Neighbor K)) : Option (List ℕ) :=
  if pool = [] then some []
  else
    let pool := pool.take A.maxc
    A.occludeRounds pool fuel 1 (List.replicate pool.length (some 0)) []

def sortPool (pool : List (Neighbor K)) : List (Neighbor K) :=
  pool.insertionSort fun a b => a.key ≤ b.key

/-- The loop that fills the list up with the nearest of the pool. -/
def saturate (pool : List (Neighbor K)) (pruned : List ℕ) : List ℕ :=
  pool.foldl (fun pruned node =>
    if pruned.length < A.degree ∧ node.id ∉ pruned ∧ node.id ≠ A.location then pruned ++ [node.id]
    else pruned) pruned

/-- Distances from a quantizer are replaced by those of the vectors. -/
def exactDistances (pool : List (Neighbor K)) : List (Neighbor K) :=
  if A.pqDist then pool.map fun u => { u with distance := A.getDistance u.id A.location } else pool

/-- `prune_neighbors`. `occlude_list` cuts the pool it is given, so the loop that fills up
goes over the same entries. -/
def pruneNeighbors (fuel : ℕ) (pool : List (Neighbor K)) : Option (List ℕ) :=
  if pool = [] then some []
  else
    let pool := sortPool (A.exactDistances pool)
    match A.occludeList fuel pool with
    | none => none
    | some pruned =>
      if A.saturateGraph ∧ 1 < A.alpha then some (A.saturate (pool.take A.maxc) pruned)
      else some pruned

/-! ### What a round takes -/

/-- The ids added to the result when `taken` are the entries taken so far. -/
def kept (taken : List (Neighbor K)) : List ℕ :=
  (taken.filter fun u => u.id ∉ A.deleteSet ∧ u.id ≠ A.location).map Neighbor.id

omit [Field K] [LinearOrder K] in
theorem kept_concat (taken : List (Neighbor K)) (u : Neighbor K) :
    A.kept (taken ++ [u]) = A.push u (A.kept taken) := by
  rw [kept, List.filter_append, List.map_append, push]
  split_ifs with h
  · rw [List.filter_singleton, decide_eq_true h]
    rfl
  · rw [List.filter_singleton, decide_eq_false h]
    exact List.append_nil _

/-- `c` is farther from the location than `f` times its distance to `u`, or has the same
vector as `u`. -/
def Occludes (f : K) (u c : Neighbor K) : Prop :=
  A.getDistance c.id u.id = 0 ∨ f < c.distance / A.getDistance c.id u.id

/-- What its factor says of an entry: it has been taken or has the vector of a nearer entry
that has been; or the factor is the largest quotient with respect to nearer ones, exactly
so as long as it is at most `alpha`. -/
def FactorOk (taken : List (Neighbor K)) (c : Neighbor K) : Option K → Prop
  | none => c ∈ taken ∨ ∃ u ∈ taken, u.key < c.key ∧ A.getDistance c.id u.id = 0
  | some f => c ∉ taken ∧
      (f ≤ A.alpha → ∀ u ∈ taken, u.key < c.key → ¬ A.Occludes f u c) ∧
      (f = 0 ∨ ∃ u ∈ taken, u.key < c.key ∧ c.distance / A.getDistance c.id u.id = f)

theorem FactorOk.append {taken new : List (Neighbor K)} {c : Neighbor K} {f : Option K}
    (h : A.FactorOk taken c f) (hnew : ∀ u ∈ new, c.key < u.key) :
    A.FactorOk (taken ++ new) c f := by
  cases f with
  | none =>
    rcases h with hmem | ⟨u, hu, hlt⟩
    · exact .inl (List.mem_append_left _ hmem)
    · exact .inr ⟨u, List.mem_append_left _ hu, hlt⟩
  | some f =>
    obtain ⟨hmem, hle, hmax⟩ := h
    refine ⟨fun hc => ?_, fun hf u hu hlt => ?_, hmax.imp_right fun ⟨u, hu, hlt⟩ =>
      ⟨u, List.mem_append_left _ hu, hlt⟩⟩
    · rcases List.mem_append.mp hc with hc | hc
      · exact hmem hc
      · exact lt_irrefl _ (hnew c hc)
    · rcases List.mem_append.mp hu with hu | hu
      · exact hle hf u hu hlt
      · exact absurd hlt (lt_asymm (hnew u hu))

/-- An entry that is taken raises the factors of those behind it. -/
theorem FactorOk.raise (hmetric : A.metric ≠ .innerProduct) {curAlpha : K}
    {taken : List (Neighbor K)} {u c : Neighbor K} {f : Option K} (h : A.FactorOk taken c f)
    (hlt : u.key < c.key) : A.FactorOk (taken ++ [u]) c (A.raise curAlpha u c f) := by
  cases f with
  | none =>
    rcases h with hmem | ⟨v, hv, hzero⟩
    · exact .inl (List.mem_append_left _ hmem)
    · exact .inr ⟨v, List.mem_append_left _ hv, hzero⟩
  | some f =>
    obtain ⟨hmem, hle, hmax⟩ := h
    have hnot : c ∉ taken ++ [u] := by
      intro hc
      rcases List.mem_append.mp hc with hc | hc
      · exact hmem hc
      · rw [List.mem_singleton.mp hc] at hlt
        exact lt_irrefl _ hlt
    have hold : ∀ v ∈ taken, v.key < c.key ∧ c.distance / A.getDistance c.id v.id = f →
        ∃ v ∈ taken ++ [u], v.key < c.key ∧ c.distance / A.getDistance c.id v.id = f :=
      fun v hv h => ⟨v, List.mem_append_left _ hv, h⟩
    rw [PruneArgs.raise]
    by_cases hbig : A.alpha < f
    · rw [if_pos hbig]
      refine ⟨hnot, fun hf => absurd hbig (not_lt.mpr hf), hmax.imp_right ?_⟩
      exact fun ⟨v, hv, h⟩ => hold v hv h
    rw [if_neg hbig]
    have hif : A.FactorOk (taken ++ [u]) c (if A.getDistance c.id u.id = 0 then none
        else some (max f (c.distance / A.getDistance c.id u.id))) := by
      split_ifs with hzero
      · exact .inr ⟨u, List.mem_append_right _ List.mem_cons_self, hlt, hzero⟩
      · refine ⟨hnot, fun hf v hv hvlt => ?_, ?_⟩
        · rw [Occludes, not_or, not_lt]
          rcases List.mem_append.mp hv with hv | hv
          · have := hle ((le_max_left _ _).trans hf) v hv hvlt
            rw [Occludes, not_or, not_lt] at this
            exact ⟨this.1, this.2.trans (le_max_left _ _)⟩
          · rw [List.mem_singleton.mp hv]
            exact ⟨hzero, le_max_right _ _⟩
        · rcases max_choice f (c.distance / A.getDistance c.id u.id) with heq | heq
          · rw [heq]
            exact hmax.imp_right fun ⟨v, hv, h⟩ => hold v hv h
          · rw [heq]
            exact .inr ⟨u, List.mem_append_right _ List.mem_cons_self, hlt, rfl⟩
    cases hm : A.metric with
    | innerProduct => exact absurd hm hmetric
    | l2 => exact hif
    | cosine => exact hif

theorem forall₂_raise (hmetric : A.metric ≠ .innerProduct) (curAlpha : K) {u : Neighbor K}
    {pool taken : List (Neighbor K)} {factors : List (Option K)}
    (hlt : ∀ c ∈ pool, u.key < c.key) (h : List.Forall₂ (A.FactorOk taken) pool factors) :
    List.Forall₂ (A.FactorOk (taken ++ [u])) pool
      (List.zipWith (A.raise curAlpha u) pool factors) := by
  induction h with
  | nil => exact .nil
  | cons hc _ ih =>
    obtain ⟨hfirst, hrest⟩ := List.forall_mem_cons.mp hlt
    exact .cons (hc.raise A hmetric hfirst) (ih hrest)

/-- No entry is occluded by a nearer one that was taken before it. -/
def Separated (taken : List (Neighbor K)) : Prop :=
  taken.Pairwise fun u c => u.key < c.key → ¬ A.Occludes A.alpha u c

theorem Separated.concat {taken : List (Neighbor K)} {c : Neighbor K} {f : K}
    (hsep : A.Separated taken) (hc : A.FactorOk taken c (some f)) (hf : f ≤ A.alpha) :
    A.Separated (taken ++ [c]) := by
  refine List.pairwise_append.mpr ⟨hsep, List.pairwise_singleton _ _, fun u hu v hv hlt => ?_⟩
  rw [List.mem_singleton.mp hv] at hlt ⊢
  have := hc.2.1 hf u hu hlt
  rw [Occludes, not_or, not_lt] at this ⊢
  exact ⟨this.1, this.2.trans hf⟩

structure Tried (pool taken : List (Neighbor K)) (factors : List (Option K)) : Prop where
  factor : List.Forall₂ (A.FactorOk taken) pool factors
  separated : A.Separated taken
  nodup : taken.Nodup
  length_le : (A.kept taken).length ≤ A.degree

/-- A round takes entries of the pool; unless the places run out, the factors of all it has
not taken are above `cur_alpha`. -/
theorem occludeRound_spec (hmetric : A.metric ≠ .innerProduct) {curAlpha : K}
    (hcur : curAlpha ≤ A.alpha) {pool taken : List (Neighbor K)} {factors : List (Option K)}
    (hsorted : pool.Pairwise fun u c => u.key < c.key) (h : A.Tried pool taken factors) :
    ∃ new factors', A.occludeRound curAlpha pool factors (A.kept taken) =
        (factors', A.kept (taken ++ new)) ∧ new.Sublist pool ∧
        A.Tried pool (taken ++ new) factors' ∧
      ((A.kept (taken ++ new)).length < A.degree →
        ∀ f ∈ factors', f.all fun x => curAlpha < x) := by
  obtain ⟨hfactor, hsep, hnd, hlen⟩ := h
  induction pool generalizing taken factors with
  | nil =>
    cases hfactor
    refine ⟨[], [], ?_, List.Sublist.refl _, ?_, fun _ f hf => absurd hf List.not_mem_nil⟩
    · rw [List.append_nil]
      rfl
    · rw [List.append_nil]
      exact ⟨.nil, hsep, hnd, hlen⟩
  | cons c pool ih =>
    obtain ⟨hfirst, hsorted⟩ := List.pairwise_cons.mp hsorted
    cases hfactor with
    | cons hc hrest =>
      rename_i f factors
      rw [occludeRound]
      by_cases hdeg : A.degree ≤ (A.kept taken).length
      · rw [if_pos hdeg]
        refine ⟨[], f :: factors, ?_, List.nil_sublist _, ?_, fun hlt => ?_⟩
        · rw [List.append_nil]
        · rw [List.append_nil]
          exact ⟨.cons hc hrest, hsep, hnd, hlen⟩
        · rw [List.append_nil] at hlt
          exact absurd hlt (not_lt.mpr hdeg)
      rw [if_neg hdeg]
      by_cases hskip : f.all fun x => curAlpha < x
      · obtain ⟨new, factors', hrun, hsub, htried, hdone⟩ := ih hsorted hrest hsep hnd hlen
        have hbehind : ∀ u ∈ new, c.key < u.key := fun u hu => hfirst u (hsub.mem hu)
        rw [if_pos hskip, hrun]
        refine ⟨new, f :: factors', rfl, hsub.cons _,
          ⟨?_, htried.separated, htried.nodup, htried.length_le⟩, fun hlt x hx => ?_⟩
        · exact .cons (hc.append A hbehind) htried.factor
        · rcases List.mem_cons.mp hx with rfl | hx
          · exact hskip
          · exact hdone hlt x hx
      · -- the entry is taken
        obtain ⟨x, rfl, hx⟩ : ∃ x, f = some x ∧ x ≤ curAlpha := by
          cases f with
          | none => exact absurd rfl hskip
          | some x => exact ⟨x, rfl, by simpa using hskip⟩
        have hraised := A.forall₂_raise hmetric curAlpha hfirst hrest
        have hpush : (A.kept (taken ++ [c])).length ≤ A.degree := by
          rw [kept_concat, push]
          split_ifs with hpush
          · rw [List.length_append, List.length_singleton]
            exact not_le.mp hdeg
          · exact hlen
        obtain ⟨new, factors', hrun, hsub, htried, hdone⟩ := ih hsorted hraised
          (hsep.concat A hc (hx.trans hcur)) (List.concat_eq_append ▸ hnd.concat hc.1) hpush
        have hbehind : ∀ u ∈ new, c.key < u.key := fun u hu => hfirst u (hsub.mem hu)
        rw [List.append_assoc, List.singleton_append] at hrun htried hdone
        rw [if_neg hskip, ← kept_concat, hrun]
        refine ⟨c :: new, none :: factors', rfl, hsub.cons_cons _,
          ⟨.cons (.inl (by simp)) htried.factor, htried.separated, htried.nodup, htried.length_le⟩,
          fun hlt f hf => ?_⟩
        rcases List.mem_cons.mp hf with rfl | hf
        · rfl
        · exact hdone hlt f hf

variable [IsStrictOrderedRing K]

omit A in
theorem growth_pos : (0 : K) < growth := by
  rw [growth]
  positivity

omit A in
/-- A factor above `cur_alpha` is within a factor of the next one. -/
theorem all_growth {curAlpha : K} {f : Option K} (h : f.all fun x => curAlpha < x) :
    f.all fun x => curAlpha * growth < growth * x := by
  cases f with
  | none => rfl
  | some x =>
    simp only [Option.all_some, decide_eq_true_eq] at h ⊢
    rw [mul_comm]
    exact mul_lt_mul_of_pos_left h growth_pos

/-- When the rounds end, the factors of what has not been taken are near `alpha` or above. -/
theorem occludeRounds_spec (hmetric : A.metric ≠ .innerProduct) {fuel : ℕ} {curAlpha : K}
    {pool taken : List (Neighbor K)} {factors : List (Option K)} {result : List ℕ}
    (hsorted : pool.Pairwise fun u c => u.key < c.key) (h : A.Tried pool taken factors)
    (hsub : taken ⊆ pool) (hprev : (A.kept taken).length < A.degree →
      ∀ f ∈ factors, f.all fun x => curAlpha < growth * x)
    (hrun : A.occludeRounds pool fuel curAlpha factors (A.kept taken) = some result) :
    ∃ taken' factors', result = A.kept taken' ∧ A.Tried pool taken' factors' ∧ taken' ⊆ pool ∧
      (result.length < A.degree → ∀ f ∈ factors', f.all fun x => A.alpha < growth * x) := by
  induction fuel generalizing curAlpha taken factors with
  | zero => cases hrun
  | succ fuel ih =>
    rw [occludeRounds] at hrun
    split_ifs at hrun with hgo
    · obtain ⟨new, factors', hround, hnew, htried, hdone⟩ :=
        A.occludeRound_spec hmetric hgo.1 hsorted h
      rw [hround] at hrun
      exact ih htried (List.append_subset.mpr ⟨hsub, hnew.subset⟩)
        (fun hlt f hf => all_growth (hdone hlt f hf)) hrun
    · cases hrun
      refine ⟨taken, factors, rfl, h, hsub, fun hlt f hf => ?_⟩
      have hcur : A.alpha < curAlpha := not_le.mp fun hle => hgo ⟨hle, hlt⟩
      have hall := hprev hlt f hf
      cases f with
      | none => rfl
      | some x =>
        simp only [Option.all_some, decide_eq_true_eq] at hall ⊢
        exact hcur.trans hall

theorem exists_occludeRounds [Archimedean K] (pool : List (Neighbor K)) {curAlpha : K}
    (hcur : 0 < curAlpha) (factors : List (Option K)) (result : List ℕ) :
    ∃ fuel result', A.occludeRounds pool fuel curAlpha factors result = some result' := by
  have hgrowth : (1 : K) < growth := by
    rw [growth, lt_div_iff₀ (by positivity)]
    norm_num
  obtain ⟨n, hn⟩ : ∃ n, A.alpha < curAlpha * growth ^ n := by
    obtain ⟨n, hn⟩ := pow_unbounded_of_one_lt (A.alpha / curAlpha) hgrowth
    exact ⟨n, (div_lt_iff₀' hcur).mp hn⟩
  clear hcur
  induction n generalizing curAlpha factors result with
  | zero =>
    rw [pow_zero, mul_one] at hn
    refine ⟨1, result, ?_⟩
    rw [occludeRounds, if_neg fun h => absurd hn (not_lt.mpr h.1)]
  | succ n ih =>
    rw [pow_succ', ← mul_assoc] at hn
    by_cases hgo : curAlpha ≤ A.alpha ∧ result.length < A.degree
    · obtain ⟨fuel, result', hrun⟩ := ih (A.occludeRound curAlpha pool factors result).1
        (A.occludeRound curAlpha pool factors result).2 hn
      refine ⟨fuel + 1, result', ?_⟩
      rw [occludeRounds, if_pos hgo]
      exact hrun
    · refine ⟨1, result, ?_⟩
      rw [occludeRounds, if_neg hgo]

omit [IsStrictOrderedRing K] in
theorem occludeRounds_mono (pool : List (Neighbor K)) {fuel fuel' : ℕ} (hle : fuel ≤ fuel')
    {curAlpha : K} {factors : List (Option K)} {result result' : List ℕ}
    (hrun : A.occludeRounds pool fuel curAlpha factors result = some result') :
    A.occludeRounds pool fuel' curAlpha factors result = some result' := by
  induction fuel generalizing fuel' curAlpha factors result with
  | zero => cases hrun
  | succ fuel ih =>
    obtain ⟨fuel', rfl⟩ : ∃ m, fuel' = m + 1 := ⟨fuel' - 1, by omega⟩
    rw [occludeRounds] at hrun ⊢
    split_ifs at hrun ⊢ with hgo
    · exact ih (by omega) hrun
    · exact hrun

omit [IsStrictOrderedRing K] in
theorem occludeList_mono {fuel fuel' : ℕ} (hle : fuel ≤ fuel') {pool : List (Neighbor K)}
    {out : List ℕ} (hrun : A.occludeList fuel pool = some out) :
    A.occludeList fuel' pool = some out := by
  rw [occludeList] at hrun ⊢
  split_ifs at hrun ⊢ with hnil
  · exact hrun
  · exact A.occludeRounds_mono _ hle hrun

/-! ### Robust prunes -/

/-- `out` is a robust prune of a pool in which the id `v` has distance `dl v`: it has different
ids of the pool; an id is at most `alpha` times farther than it is from a nearer one before it;
and if there is a place left, what is missing is the location, deleted, or at least
`alpha / 1.2` times farther than it is from a nearer one that is not missing for that. -/
structure RobustPrune (dl : ℕ → K) (pool : List (Neighbor K)) (out : List ℕ) : Prop where
  nodup : out.Nodup
  length_le : out.length ≤ A.degree
  mem : ∀ v ∈ out, v ∈ pool.map Neighbor.id ∧ v ≠ A.location ∧ v ∉ A.deleteSet
  separated : out.Pairwise fun u v => toLex (dl u, u) < toLex (dl v, v) →
    A.getDistance v u ≠ 0 ∧ dl v ≤ A.alpha * A.getDistance v u
  covered : out.length < A.degree → ∀ v ∈ pool.map Neighbor.id,
    v ∈ out ∨ v = A.location ∨ v ∈ A.deleteSet ∨
      ∃ u ∈ pool.map Neighbor.id, (u ∈ out ∨ u = A.location ∨ u ∈ A.deleteSet) ∧
        toLex (dl u, u) < toLex (dl v, v) ∧
        (A.getDistance v u = 0 ∨ A.alpha * A.getDistance v u < growth * dl v)

section Robust

variable {A} {dl : ℕ → K} {pool taken : List (Neighbor K)} {factors : List (Option K)}
  (hdist : ∀ u v, 0 ≤ A.getDistance u v)

include hdist

/-- What is not occluded is at most `alpha` times as far. -/
theorem le_of_not_occludes {u c : Neighbor K} (h : ¬ A.Occludes A.alpha u c) :
    A.getDistance c.id u.id ≠ 0 ∧ c.distance ≤ A.alpha * A.getDistance c.id u.id := by
  rw [Occludes, not_or, not_lt] at h
  have hpos : 0 < A.getDistance c.id u.id := lt_of_le_of_ne (hdist _ _) (Ne.symm h.1)
  exact ⟨h.1, (div_le_iff₀ hpos).mp h.2⟩

/-- What the state of the prune says when the rounds have ended. -/
theorem Tried.robustPrune (halpha : 1 ≤ A.alpha)
    (hids : (pool.map Neighbor.id).Nodup) (hdl : ∀ c ∈ pool, c.distance = dl c.id)
    (h : A.Tried pool taken factors) (hsub : taken ⊆ pool)
    (hlast : (A.kept taken).length < A.degree →
      ∀ f ∈ factors, f.all fun x => A.alpha < growth * x) :
    A.RobustPrune dl pool (A.kept taken) := by
  have hkey : ∀ c ∈ pool, c.key = toLex (dl c.id, c.id) := by
    intro c hc
    rw [Neighbor.key, hdl c hc]
  have hinj : ∀ a ∈ pool, ∀ b ∈ pool, a.id = b.id → a = b :=
    fun a ha b hb he => List.inj_on_of_nodup_map hids ha hb he
  constructor
  case nodup =>
    refine ((List.nodup_map_iff_inj_on (h.nodup.filter _)).mpr fun a ha b hb he => ?_)
    exact hinj a (hsub (List.mem_of_mem_filter ha)) b (hsub (List.mem_of_mem_filter hb)) he
  case length_le => exact h.length_le
  case mem =>
    intro v hv
    obtain ⟨c, hc, rfl⟩ := List.mem_map.mp hv
    obtain ⟨hc, hkept⟩ := List.mem_filter.mp hc
    rw [decide_eq_true_eq] at hkept
    exact ⟨List.mem_map_of_mem (hsub hc), hkept.2, hkept.1⟩
  case separated =>
    refine List.pairwise_map.mpr ((h.separated.filter _).imp_of_mem fun {u c} hu hc hocc hlt => ?_)
    have hu := hsub (List.mem_of_mem_filter hu)
    have hc := hsub (List.mem_of_mem_filter hc)
    rw [← hkey u hu, ← hkey c hc] at hlt
    rw [← hdl c hc]
    exact le_of_not_occludes hdist (hocc hlt)
  case covered =>
    intro hlt v hv
    obtain ⟨c, hc, rfl⟩ := List.mem_map.mp hv
    -- an entry that has been taken is in the list unless it may not be
    have htaken : ∀ u ∈ taken, u.id ∈ A.kept taken ∨ u.id = A.location ∨ u.id ∈ A.deleteSet := by
      intro u hu
      by_cases hloc : u.id = A.location
      · exact .inr (.inl hloc)
      by_cases hdel : u.id ∈ A.deleteSet
      · exact .inr (.inr hdel)
      · exact .inl (List.mem_map_of_mem (List.mem_filter.mpr ⟨hu, by simp [hloc, hdel]⟩))
    have hoccluded : ∀ u ∈ taken, u.key < c.key → (A.getDistance c.id u.id = 0 ∨
        A.alpha * A.getDistance c.id u.id < growth * dl c.id) → ∃ u ∈ pool.map Neighbor.id,
          (u ∈ A.kept taken ∨ u = A.location ∨ u ∈ A.deleteSet) ∧
          toLex (dl u, u) < toLex (dl c.id, c.id) ∧ (A.getDistance c.id u = 0 ∨
            A.alpha * A.getDistance c.id u < growth * dl c.id) := by
      intro u hu hkeys hfar
      rw [hkey u (hsub hu), hkey c hc] at hkeys
      exact ⟨u.id, List.mem_map_of_mem (hsub hu), htaken u hu, hkeys, hfar⟩
    obtain ⟨f, hf, hok⟩ : ∃ f ∈ factors, A.FactorOk taken c f := by
      obtain ⟨i, hi, rfl⟩ := List.getElem_of_mem hc
      have hi' : i < factors.length := h.factor.length_eq ▸ hi
      exact ⟨factors[i], List.getElem_mem hi', h.factor.get hi hi'⟩
    have hall := hlast hlt f hf
    cases f with
    | none =>
      rcases hok with hmem | ⟨u, hu, hkeys, hzero⟩
      · rcases htaken c hmem with hin | hloc | hdel
        · exact .inl hin
        · exact .inr (.inl hloc)
        · exact .inr (.inr (.inl hdel))
      · exact .inr (.inr (.inr (hoccluded u hu hkeys (.inl hzero))))
    | some x =>
      rw [Option.all_some, decide_eq_true_eq] at hall
      obtain ⟨u, hu, hkeys, rfl⟩ := hok.2.2.resolve_left fun hx => by
        rw [hx, mul_zero] at hall
        exact absurd (zero_lt_one.trans_le halpha) (not_lt.mpr hall.le)
      refine .inr (.inr (.inr (hoccluded u hu hkeys ?_)))
      by_cases hzero : A.getDistance c.id u.id = 0
      · exact .inl hzero
      · have hpos : 0 < A.getDistance c.id u.id := lt_of_le_of_ne (hdist _ _) (Ne.symm hzero)
        rw [← mul_div_assoc, lt_div_iff₀ hpos, hdl c hc] at hall
        exact .inr hall

/-- Enough fuel gives the result of `occlude_list`, a robust prune of the cut pool. -/
theorem exists_occludeList [Archimedean K] (hmetric : A.metric ≠ .innerProduct)
    (halpha : 1 ≤ A.alpha) (hsorted : pool.Pairwise fun u c => u.key < c.key)
    (hids : (pool.map Neighbor.id).Nodup) (hdl : ∀ c ∈ pool, c.distance = dl c.id) :
    ∃ fuel out, (∀ fuel' ≥ fuel, A.occludeList fuel' pool = some out) ∧
      A.RobustPrune dl (pool.take A.maxc) out := by
  by_cases hpool : pool = []
  · subst hpool
    refine ⟨0, [], fun fuel' _ => by rw [occludeList, if_pos rfl], ?_⟩
    rw [List.take_nil]
    exact ⟨List.nodup_nil, Nat.zero_le _, by simp, List.Pairwise.nil, by simp⟩
  set cut := pool.take A.maxc
  have hcut : cut.Sublist pool := List.take_sublist _ _
  have hsorted := hsorted.sublist hcut
  have hstart : A.Tried cut [] (List.replicate cut.length (some 0)) := by
    refine ⟨?_, List.Pairwise.nil, List.nodup_nil, Nat.zero_le _⟩
    rw [List.forall₂_iff_get]
    refine ⟨List.length_replicate.symm, fun i hi hi' => ?_⟩
    rw [List.get_eq_getElem, List.get_eq_getElem, List.getElem_replicate]
    exact ⟨List.not_mem_nil, fun _ u hu => absurd hu List.not_mem_nil, .inl rfl⟩
  obtain ⟨fuel, out, hrun⟩ := A.exists_occludeRounds cut zero_lt_one
    (List.replicate cut.length (some 0)) []
  refine ⟨fuel, out, fun fuel' hle => ?_, ?_⟩
  · rw [occludeList, if_neg hpool]
    exact A.occludeRounds_mono cut hle hrun
  · obtain ⟨fuel, rfl⟩ : ∃ m, fuel = m + 1 := by
      cases fuel with
      | zero => cases hrun
      | succ m => exact ⟨m, rfl⟩
    rw [occludeRounds] at hrun
    split_ifs at hrun with hgo
    · obtain ⟨new, factors', hround, hnew, htried, hdone⟩ :=
        A.occludeRound_spec hmetric hgo.1 hsorted hstart
      have hround : A.occludeRound 1 cut (List.replicate cut.length (some 0)) [] =
          (factors', A.kept ([] ++ new)) := hround
      rw [List.nil_append] at hround htried hdone
      rw [hround] at hrun
      obtain ⟨taken, factors'', rfl, htried, hsub, hlast⟩ := A.occludeRounds_spec hmetric hsorted
        htried hnew.subset (fun hlt f hf => all_growth (hdone hlt f hf)) hrun
      exact htried.robustPrune hdist halpha (hids.sublist (hcut.map _))
        (fun c hc => hdl c (hcut.mem hc)) hsub hlast
    · cases hrun
      refine ⟨List.nodup_nil, Nat.zero_le _, by simp, List.Pairwise.nil, fun hlt => ?_⟩
      exact absurd ⟨halpha, hlt⟩ hgo

end Robust

/-! ### `prune_neighbors` -/

omit [Field K] [IsStrictOrderedRing K] in
theorem sortPool_perm (pool : List (Neighbor K)) : (sortPool pool).Perm pool :=
  List.perm_insertionSort _ _

omit [Field K] [IsStrictOrderedRing K] in
/-- Entries with different ids are in strict order. -/
theorem sortPool_sorted {pool : List (Neighbor K)} (hids : (pool.map Neighbor.id).Nodup) :
    (sortPool pool).Pairwise fun u c => u.key < c.key := by
  have htotal : Std.Total fun a b : Neighbor K => a.key ≤ b.key := ⟨fun _ _ => le_total _ _⟩
  have htrans : IsTrans (Neighbor K) fun a b => a.key ≤ b.key := ⟨fun _ _ _ h h' => h.trans h'⟩
  have hle : (sortPool pool).Pairwise fun u c => u.key ≤ c.key := List.pairwise_insertionSort _ pool
  have hne : (sortPool pool).Pairwise fun u c => u.id ≠ c.id :=
    List.pairwise_map.mp (((sortPool_perm pool).map _).nodup_iff.mpr hids)
  refine (hle.and hne).imp fun {u c} h => lt_of_le_of_ne h.1 fun he => h.2 ?_
  exact (Neighbor.key_inj.mp he).2

omit [Field K] [LinearOrder K] [IsStrictOrderedRing K] in
theorem map_id_exactDistances (pool : List (Neighbor K)) :
    (A.exactDistances pool).map Neighbor.id = pool.map Neighbor.id := by
  rw [exactDistances]
  split_ifs
  · rw [List.map_map]
    rfl
  · rfl

omit [IsStrictOrderedRing K] [Field K] [LinearOrder K] in
theorem saturate_eq (pool : List (Neighbor K)) (pruned : List ℕ) :
    A.saturate pool pruned =
      Selection.selectNew A.degree pruned ((pool.map Neighbor.id).filter (· ≠ A.location)) := by
  induction pool generalizing pruned with
  | nil => rfl
  | cons u pool ih =>
    have hcons : A.saturate (u :: pool) pruned = A.saturate pool
        (if pruned.length < A.degree ∧ u.id ∉ pruned ∧ u.id ≠ A.location then pruned ++ [u.id]
          else pruned) := rfl
    rw [hcons, ih, List.map_cons]
    by_cases hloc : u.id = A.location
    · rw [if_neg fun h => h.2.2 hloc, List.filter_cons_of_neg (by simpa using hloc)]
    · rw [List.filter_cons_of_pos (by simpa using hloc), Selection.selectNew, Selection.selectNew,
        Selection.select_cons, Selection.step]
      congr 1
      exact if_congr (and_congr_right fun _ => and_iff_left hloc) rfl rfl

/-- What `prune_neighbors` makes of a pool: a robust prune, and behind it, where the graph is to
be saturated, the nearest of what is missing. -/
structure PrunedList (dl : ℕ → K) (pool : List (Neighbor K)) (out : List ℕ) : Prop where
  nodup : out.Nodup
  length_le : out.length ≤ A.degree
  mem : ∀ v ∈ out, v ∈ pool.map Neighbor.id ∧ v ≠ A.location
  robust : ∃ pruned, pruned <+: out ∧
    A.RobustPrune dl ((sortPool (A.exactDistances pool)).take A.maxc) pruned ∧
    (¬ (A.saturateGraph ∧ 1 < A.alpha) → out = pruned)
  saturated : A.saturateGraph ∧ 1 < A.alpha → out.length = A.degree ∨
    ∀ v ∈ ((sortPool (A.exactDistances pool)).take A.maxc).map Neighbor.id, v ≠ A.location → v ∈ out

theorem exists_pruneNeighbors [Archimedean K] {dl : ℕ → K} {pool : List (Neighbor K)}
    (hdist : ∀ u v, 0 ≤ A.getDistance u v) (hmetric : A.metric ≠ .innerProduct)
    (halpha : 1 ≤ A.alpha) (hids : (pool.map Neighbor.id).Nodup)
    (hdl : ∀ c ∈ A.exactDistances pool, c.distance = dl c.id) :
    ∃ fuel out, (∀ fuel' ≥ fuel, A.pruneNeighbors fuel' pool = some out) ∧
      A.PrunedList dl pool out := by
  by_cases hpool : pool = []
  · subst hpool
    have hnil : A.exactDistances ([] : List (Neighbor K)) = [] := by
      rw [exactDistances]
      split_ifs <;> rfl
    refine ⟨0, [], fun fuel' _ => by rw [pruneNeighbors, if_pos rfl], List.nodup_nil,
      Nat.zero_le _, by simp, ⟨[], List.prefix_rfl, ?_, fun _ => rfl⟩, fun _ => ?_⟩
    · rw [hnil]
      exact ⟨List.nodup_nil, Nat.zero_le _, by simp, List.Pairwise.nil, by simp [sortPool]⟩
    · rw [hnil]
      exact .inr (by simp [sortPool])
  set sorted := sortPool (A.exactDistances pool) with hsorted
  have hperm := sortPool_perm (A.exactDistances pool)
  have hids' : ((A.exactDistances pool).map Neighbor.id).Nodup := by
    rwa [A.map_id_exactDistances]
  obtain ⟨fuel, pruned, hrun, hrobust⟩ := exists_occludeList hdist hmetric halpha
    (sortPool_sorted hids') ((hperm.map _).nodup_iff.mpr hids')
    fun c hc => hdl c (hperm.mem_iff.mp hc)
  have hmem : ∀ v ∈ (sorted.take A.maxc).map Neighbor.id, v ∈ pool.map Neighbor.id := by
    intro v hv
    rw [← A.map_id_exactDistances pool]
    exact (hperm.map _).mem_iff.mp (((List.take_sublist _ _).map _).mem hv)
  by_cases hsat : A.saturateGraph ∧ 1 < A.alpha
  · set rest := ((sorted.take A.maxc).map Neighbor.id).filter (· ≠ A.location)
    obtain ⟨new, hnew, -, hin⟩ := Selection.exists_new (R := A.degree) pruned rest
    refine ⟨fuel, Selection.selectNew A.degree pruned rest, fun fuel' hle => ?_,
      Selection.nodup_selectNew hrobust.nodup _,
      Selection.length_select_le _ _ hrobust.length_le _, fun v hv => ?_,
      ⟨pruned, Selection.prefix_select _ _ _ _, hrobust, fun h => absurd hsat h⟩, fun _ => ?_⟩
    · rw [pruneNeighbors, if_neg hpool]
      dsimp only
      rw [← hsorted, hrun fuel' hle]
      dsimp only
      rw [if_pos hsat, saturate_eq]
    · rw [hnew, List.mem_append] at hv
      rcases hv with hv | hv
      · obtain ⟨h1, h2, -⟩ := hrobust.mem v hv
        exact ⟨hmem v h1, h2⟩
      · have := (hin v hv).1
        rw [List.mem_filter, decide_eq_true_eq] at this
        exact ⟨hmem v this.1, this.2⟩
    · rcases Selection.selectNew_full_or (R := A.degree) pruned rest with hfull | hall
      · exact .inl (le_antisymm (Selection.length_select_le _ _ hrobust.length_le _) hfull)
      · refine .inr fun v hv hloc => hall v (List.mem_filter.mpr ⟨hv, by simpa using hloc⟩)
  · refine ⟨fuel, pruned, fun fuel' hle => ?_, hrobust.nodup, hrobust.length_le, fun v hv => ?_,
      ⟨pruned, List.prefix_rfl, hrobust, fun _ => rfl⟩, fun h => absurd h hsat⟩
    · rw [pruneNeighbors, if_neg hpool]
      dsimp only
      rw [← hsorted, hrun fuel' hle]
      dsimp only
      rw [if_neg hsat]
    · obtain ⟨h1, h2, -⟩ := hrobust.mem v hv
      exact ⟨hmem v h1, h2⟩

omit [IsStrictOrderedRing K] in
theorem pruneNeighbors_mono {fuel fuel' : ℕ} (hle : fuel ≤ fuel') {pool : List (Neighbor K)}
    {out : List ℕ} (hrun : A.pruneNeighbors fuel pool = some out) :
    A.pruneNeighbors fuel' pool = some out := by
  rw [pruneNeighbors] at hrun ⊢
  by_cases hpool : pool = []
  · rwa [if_pos hpool] at hrun ⊢
  · rw [if_neg hpool] at hrun ⊢
    dsimp only at hrun ⊢
    rcases hlist : A.occludeList fuel (sortPool (A.exactDistances pool)) with _ | pruned
    · rw [hlist] at hrun
      cases hrun
    · rw [hlist] at hrun
      rwa [A.occludeList_mono hle hlist]

theorem pruneNeighbors_spec [Archimedean K] {dl : ℕ → K} {pool : List (Neighbor K)}
    (hdist : ∀ u v, 0 ≤ A.getDistance u v) (hmetric : A.metric ≠ .innerProduct)
    (halpha : 1 ≤ A.alpha) (hids : (pool.map Neighbor.id).Nodup)
    (hdl : ∀ c ∈ A.exactDistances pool, c.distance = dl c.id) {fuel : ℕ} {out : List ℕ}
    (hrun : A.pruneNeighbors fuel pool = some out) : A.PrunedList dl pool out := by
  obtain ⟨fuel', out', hall, hout'⟩ := A.exists_pruneNeighbors hdist hmetric halpha hids hdl
  have hmax := A.pruneNeighbors_mono (le_max_left fuel fuel') hrun
  rw [hall _ (le_max_right fuel fuel')] at hmax
  exact Option.some.inj hmax ▸ hout'

/-- Points at 0, 1 and 2 of a line. -/
def onLine : PruneArgs ℚ where
  metric := .l2
  getDistance u v := ((u : ℚ) - v) ^ 2
  location := 0
  alpha := 6 / 5
  degree := 2
  maxc := 750
  deleteSet := ∅
  saturateGraph := true
  pqDist := false

end PruneArgs

end HiDANN.Memory
