import HiDANN.Construction.Pairs
import HiDANN.Library.Selection
import Mathlib.Algebra.Order.Ring.Nat

/-! What `occlude_list_ptr` keeps. With `alpha = 1` the quotients never say more than
the comparison before them, so the prune is a greedy selection from the sorted pool:
an entry is kept when a partition knows its vector, it is not the location, and every
entry kept before is farther from it than the location is. The ids it keeps of the
other partition are then handed to a record whose length has 16 bits. -/

namespace HiDANN.Construction

open Selection

/-! ### The prune as a selection -/

section Prune

variable {ν δ : Type*} [LinearOrder δ]

/-- `c` is no nearer to the location than to `u`. -/
def PairAccessor.occludes (acc : PairAccessor ν δ) (u : ℕ) (c : CN δ) : Bool :=
  match acc.get u, acc.get c.id with
  | some pu, some pv => acc.l2sqr pu pv ≤ c.distance
  | _, _ => false

theorem PairAccessor.occludes_iff (acc : PairAccessor ν δ) (u : ℕ) (c : CN δ) :
    acc.occludes u c = true ↔
      ∃ pu pv, acc.get u = some pu ∧ acc.get c.id = some pv ∧ acc.l2sqr pu pv ≤ c.distance := by
  rw [PairAccessor.occludes]
  cases acc.get u with
  | none => simp
  | some pu =>
    cases acc.get c.id with
    | none => simp
    | some pv => simp

/-- An entry that is kept after those in `S`. -/
def Keeps (acc : PairAccessor ν δ) (location : ℕ) (S : List (CN δ)) (c : CN δ) : Prop :=
  c.id ≠ location ∧ (acc.get c.id).isSome ∧ ∀ u ∈ S, acc.occludes u.id c = false

/-- An entry that is not kept is the location, unknown or occluded. -/
theorem not_keeps_iff {acc : PairAccessor ν δ} {location : ℕ} {S : List (CN δ)} {c : CN δ} :
    ¬ Keeps acc location S c ↔
      c.id = location ∨ acc.get c.id = none ∨ ∃ u ∈ S, acc.occludes u.id c = true := by
  simp only [Keeps, not_and_or, not_not, Bool.not_eq_true, Option.isSome_eq_false_iff,
    Option.isNone_iff_eq_none, not_forall, exists_prop, Bool.not_eq_false]

instance (acc : PairAccessor ν δ) (location : ℕ) (S : List (CN δ)) (c : CN δ) :
    Decidable (Keeps acc location S c) :=
  inferInstanceAs (Decidable (_ ∧ _ ∧ ∀ u ∈ S, acc.occludes u.id c = false))

/-- The greedy selection from a pool in the order of `CN::operator<`. -/
def robustPrune (acc : PairAccessor ν δ) (location degree : ℕ) (pool : List (CN δ)) :
    List (CN δ) :=
  select degree (Keeps acc location) [] (sortPool pool)

variable [Zero δ] [One δ] [Mul δ] [Div δ]

/-- What the prune needs of the arithmetic when `cur_alpha` is 1. -/
structure UnitLaws (δ : Type*) [LinearOrder δ] [Zero δ] [One δ] [Mul δ] [Div δ] : Prop where
  one_mul : ∀ x : δ, 1 * x = x
  zero_le_one : (0 : δ) ≤ 1
  div_le_one : ∀ x y : δ, 0 ≤ x → x < y → x / y ≤ 1

/-- The factor stays at most 1, so only the comparison of distances blocks. -/
theorem occlusionFactor_eq_none_iff (hlaws : UnitLaws δ) (acc : PairAccessor ν δ) {c : CN δ}
    {pv : ν} (hpv : acc.get c.id = some pv) (hc : 0 ≤ c.distance) (out : List ℕ) {f : δ}
    (hf : f ≤ 1) :
    occlusionFactor acc 1 pv c.distance out f = none ↔ ∃ u ∈ out, acc.occludes u c = true := by
  induction out generalizing f with
  | nil => simp [occlusionFactor]
  | cons u out ih =>
    have hu : acc.occludes u c = true ↔
        ∃ pu, acc.get u = some pu ∧ acc.l2sqr pu pv ≤ c.distance := by
      rw [acc.occludes_iff]
      simp [hpv]
    rw [occlusionFactor]
    cases hpu : acc.get u with
    | none =>
      rw [ih hf]
      simp [hu, hpu]
    | some pu =>
      simp only [hlaws.one_mul]
      by_cases hle : acc.l2sqr pu pv ≤ c.distance
      · rw [if_pos hle]
        simp [hu, hpu, hle]
      · have hlt : c.distance < acc.l2sqr pu pv := lt_of_not_ge hle
        have hmax : max f (c.distance / if acc.l2sqr pu pv ≤ 0 then acc.tiny
            else acc.l2sqr pu pv) ≤ 1 := by
          rw [if_neg (not_le.mpr (hc.trans_lt hlt))]
          exact max_le hf (hlaws.div_le_one _ _ hc hlt)
        rw [if_neg hle, if_neg (not_lt.mpr hmax), ih hmax]
        simp [hu, hpu, hle]

/-- A pass over entries that have not been tried selects greedily. -/
theorem occludePass_eq_select (hlaws : UnitLaws δ) (acc : PairAccessor ν δ)
    (location degree : ℕ) {l : List (CN δ)} (hl : ∀ c ∈ l, 0 ≤ c.distance) (S : List (CN δ)) :
    (occludePass acc location degree 1 (l.map fun c => (c, some 0)) (S.map CN.id)).2 =
      (select degree (Keeps acc location) S l).map CN.id := by
  induction l generalizing S with
  | nil => rfl
  | cons c l ih =>
    have ih := ih fun c hc => hl c (List.mem_cons_of_mem _ hc)
    have hfresh : (some (0 : δ)).all (fun x => decide (1 < x)) = false := by
      simpa using hlaws.zero_le_one
    rw [List.map_cons, occludePass, List.length_map, select_cons, step]
    by_cases hdeg : degree ≤ S.length
    · rw [if_pos hdeg, if_neg fun h => absurd h.1 (Nat.not_lt.mpr hdeg), select_full _ _ hdeg]
    rw [if_neg hdeg, hfresh, if_neg Bool.false_ne_true]
    by_cases hloc : c.id = location
    · rw [if_pos hloc, if_neg fun h => h.2.1 hloc]
      exact ih S
    rw [if_neg hloc]
    cases hpv : acc.get c.id with
    | none =>
      rw [if_neg fun h => by simpa [hpv] using h.2.2.1]
      exact ih S
    | some pv =>
      have hnone := occlusionFactor_eq_none_iff hlaws acc hpv (hl c List.mem_cons_self)
        (S.map CN.id) hlaws.zero_le_one
      cases hf : occlusionFactor acc 1 pv c.distance (S.map CN.id) 0 with
      | none =>
        obtain ⟨u, hu, hocc⟩ := hnone.mp hf
        obtain ⟨e, he, rfl⟩ := List.mem_map.mp hu
        rw [if_neg fun h => by simpa [hocc] using h.2.2.2 e he]
        simp only [hf]
        exact ih S
      | some f' =>
        have hkeep : Keeps acc location S c := by
          refine ⟨hloc, by rw [hpv]; rfl, fun u hu => Bool.eq_false_iff.mpr fun hocc => ?_⟩
          have := hnone.mpr ⟨u.id, List.mem_map_of_mem hu, hocc⟩
          rw [hf] at this
          cases this
        rw [if_pos ⟨Nat.lt_of_not_le hdeg, hkeep⟩, ← ih (S ++ [c]), List.map_append]
        simp only [hf]
        rfl

/-- `occlude_list_ptr` selects greedily. -/
theorem occludeListPtr_eq (hlaws : UnitLaws δ) (acc : PairAccessor ν δ) (location degree : ℕ)
    {pool : List (CN δ)} (hpool : ∀ c ∈ pool, 0 ≤ c.distance) :
    occludeListPtr acc location pool degree =
      (robustPrune acc location degree pool).map CN.id := by
  have hsorted : ∀ c ∈ sortPool pool, 0 ≤ c.distance :=
    fun c hc => hpool c ((sortPool_perm pool).mem_iff.mp hc)
  rw [occludeListPtr, occludePasses, robustPrune]
  split_ifs with hdeg
  · rw [select_full degree (Keeps acc location) hdeg]
    rfl
  · simp only [occludePasses]
    exact occludePass_eq_select hlaws acc location degree hsorted []

omit [Zero δ] [One δ] [Mul δ] [Div δ] in
theorem sortPool_pairwise (pool : List (CN δ)) :
    (sortPool pool).Pairwise fun a b => a.key ≤ b.key := by
  have : Std.Total fun a b : CN δ => a.key ≤ b.key := ⟨fun _ _ => le_total _ _⟩
  have : IsTrans (CN δ) fun a b => a.key ≤ b.key := ⟨fun _ _ _ h h' => h.trans h'⟩
  exact List.pairwise_insertionSort _ pool

omit [One δ] [Mul δ] [Div δ] in
/-- Kept entries have different ids when a vector has distance 0 from itself. -/
theorem id_ne_of_not_occludes {acc : PairAccessor ν δ} (hself : ∀ p, acc.l2sqr p p = 0)
    {u c : CN δ} (hc : 0 ≤ c.distance) (hknown : (acc.get c.id).isSome)
    (h : acc.occludes u.id c = false) : u.id ≠ c.id := by
  intro he
  obtain ⟨p, hp⟩ := Option.isSome_iff_exists.mp hknown
  refine Bool.eq_false_iff.mp h ((acc.occludes_iff _ _).mpr ⟨p, p, he ▸ hp, hp, ?_⟩)
  rw [hself]
  exact hc

/-- A valid robust prune of a pool in which the id `v` has distance `dl v`: `out` has
different ids of the pool, nearest first, none of them the location or unknown; each
is nearer to the location than to those before it; and an entry that is not kept is
the location or unknown, repeats an id kept before it, is occluded by one, or comes
when `degree` ids are kept. -/
structure ValidPrune (acc : PairAccessor ν δ) (dl : ℕ → δ) (location degree : ℕ)
    (pool : List (CN δ)) (out : List ℕ) : Prop where
  nodup : out.Nodup
  length_le : out.length ≤ degree
  mem : ∀ v ∈ out, v ∈ pool.map CN.id ∧ v ≠ location ∧ (acc.get v).isSome
  nearest : out.Pairwise fun u v => dl u ≤ dl v
  clear : out.Pairwise fun u v => ∀ pu pv, acc.get u = some pu → acc.get v = some pv →
    dl v < acc.l2sqr pu pv
  dropped : ∀ pre c post, sortPool pool = pre ++ c :: post →
    ∃ kept, kept <+: out ∧ kept.Sublist (pre.map CN.id) ∧
      (kept ++ [c.id] <+: out ∨ c.id = location ∨ acc.get c.id = none ∨ c.id ∈ kept ∨
        (∃ u ∈ kept, ∃ pu pv, acc.get u = some pu ∧ acc.get c.id = some pv ∧
          acc.l2sqr pu pv ≤ dl c.id) ∨ kept.length = degree)

theorem occludeListPtr_valid (hlaws : UnitLaws δ) {acc : PairAccessor ν δ}
    (hself : ∀ p, acc.l2sqr p p = 0) {dl : ℕ → δ} (location degree : ℕ) {pool : List (CN δ)}
    (hdl : ∀ c ∈ pool, c.distance = dl c.id ∧ 0 ≤ c.distance) :
    ValidPrune acc dl location degree pool (occludeListPtr acc location pool degree) := by
  rw [occludeListPtr_eq hlaws acc location degree fun c hc => (hdl c hc).2]
  have hsorted : ∀ c ∈ sortPool pool, c.distance = dl c.id ∧ 0 ≤ c.distance :=
    fun c hc => hdl c ((sortPool_perm pool).mem_iff.mp hc)
  obtain ⟨out, hsub, hout⟩ := exists_sublist degree (Keeps acc location) [] (sortPool pool)
  rw [List.nil_append] at hout
  have hmem : ∀ c ∈ robustPrune acc location degree pool, c ∈ sortPool pool :=
    fun c hc => hsub.mem (hout ▸ hc)
  have hkept : ∀ c ∈ robustPrune acc location degree pool,
      c.id ≠ location ∧ (acc.get c.id).isSome :=
    forall_mem_select degree _ (fun S c h => ⟨h.1, h.2.1⟩) (by simp) _
  have hocc : (robustPrune acc location degree pool).Pairwise
      fun u c => acc.occludes u.id c = false :=
    pairwise_select degree _ (fun S c h => h.2.2) List.Pairwise.nil _
  constructor
  case nodup =>
    refine List.pairwise_map.mpr (hocc.imp_of_mem fun hu hc h => ?_)
    exact id_ne_of_not_occludes hself (hsorted _ (hmem _ hc)).2 (hkept _ hc).2 h
  case length_le =>
    rw [List.length_map]
    exact length_select_le _ _ (Nat.zero_le _) _
  case mem =>
    intro v hv
    obtain ⟨c, hc, rfl⟩ := List.mem_map.mp hv
    exact ⟨List.mem_map_of_mem ((sortPool_perm pool).mem_iff.mp (hmem c hc)), hkept c hc⟩
  case nearest =>
    have horder : (robustPrune acc location degree pool).Pairwise fun u c => u.key ≤ c.key := by
      rw [robustPrune, hout]
      exact (sortPool_pairwise pool).sublist hsub
    refine List.pairwise_map.mpr (horder.imp_of_mem fun {u c} hu hc h => ?_)
    rw [← (hsorted _ (hmem _ hu)).1, ← (hsorted _ (hmem _ hc)).1]
    exact (Prod.Lex.le_iff.mp h).elim (fun hlt => hlt.le) fun heq => heq.1.le
  case clear =>
    refine List.pairwise_map.mpr (hocc.imp_of_mem fun {u c} _ hc h pu pv hu hv => ?_)
    rw [← (hsorted _ (hmem _ hc)).1]
    refine lt_of_not_ge fun hle => Bool.eq_false_iff.mp h ?_
    exact (acc.occludes_iff _ _).mpr ⟨pu, pv, hu, hv, hle⟩
  case dropped =>
    intro pre c post he
    have hdist := (hsorted c (by rw [he]; simp)).1
    obtain ⟨kept, hpre, hsub, hreason⟩ := exists_selected_before degree (Keeps acc location)
      pre c post
    rw [← he] at hpre hreason
    refine ⟨kept.map CN.id, hpre.map CN.id, hsub.map CN.id, ?_⟩
    rcases hreason with hnext | hnot | hfull
    · left
      simpa [robustPrune] using hnext.map CN.id
    · right
      rcases not_keeps_iff.mp hnot with hloc | hnone | ⟨u, hu, hoccludes⟩
      · exact .inl hloc
      · exact .inr (.inl hnone)
      · obtain ⟨pu, pv, hpu, hpv, hle⟩ := (acc.occludes_iff _ _).mp hoccludes
        rw [hdist] at hle
        exact .inr (.inr (.inr (.inl ⟨u.id, List.mem_map_of_mem hu, pu, pv, hpu, hpv, hle⟩)))
    · iterate 5 right
      have hle := hpre.length_le.trans (length_select_le _ _ (Nat.zero_le degree) _)
      rw [List.length_map]
      exact Nat.le_antisymm hle hfull

end Prune

/-! ### The record of a node -/

section Record

variable {ν δ : Type*} [LinearOrder δ] (X : Partitions ν)

def Partitions.Holds (j v : ℕ) : Prop := X.first j ≤ v ∧ v < X.first (j + 1)

instance (j v : ℕ) : Decidable (X.Holds j v) := inferInstanceAs (Decidable (_ ∧ _))

/-- The records are those of a node and name exactly the ids of partition `j` among
those kept. -/
structure NamesKept (gid j : ℕ) (kept : List ℕ) (rs : List Record) : Prop where
  node : ∀ r ∈ rs, r.gid = gid
  ids : ∀ v, v ∈ appended rs gid ↔ v ∈ kept ∧ X.Holds j v

/-- The ids kept of another partition, as the in-place filter leaves them. -/
def keptOf (j : ℕ) (kept : List ℕ) : List ℕ :=
  kept.filter fun v => X.first j ≤ v ∧ v < X.last j

theorem mem_keptOf {j : ℕ} (hj : j < X.P) {kept : List ℕ} {v : ℕ} :
    v ∈ keptOf X j kept ↔ v ∈ kept ∧ X.Holds j v := by
  rw [keptOf, List.mem_filter, X.last_eq hj, decide_eq_true_eq]
  rfl

theorem exists_not_mem_take {l : List ℕ} (hnd : l.Nodup) {k : ℕ} (hk : k < l.length) :
    ∃ v ∈ l, v ∉ l.take k := by
  obtain ⟨v, hv⟩ := List.exists_mem_of_length_pos (l := l.drop k) (by
    rw [List.length_drop]
    omega)
  exact ⟨v, List.mem_of_mem_drop hv, fun ht => List.disjoint_take_drop hnd le_rfl ht hv⟩

theorem appendIds_gid {gid : ℕ} (hg : gid < 2 ^ 32) (ids : List ℕ) :
    ∀ r ∈ appendIds gid ids, r.gid = gid := by
  intro r hr
  unfold appendIds at hr
  split_ifs at hr
  · rw [List.mem_singleton.mp hr]
    exact Nat.mod_eq_of_lt hg
  · cases hr

/-- The record names its ids exactly when 16 bits hold their number. -/
theorem namesKept_iff {j : ℕ} (hj : j < X.P) {gid : ℕ} (hg : gid < 2 ^ 32) {kept : List ℕ}
    (hnd : kept.Nodup) :
    NamesKept X gid j kept (appendIds gid (keptOf X j kept)) ↔
      (keptOf X j kept).length < 2 ^ 16 := by
  have hids : ∀ v ∈ keptOf X j kept, v < 2 ^ 32 := by
    intro v hv
    obtain ⟨-, -, hlt⟩ := (mem_keptOf X hj).mp hv
    have hle := X.first_le (show j + 1 ≤ X.P from hj)
    have hN32 := X.N_lt
    rw [X.first_P] at hle
    omega
  have happ : appended (appendIds gid (keptOf X j kept)) gid = logged (keptOf X j kept) := by
    rw [appended_appendIds hg hids, if_pos rfl]
  constructor
  · intro h
    by_contra hge
    have hmod := Nat.mod_lt (keptOf X j kept).length (show 0 < 2 ^ 16 by norm_num)
    obtain ⟨v, hv, hnot⟩ :=
      exists_not_mem_take (hnd.filter _) (hmod.trans_le (Nat.le_of_not_lt hge))
    have := (h.ids v).mpr ((mem_keptOf X hj).mp hv)
    rw [happ] at this
    exact hnot this
  · intro hlt
    refine ⟨appendIds_gid hg _, fun v => ?_⟩
    rw [happ, logged, Nat.mod_eq_of_lt hlt, List.take_length, mem_keptOf X hj]

variable [Zero δ] [One δ] [Mul δ] [Div δ] (A : PairArgs ν δ)

/-- The prune of a pool for node `li` of partition `i` against partition `j` is valid, and
the record names what it keeps of `j`. -/
structure CrossPrune (dl : ℕ → δ) (i j li : ℕ) (pool : List (CN δ)) : Prop where
  valid : ValidPrune (pairAccessor X A ⟨i, i⟩ ⟨j, j⟩) dl (X.globalId i li) A.R pool
    (occludeListPtr (pairAccessor X A ⟨i, i⟩ ⟨j, j⟩) (X.globalId i li) pool A.R)
  record : NamesKept X (X.globalId i li) j
    (occludeListPtr (pairAccessor X A ⟨i, i⟩ ⟨j, j⟩) (X.globalId i li) pool A.R)
    (appendIds (X.globalId i li) (keptOf X j
      (occludeListPtr (pairAccessor X A ⟨i, i⟩ ⟨j, j⟩) (X.globalId i li) pool A.R)))

/-- The kept ids of the other partition when the pool is pruned greedily. -/
def keptByRule (i j li : ℕ) (pool : List (CN δ)) : List ℕ :=
  keptOf X j ((robustPrune (pairAccessor X A ⟨i, i⟩ ⟨j, j⟩) (X.globalId i li) A.R pool).map CN.id)

variable {X A}

theorem keptByRule_eq (hlaws : UnitLaws δ) (i j li : ℕ) {pool : List (CN δ)}
    (hpos : ∀ c ∈ pool, 0 ≤ c.distance) :
    keptByRule X A i j li pool = keptOf X j
      (occludeListPtr (pairAccessor X A ⟨i, i⟩ ⟨j, j⟩) (X.globalId i li) pool A.R) := by
  rw [keptByRule, occludeListPtr_eq hlaws _ _ _ hpos]

/-- The prune is valid for every pool, and the record is complete exactly when the
greedy rule keeps fewer than `2 ^ 16` ids of the other partition. -/
theorem crossPrune_iff (hlaws : UnitLaws δ) (hself : ∀ p, A.l2sqr p p = 0) {dl : ℕ → δ}
    {i j : ℕ} (hj : j < X.P) (li : ℕ) {pool : List (CN δ)}
    (hdl : ∀ c ∈ pool, c.distance = dl c.id ∧ 0 ≤ c.distance) :
    CrossPrune X A dl i j li pool ↔ (keptByRule X A i j li pool).length < 2 ^ 16 := by
  have hvalid : ValidPrune (pairAccessor X A ⟨i, i⟩ ⟨j, j⟩) dl (X.globalId i li) A.R pool
      (occludeListPtr (pairAccessor X A ⟨i, i⟩ ⟨j, j⟩) (X.globalId i li) pool A.R) :=
    occludeListPtr_valid hlaws hself _ _ hdl
  have hg : X.globalId i li < 2 ^ 32 := Nat.mod_lt _ (by norm_num)
  rw [keptByRule_eq hlaws i j li fun c hc => (hdl c hc).2, ← namesKept_iff X hj hg hvalid.nodup]
  exact ⟨fun h => h.record, fun h => ⟨hvalid, h⟩⟩

omit [LinearOrder δ] [Zero δ] [One δ] [Mul δ] [Div δ] in
theorem length_keptOf_le {j : ℕ} (hj : j < X.P) {kept : List ℕ} (hnd : kept.Nodup) :
    (keptOf X j kept).length ≤ X.size j := by
  have hsub : ∀ v ∈ keptOf X j kept, v ∈ List.range' (X.first j) (X.size j) := by
    intro v hv
    rw [List.mem_range'_1, ← X.first_succ]
    exact ((mem_keptOf X hj).mp hv).2
  have hle := ((hnd.filter _).subperm hsub).length_le
  rwa [List.length_range'] at hle

/-- The program's records are those of the pools it builds. -/
theorem crossLoop_eq (i j : ℕ) :
    crossLoop X A (pairAccessor X A ⟨i, i⟩ ⟨j, j⟩) ⟨i, i⟩ ⟨j, j⟩ =
      (List.range (X.size i)).flatMap fun li => appendIds (X.globalId i li) (keptOf X j
        (occludeListPtr (pairAccessor X A ⟨i, i⟩ ⟨j, j⟩) (X.globalId i li)
          (crossPool X A ⟨i, i⟩ ⟨j, j⟩ li) A.R)) := rfl

/-- The record is complete when the degree or the partition is small. -/
theorem crossPrune_of_small (hlaws : UnitLaws δ) (hself : ∀ p, A.l2sqr p p = 0) {dl : ℕ → δ}
    {i j : ℕ} (hj : j < X.P) (li : ℕ) {pool : List (CN δ)}
    (hdl : ∀ c ∈ pool, c.distance = dl c.id ∧ 0 ≤ c.distance)
    (hsmall : A.R < 2 ^ 16 ∨ X.size j < 2 ^ 16) : CrossPrune X A dl i j li pool := by
  have hvalid : ValidPrune (pairAccessor X A ⟨i, i⟩ ⟨j, j⟩) dl (X.globalId i li) A.R pool
      (occludeListPtr (pairAccessor X A ⟨i, i⟩ ⟨j, j⟩) (X.globalId i li) pool A.R) :=
    occludeListPtr_valid hlaws hself _ _ hdl
  have hg : X.globalId i li < 2 ^ 32 := Nat.mod_lt _ (by norm_num)
  refine ⟨hvalid, (namesKept_iff X hj hg hvalid.nodup).mpr ?_⟩
  rcases hsmall with hR | hsize
  · exact (List.length_filter_le _ _).trans_lt (hvalid.length_le.trans_lt hR)
  · exact (length_keptOf_le hj hvalid.nodup).trans_lt hsize

end Record

/-! ### The rule for a pair -/

section Rule

variable {ν δ : Type*} [LinearOrder δ] (X : Partitions ν)

def Partitions.partOf (v : ℕ) : ℕ := Nat.findGreatest (fun t => X.first t ≤ v) (X.P - 1)

theorem Partitions.partOf_eq {X : Partitions ν} {t v : ℕ} (ht : t < X.P) (hv : X.Holds t v) :
    X.partOf v = t := by
  refine Nat.findGreatest_eq_iff.mpr ⟨by omega, fun _ => hv.1, fun u htu _ hu => ?_⟩
  have := X.first_le (show t + 1 ≤ u from htu)
  exact absurd (hv.2.trans_le this) (not_lt.mpr hu)

def Partitions.point (v : ℕ) : ν := X.vec (X.partOf v) (v - X.first (X.partOf v))

variable (A : PairArgs ν δ)

def allPoints : PairAccessor ν δ where
  get v := if v < X.N then some (X.point v) else none
  l2sqr := A.l2sqr
  tiny := A.tiny

variable {X}

omit [LinearOrder δ] in
theorem get_allPoints {t v : ℕ} (ht : t < X.P) (hv : X.Holds t v) :
    (allPoints X A).get v = some (X.vec t (v - X.first t)) := by
  have hlt : v < X.N := hv.2.trans_le ((X.first_le (show t + 1 ≤ X.P from ht)).trans_eq X.first_P)
  simp only [allPoints]
  rw [if_pos hlt, Partitions.point, Partitions.partOf_eq ht hv]

omit [LinearOrder δ] in
theorem get_pairAccessor {i j v : ℕ} (hi : i < X.P) (hj : j < X.P)
    (hv : X.Holds i v ∨ X.Holds j v) :
    (pairAccessor X A ⟨i, i⟩ ⟨j, j⟩).get v = (allPoints X A).get v := by
  simp only [pairAccessor, X.last_eq hi, X.last_eq hj]
  by_cases hvi : X.first i ≤ v ∧ v < X.first (i + 1)
  · rw [if_pos hvi, get_allPoints A hi hvi]
  · have hvj : X.first j ≤ v ∧ v < X.first (j + 1) := hv.resolve_left hvi
    rw [if_neg hvi, if_pos hvj, get_allPoints A hj hvj]

omit [LinearOrder δ] in
/-- Both loops over a pair have the same accessor, whichever partition comes first. -/
theorem pairAccessor_swap {i j : ℕ} (hi : i < X.P) (hj : j < X.P) :
    pairAccessor X A ⟨i, i⟩ ⟨j, j⟩ = pairAccessor X A ⟨j, j⟩ ⟨i, i⟩ := by
  have hget : ∀ v, (pairAccessor X A ⟨i, i⟩ ⟨j, j⟩).get v =
      (pairAccessor X A ⟨j, j⟩ ⟨i, i⟩).get v := by
    intro v
    by_cases hv : X.Holds i v ∨ X.Holds j v
    · rw [get_pairAccessor A hi hj hv, get_pairAccessor A hj hi hv.symm]
    · rw [not_or] at hv
      have hvi : ¬ (X.first i ≤ v ∧ v < X.first (i + 1)) := hv.1
      have hvj : ¬ (X.first j ≤ v ∧ v < X.first (j + 1)) := hv.2
      simp only [pairAccessor, X.last_eq hi, X.last_eq hj, if_neg hvi, if_neg hvj]
  exact congrArg (fun get => PairAccessor.mk get A.l2sqr A.tiny) (funext hget)

/-- The rule sees of a pool its entries' vectors only. -/
theorem robustPrune_congr {acc acc' : PairAccessor ν δ} (hl2sqr : acc.l2sqr = acc'.l2sqr)
    {pool : List (CN δ)} (hget : ∀ c ∈ pool, acc.get c.id = acc'.get c.id)
    (location degree : ℕ) :
    robustPrune acc location degree pool = robustPrune acc' location degree pool := by
  have hkeeps : ∀ (S : List (CN δ)) (c : CN δ), (∀ u ∈ S, acc.get u.id = acc'.get u.id) →
      acc.get c.id = acc'.get c.id → (Keeps acc' location (S.map id) c ↔ Keeps acc location S c) := by
    intro S c hS hc
    rw [List.map_id]
    refine and_congr_right fun _ => and_congr (by rw [hc]) (forall₂_congr fun u hu => ?_)
    rw [PairAccessor.occludes, PairAccessor.occludes, hS u hu, hc, hl2sqr]
  have hsame := select_map degree (Keeps acc location) id hkeeps (S := [])
    (fun u hu => absurd hu List.not_mem_nil) fun c hc => hget c ((sortPool_perm pool).mem_iff.mp hc)
  rw [List.map_nil, List.map_id, List.map_id] at hsame
  exact hsame.symm

variable (X) in
/-- The ids of partition `j` that the rule keeps for node `li` of partition `i`. -/
def crossRule (i j li : ℕ) : List ℕ :=
  keptOf X j ((robustPrune (allPoints X A) (X.globalId i li) A.R
    (crossPool X A ⟨i, i⟩ ⟨j, j⟩ li)).map CN.id)

/-- Distances are not negative. -/
structure PairArgs.Lawful [Zero δ] [One δ] [Mul δ] [Div δ] (A : PairArgs ν δ) : Prop where
  laws : UnitLaws δ
  compare_nonneg : ∀ p q, 0 ≤ A.compare p q
  l2sqr_nonneg : ∀ p q, 0 ≤ A.l2sqr p q

/-- The pool has ids of both partitions and no negative distance. -/
theorem crossPool_spec {i j : ℕ} (hi : i < X.P) (hj : j < X.P) (li : ℕ) :
    ∀ c ∈ crossPool X A ⟨i, i⟩ ⟨j, j⟩ li, X.Holds i c.id ∨ X.Holds j c.id := by
  intro c hc
  rcases List.mem_append.mp hc with hc | hc
  · obtain ⟨p, hp, rfl⟩ := List.mem_map.mp (List.mem_of_mem_filter hc)
    have hlt := (exportVisited_spec (A := A) hj (X.vec i li)).2 p hp
    rw [X.globalId_eq hj hlt]
    exact .inr ⟨Nat.le_add_right _ _, Nat.add_lt_add_left hlt _⟩
  · obtain ⟨lid, hlid, rfl⟩ := List.mem_map.mp (List.mem_of_mem_filter hc)
    have hlt := X.neighbours_lt hi hlid
    rw [X.globalId_eq hi hlt]
    exact .inl ⟨Nat.le_add_right _ _, Nat.add_lt_add_left hlt _⟩

variable [Zero δ] [One δ] [Mul δ] [Div δ] {A}

theorem crossPool_nonneg (hA : A.Lawful) {i j : ℕ} (hj : j < X.P) (li : ℕ) :
    ∀ c ∈ crossPool X A ⟨i, i⟩ ⟨j, j⟩ li, 0 ≤ c.distance := by
  obtain ⟨hinv, -⟩ := iterateToFixedPointEmit_spec (X.neighbours j)
    (fun v => A.compare (X.vec i li) (X.vec j v)) A.L_pos
    (List.forall_mem_singleton.mpr (X.start_lt j hj)) fun v _ w hw => X.neighbours_lt hj hw
  intro c hc
  rcases List.mem_append.mp hc with hc | hc
  · obtain ⟨p, hp, rfl⟩ := List.mem_map.mp (List.mem_of_mem_filter hc)
    exact (hA.compare_nonneg _ _).trans_eq (hinv.dist_eq p hp).symm
  · obtain ⟨lid, -, rfl⟩ := List.mem_map.mp (List.mem_of_mem_filter hc)
    exact hA.l2sqr_nonneg _ _

/-- What a pair names for a node, in either of its loops. -/
theorem crossIds_eq_rule (hA : A.Lawful) {i j : ℕ} (hi : i < X.P) (hj : j < X.P) (li : ℕ) :
    crossIds X A (pairAccessor X A ⟨i, i⟩ ⟨j, j⟩) ⟨i, i⟩ ⟨j, j⟩ li = crossRule X A i j li := by
  have hkept : keptByRule X A i j li (crossPool X A ⟨i, i⟩ ⟨j, j⟩ li) =
      crossIds X A (pairAccessor X A ⟨i, i⟩ ⟨j, j⟩) ⟨i, i⟩ ⟨j, j⟩ li :=
    keptByRule_eq hA.laws i j li (crossPool_nonneg hA hj li)
  have hrule : robustPrune (pairAccessor X A ⟨i, i⟩ ⟨j, j⟩) (X.globalId i li) A.R
      (crossPool X A ⟨i, i⟩ ⟨j, j⟩ li) =
      robustPrune (allPoints X A) (X.globalId i li) A.R (crossPool X A ⟨i, i⟩ ⟨j, j⟩ li) :=
    robustPrune_congr (by rfl) (fun c hc => get_pairAccessor A hi hj
      (crossPool_spec A hi hj li c hc)) _ _
  rw [← hkept, keptByRule, crossRule, hrule]

end Rule

/-! ### Either side of a point -/

theorem unitLaws_nat : UnitLaws ℕ where
  one_mul := Nat.one_mul
  zero_le_one := Nat.zero_le 1
  div_le_one x y _ h := by
    rw [Nat.div_eq_of_lt h]
    exact Nat.zero_le 1

/-- Two partitions of two points, which are neighbours of each other. -/
def twoPairs (vec : ℕ → ℕ → ℕ) : Partitions ℕ where
  N := 4
  D := 1
  P := 2
  N_lt := Bytes.four_lt_word
  P_pos := Nat.two_pos
  P_le := by decide
  adj _ := [[1], [0]]
  start _ := 0
  vec := vec
  adj_length := by decide
  adj_lt := by decide
  start_lt := by decide

/-- Points of a line, the first at 10: the other of its partition above it, those of the second
partition below. -/
def bothSides : Partitions ℕ := twoPairs fun t v => if t = 0 then 10 + v else 8 - v

def squaredArgs : PairArgs ℕ ℕ where
  compare p q := (p - q) ^ 2 + (q - p) ^ 2
  l2sqr p q := (p - q) ^ 2 + (q - p) ^ 2
  tiny := 1
  L := 2
  R := 3
  L_pos := Nat.two_pos

def fromTen (v : ℕ) : ℕ := [0, 1, 4, 9].getD v 0

/-- A point comes twice, and it occludes the one that is farther on the same side. -/
theorem crossPrune_bothSides :
    keptByRule bothSides squaredArgs 0 1 0 [⟨3, 9⟩, ⟨2, 4⟩, ⟨1, 1⟩, ⟨2, 4⟩] = [2] ∧
      CrossPrune bothSides squaredArgs fromTen 0 1 0 [⟨3, 9⟩, ⟨2, 4⟩, ⟨1, 1⟩, ⟨2, 4⟩] := by
  have hkept : keptByRule bothSides squaredArgs 0 1 0 [⟨3, 9⟩, ⟨2, 4⟩, ⟨1, 1⟩, ⟨2, 4⟩] = [2] := by
    decide
  have hself : ∀ p, squaredArgs.l2sqr p p = 0 := fun p => by simp [squaredArgs]
  refine ⟨hkept, (crossPrune_iff unitLaws_nat hself (by decide) 0 (by decide)).mpr ?_⟩
  rw [hkept]
  decide

/-! ### A full record -/

theorem partSize_two_mul (n t : ℕ) : partSize (2 * n) 2 t = n := by
  have hdiv : 2 * n / 2 = n := by omega
  have hmod : 2 * n % 2 = 0 := by omega
  rw [partSize, hdiv, hmod, if_neg (Nat.not_lt_zero t), Nat.add_zero]

theorem length_firstFull {n : ℕ} (hn : 0 < n) :
    (List.range n :: List.replicate (n - 1) []).length = n := by
  rw [List.length_cons, List.length_replicate]
  omega

theorem lt_of_mem_firstFull {n v : ℕ} {nb : List ℕ}
    (hnb : nb ∈ List.range n :: List.replicate (n - 1) []) (hv : v ∈ nb) : v < n := by
  rcases List.mem_cons.mp hnb with rfl | hnb
  · exact List.mem_range.mp hv
  · rw [(List.mem_replicate.mp hnb).2] at hv
    cases hv

def twoHalves (n : ℕ) (hn : 0 < n) (h : 2 * n < 2 ^ 32) : Partitions ℕ where
  N := 2 * n
  D := 1
  P := 2
  N_lt := h
  P_pos := Nat.two_pos
  P_le := Nat.le_mul_of_pos_right 2 hn
  adj _ := List.range n :: List.replicate (n - 1) []
  start _ := 0
  vec t v := n * t + v
  adj_length t _ := (length_firstFull hn).trans (partSize_two_mul n t).symm
  adj_lt t _ _ hnb _ hv := (lt_of_mem_firstFull hnb hv).trans_eq (partSize_two_mul n t).symm
  start_lt t _ := hn.trans_eq (partSize_two_mul n t).symm

def apart (x y : ℕ) : ℕ := if x = y then 0 else 2

def apartArgs (n : ℕ) (hn : 0 < n) : PairArgs ℕ ℕ where
  compare := apart
  l2sqr := apart
  tiny := 1
  L := n
  R := n
  L_pos := hn

def secondHalf (n : ℕ) : List (CN ℕ) := (List.range n).map fun v => ⟨n + v, 1⟩

section Full

variable {n : ℕ} (hn : 0 < n) (h : 2 * n < 2 ^ 32)

theorem size_twoHalves (t : ℕ) : (twoHalves n hn h).size t = n := partSize_two_mul n t

theorem first_twoHalves : (twoHalves n hn h).first 1 = n ∧ (twoHalves n hn h).first 2 = 2 * n := by
  have h0 : (twoHalves n hn h).first 0 = 0 := rfl
  constructor
  · rw [Partitions.first_succ, h0, size_twoHalves, Nat.zero_add]
  · rw [Partitions.first_succ, Partitions.first_succ, h0, size_twoHalves, size_twoHalves]
    omega

theorem last_twoHalves : (twoHalves n hn h).last 0 = n ∧ (twoHalves n hn h).last 1 = 2 * n :=
  ⟨(Partitions.last_eq _ (by decide : 0 < 2)).trans (first_twoHalves hn h).1,
    (Partitions.last_eq _ (by decide : 1 < 2)).trans (first_twoHalves hn h).2⟩

theorem get_twoHalves {v : ℕ} (hv : v < n) :
    (pairAccessor (twoHalves n hn h) (apartArgs n hn) ⟨0, 0⟩ ⟨1, 1⟩).get (n + v) =
      some (n + v) := by
  obtain ⟨hlast0, hlast1⟩ := last_twoHalves hn h
  simp only [pairAccessor, hlast0, hlast1, (first_twoHalves hn h).1]
  rw [if_neg (by omega), if_pos (by omega)]
  simp [twoHalves]

theorem robustPrune_secondHalf :
    robustPrune (pairAccessor (twoHalves n hn h) (apartArgs n hn) ⟨0, 0⟩ ⟨1, 1⟩) 0 n
      (secondHalf n) = sortPool (secondHalf n) := by
  have hperm := sortPool_perm (secondHalf n)
  have hmem : ∀ c ∈ sortPool (secondHalf n), ∃ v < n, ⟨n + v, 1⟩ = c := by
    intro c hc
    simpa [secondHalf] using hperm.mem_iff.mp hc
  have hids : ((sortPool (secondHalf n)).map CN.id).Nodup := by
    rw [(hperm.map CN.id).nodup_iff, secondHalf, List.map_map]
    refine List.Nodup.map (fun v w hvw => ?_) List.nodup_range
    simpa using hvw
  rw [robustPrune, select_eq_append, List.nil_append]
  · rw [List.length_nil, hperm.length_eq, secondHalf, List.length_map, List.length_range,
      Nat.zero_add]
  · intro near c far he
    obtain ⟨v, hv, rfl⟩ := hmem c (by rw [he]; simp)
    have hget := get_twoHalves hn h hv
    refine ⟨(Nat.add_pos_left hn v).ne', by rw [hget]; rfl, fun u hu => ?_⟩
    obtain ⟨w, hw, rfl⟩ := hmem u (by rw [he]; simp at hu ⊢; exact .inl hu)
    have hne : n + w ≠ n + v := by
      rw [he, List.map_append, List.map_cons, List.nodup_append] at hids
      exact hids.2.2 _ (List.mem_map_of_mem hu) _ List.mem_cons_self
    refine Bool.eq_false_iff.mpr fun hocc => ?_
    obtain ⟨pu, pv, hpu, hpv, hle⟩ := (PairAccessor.occludes_iff _ _ _).mp hocc
    rw [get_twoHalves hn h hw] at hpu
    rw [hget] at hpv
    rw [← Option.some.inj hpu, ← Option.some.inj hpv] at hle
    change apart (n + w) (n + v) ≤ 1 at hle
    rw [apart, if_neg hne] at hle
    omega

theorem length_keptByRule_secondHalf :
    (keptByRule (twoHalves n hn h) (apartArgs n hn) 0 1 0 (secondHalf n)).length = n := by
  have hkept : keptByRule (twoHalves n hn h) (apartArgs n hn) 0 1 0 (secondHalf n) =
      (sortPool (secondHalf n)).map CN.id := by
    have hprune : robustPrune (pairAccessor (twoHalves n hn h) (apartArgs n hn) ⟨0, 0⟩ ⟨1, 1⟩)
        ((twoHalves n hn h).globalId 0 0) (apartArgs n hn).R (secondHalf n) =
        sortPool (secondHalf n) := robustPrune_secondHalf hn h
    rw [keptByRule, hprune, keptOf, List.filter_eq_self]
    intro v hv
    obtain ⟨c, hc, rfl⟩ := List.mem_map.mp hv
    rw [(sortPool_perm _).mem_iff, secondHalf, List.mem_map] at hc
    obtain ⟨w, hw, rfl⟩ := hc
    rw [List.mem_range] at hw
    rw [(last_twoHalves hn h).2, (first_twoHalves hn h).1, decide_eq_true_eq]
    exact ⟨Nat.le_add_right _ _, show n + w < 2 * n by omega⟩
  rw [hkept, List.length_map, (sortPool_perm _).length_eq, secondHalf, List.length_map,
    List.length_range]

theorem secondHalf_distance : ∀ c ∈ secondHalf n, c.distance = 1 ∧ 0 ≤ c.distance := by
  intro c hc
  obtain ⟨v, -, rfl⟩ := List.mem_map.mp hc
  exact ⟨rfl, Nat.zero_le 1⟩

end Full

theorem full_pos : 0 < 2 ^ 16 := by norm_num

theorem full_fits : 2 * 2 ^ 16 < 2 ^ 32 := by norm_num

/-- All `2 ^ 16` points of the second half are kept, and none is named. -/
theorem not_crossPrune : ¬ CrossPrune (twoHalves (2 ^ 16) full_pos full_fits)
    (apartArgs (2 ^ 16) full_pos) (fun _ => 1) 0 1 0 (secondHalf (2 ^ 16)) := by
  intro h
  refine absurd ((namesKept_iff _ (by decide) (Nat.mod_lt _ (by norm_num)) h.valid.nodup).mp
    h.record) ?_
  rw [← keptByRule_eq unitLaws_nat 0 1 0 fun c hc => (secondHalf_distance c hc).2,
    length_keptByRule_secondHalf]
  exact lt_irrefl _

end HiDANN.Construction
