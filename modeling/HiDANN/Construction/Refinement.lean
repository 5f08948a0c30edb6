import HiDANN.Construction.Pipeline
import HiDANN.Construction.RobustPrune

/-! The staged construction refines the one in a single process. The records of
the separate processes are, put together, the records of the single one, and
compaction depends on the logs only through the records they hold. What a node
gets is its own neighbours and, for every allowed pair with its partition, the
ids the pair names for it. -/

namespace HiDANN.Construction

open Script Format Scatter

variable {ν δ : Type*} [LinearOrder δ] [Zero δ] [One δ] [Mul δ] [Div δ] (J : Job ν δ)

/-! ### The records of each process -/

def crossRecords (mask : CrossPairMask) (b e : ℕ) : List Record :=
  (crossSteps J.P (-1) mask b e).flatMap (pairRecords J.parts J.pairs)

theorem crossRecords_split (mask : CrossPairMask) (n : ℕ) : crossRecords J mask 0 n =
    (List.range n).flatMap fun i => crossRecords J mask i (i + 1) := by
  simp only [crossRecords, crossSteps_split n, List.flatMap_assoc]

omit [Zero δ] [One δ] [Mul δ] [Div δ] in
/-- The pairs of some anchors do not end their process. -/
def SurvivesRange (ω : Team) (mask : CrossPairMask) (b e : ℕ) : Prop :=
  J.Survives ω (List.range' b (e - b)) (crossSteps J.P (-1) mask b e)

omit [LinearOrder δ] [Zero δ] [One δ] [Mul δ] [Div δ] in
theorem steps_single {file : Option PairsFile} {keep : Bool} :
    J.steps ⟨.pairProcessing, -1, -1, -1, file, keep⟩ = (loadCrossPairMask J.P file).map fun mask =>
      (List.range' 0 (J.P - 1), crossSteps J.P (-1) mask 0 (J.P - 1)) := by
  have hP : (if 1 < J.P then J.P - 1 else 0) = J.P - 1 := by
    split_ifs <;> omega
  cases hm : loadCrossPairMask J.P file with
  | error e => simp [Job.steps, Stage.doesCrossPairs, hm, Except.map]; rfl
  | ok mask =>
    simp [Job.steps, Stage.doesCrossPairs, hm, Except.map, anchorRange, hP]
    rfl

omit [LinearOrder δ] [Zero δ] [One δ] [Mul δ] [Div δ] in
theorem steps_anchor {file : Option PairsFile} {keep : Bool} {i : ℕ} (hi : i < J.P - 1) :
    J.steps ⟨.crossPairs, i, i, -1, file, keep⟩ = (loadCrossPairMask J.P file).map fun mask =>
      (List.range' i 1, crossSteps J.P (-1) mask i (i + 1)) := by
  have hrange : anchorRange J.P ⟨.crossPairs, i, i, -1, file, keep⟩ = .ok (i, i + 1) := by
    have h1 : ¬ J.P < 2 := by omega
    have h2 : ¬ ((i : ℤ) < 0 ∧ (i : ℤ) < 0) := by omega
    have h3 : ¬ ((i : ℤ) < 0 ∨ (i : ℤ) < i ∨ (J.P : ℤ) - 1 ≤ i) := by omega
    simp only [anchorRange, chosenAnchors, if_neg h1, if_neg h2, Int.natCast_nonneg, if_true,
      if_neg h3]
    rfl
  cases hm : loadCrossPairMask J.P file with
  | error e => simp [Job.steps, Stage.doesCrossPairs, hm, Except.map]; rfl
  | ok mask =>
    simp [Job.steps, Stage.doesCrossPairs, hm, Except.map, hrange]
    rfl

theorem crossRecords_gid_lt (mask : CrossPairMask) (b e : ℕ) :
    ∀ r ∈ crossRecords J mask b e, r.gid < J.parts.N := by
  intro r hr
  obtain ⟨p, hp, hr⟩ := List.mem_flatMap.mp hr
  obtain ⟨i, j, hij, hj, rfl⟩ := exists_of_mem_crossSteps hp
  have hj : j < J.parts.P := hj
  simp only [pairRecords, crossLoop, pairOf, List.mem_append, List.mem_flatMap,
    List.mem_range] at hr
  rcases hr with ⟨li, hli, hr⟩ | ⟨li, hli, hr⟩
  · exact appendIds_gid_lt (J.parts.globalId_lt (by omega) hli) r hr
  · exact appendIds_gid_lt (J.parts.globalId_lt hj hli) r hr

/-! ### The logs after each process -/

omit [Zero δ] [One δ] [Mul δ] [Div δ] in
theorem survives_nil (ω : Team) : J.Survives ω [] [] :=
  ⟨fun _ ht => absurd ht List.not_mem_nil, fun _ _ => ⟨_, rfl⟩⟩

/-- Dump and all pairs in one process. -/
theorem single_iff {ω : Team} {file : Option PairsFile} {keep : Bool} {fs fs' : Files} :
    Single J ω file keep fs fs' ↔ fs.hasSubindexes J.P = true ∧
      ∃ mask, loadCrossPairMask J.P file = .ok mask ∧ SurvivesRange J ω mask 0 (J.P - 1) ∧
      ∃ logs, Logged J.toBuckets (openAll J.toBuckets.B true fs)
          (selfDump J.parts ++ crossRecords J mask 0 (J.P - 1)) logs ∧
        Prog.Ends (compaction J.toBuckets J.P keep) (fs.withLogs J.toBuckets.B logs) ⟨⟩ fs' := by
  unfold Single Process
  rw [steps_single]
  cases loadCrossPairMask J.P file with
  | error e => simp [Except.map]
  | ok mask =>
    simp only [Except.map, Except.ok.injEq, Prod.mk.injEq, Stage.doesSelfDump,
      Stage.doesCrossPairs, Stage.doesCompact]
    constructor
    · rintro ⟨-, hsub, _, _, ⟨rfl, rfl⟩, hsurvives, fs₁, ⟨logs, hlog, rfl⟩, hends⟩
      exact ⟨hsub, mask, rfl, hsurvives, logs, hlog, hends⟩
    · rintro ⟨hsub, _, rfl, hsurvives, logs, hlog, hends⟩
      exact ⟨by simp, hsub, _, _, ⟨rfl, rfl⟩, hsurvives, _, ⟨logs, hlog, rfl⟩, hends⟩

theorem selfDump_iff {ω : Team} {keep : Bool} {fs fs' : Files} :
    Process J ω ⟨.selfDump, -1, -1, -1, none, keep⟩ fs fs' ↔ fs.hasSubindexes J.P = true ∧
      ∃ logs, Logged J.toBuckets (openAll J.toBuckets.B true fs) (selfDump J.parts) logs ∧
        fs' = fs.withLogs J.toBuckets.B logs := by
  have hsteps : J.steps ⟨.selfDump, -1, -1, -1, none, keep⟩ = .ok ([], []) := rfl
  have hrecords : J.records ⟨.selfDump, -1, -1, -1, none, keep⟩ [] = selfDump J.parts :=
    List.append_nil _
  unfold Process
  rw [hsteps]
  simp only [Except.ok.injEq, Prod.mk.injEq, Stage.doesSelfDump, Stage.doesCrossPairs,
    Stage.doesCompact]
  constructor
  · rintro ⟨-, hsub, _, _, ⟨rfl, rfl⟩, -, fs₁, ⟨logs, hlog, rfl⟩, rfl⟩
    exact ⟨hsub, logs, hrecords ▸ hlog, rfl⟩
  · rintro ⟨hsub, logs, hlog, rfl⟩
    exact ⟨by simp, hsub, _, _, ⟨rfl, rfl⟩, survives_nil J ω, _,
      ⟨logs, hrecords.symm ▸ hlog, rfl⟩, rfl⟩

theorem anchor_iff {ω : Team} {file : Option PairsFile} {keep : Bool} {fs fs' : Files} {i : ℕ}
    (hi : i < J.P - 1) :
    Process J ω ⟨.crossPairs, i, i, -1, file, keep⟩ fs fs' ↔ fs.hasSubindexes J.P = true ∧
      ∃ mask, loadCrossPairMask J.P file = .ok mask ∧ SurvivesRange J ω mask i (i + 1) ∧
      ∃ logs, Logged J.toBuckets (openAll J.toBuckets.B false fs)
          (crossRecords J mask i (i + 1)) logs ∧ fs' = fs.withLogs J.toBuckets.B logs := by
  unfold Process
  rw [steps_anchor J hi]
  cases loadCrossPairMask J.P file with
  | error e => simp [Except.map]
  | ok mask =>
    have hone : i + 1 - i = 1 := Nat.add_sub_cancel_left i 1
    simp only [Except.map, Except.ok.injEq, Prod.mk.injEq, Stage.doesSelfDump,
      Stage.doesCrossPairs, Stage.doesCompact, SurvivesRange, hone]
    constructor
    · rintro ⟨-, hsub, _, _, ⟨rfl, rfl⟩, hsurvives, fs₁, ⟨logs, hlog, rfl⟩, rfl⟩
      exact ⟨hsub, mask, rfl, hsurvives, logs, hlog, rfl⟩
    · rintro ⟨hsub, _, rfl, hsurvives, logs, hlog, rfl⟩
      exact ⟨by simp, hsub, _, _, ⟨rfl, rfl⟩, hsurvives, _, ⟨logs, hlog, rfl⟩, rfl⟩

theorem compact_iff {ω : Team} {keep : Bool} {fs fs' : Files} :
    Process J ω ⟨.compact, -1, -1, -1, none, keep⟩ fs fs' ↔ fs.hasSubindexes J.P = true ∧
      Prog.Ends (compaction J.toBuckets J.P keep) fs ⟨⟩ fs' := by
  have hsteps : J.steps ⟨.compact, -1, -1, -1, none, keep⟩ = .ok ([], []) := rfl
  unfold Process
  rw [hsteps]
  simp only [Except.ok.injEq, Prod.mk.injEq, Stage.doesSelfDump, Stage.doesCrossPairs,
    Stage.doesCompact]
  constructor
  · rintro ⟨-, hsub, _, _, ⟨rfl, rfl⟩, -, fs₁, rfl, hends⟩
    exact ⟨hsub, hends⟩
  · rintro ⟨hsub, hends⟩
    exact ⟨by simp, hsub, _, _, ⟨rfl, rfl⟩, survives_nil J ω, fs, rfl, hends⟩

def chainRecords (mask : CrossPairMask) (is : List ℕ) : List Record :=
  is.flatMap fun i => crossRecords J mask i (i + 1)

/-- A chain of anchors adds the records of its anchors, and none of its processes dies. -/
theorem CrossChain.holds {ω : Team} {file : Option PairsFile} {keep : Bool} {mask : CrossPairMask}
    (hmask : loadCrossPairMask J.P file = .ok mask) {is : List ℕ} (his : ∀ i ∈ is, i < J.P - 1)
    {fs fs' : Files} {recs : List Record} (hold : Holds J.toBuckets fs recs)
    (h : CrossChain J ω file keep is fs fs') :
    Holds J.toBuckets fs' (recs ++ chainRecords J mask is) ∧
      fs'.hasSubindexes J.P = fs.hasSubindexes J.P ∧
      ∀ i ∈ is, SurvivesRange J ω mask i (i + 1) := by
  induction is generalizing fs recs with
  | nil =>
    obtain rfl : fs' = fs := h
    exact ⟨by simpa [chainRecords] using hold, rfl, fun i hi => absurd hi List.not_mem_nil⟩
  | cons i is ih =>
    obtain ⟨fs₁, h₁, h₂⟩ := h
    obtain ⟨-, mask', hm, hsurvives, logs, hlog, rfl⟩ := (anchor_iff J (his i (by simp))).mp h₁
    obtain rfl : mask = mask' := Except.ok.inj (hmask.symm.trans hm)
    have hh := hlog.holds fs (opened_append hold) (fun r hr => by
      rcases List.mem_append.mp hr with hr | hr
      · exact hold.gid_lt r hr
      · exact crossRecords_gid_lt J mask i (i + 1) r hr)
    obtain ⟨h, hsub, hrest⟩ := ih (fun k hk => his k (by simp [hk])) hh h₂
    refine ⟨?_, hsub, List.forall_mem_cons.mpr ⟨hsurvives, hrest⟩⟩
    rw [chainRecords, List.flatMap_cons, ← List.append_assoc]
    exact h

theorem exists_crossChain {ω : Team} {file : Option PairsFile} (keep : Bool) (is : List ℕ)
    {mask : CrossPairMask} (hmask : loadCrossPairMask J.P file = .ok mask)
    (his : ∀ i ∈ is, i < J.P - 1) (hsurvives : ∀ i ∈ is, SurvivesRange J ω mask i (i + 1))
    {fs : Files} {recs : List Record} (hold : Holds J.toBuckets fs recs)
    (hsub : fs.hasSubindexes J.P = true) : ∃ fs', CrossChain J ω file keep is fs fs' := by
  induction is generalizing fs recs with
  | nil => exact ⟨fs, rfl⟩
  | cons i is ih =>
    obtain ⟨logs, hlog⟩ := exists_logged (opened_append hold) (crossRecords J mask i (i + 1))
    have hh := hlog.holds fs (opened_append hold) (fun r hr => by
      rcases List.mem_append.mp hr with hr | hr
      · exact hold.gid_lt r hr
      · exact crossRecords_gid_lt J mask i (i + 1) r hr)
    obtain ⟨hi, hrest⟩ := List.forall_mem_cons.mp hsurvives
    obtain ⟨fs', h⟩ := ih (fun k hk => his k (by simp [hk])) hrest hh hsub
    exact ⟨fs', _, (anchor_iff J (his i (by simp))).mpr ⟨hsub, mask, hmask, hi, logs, hlog, rfl⟩, h⟩

def allRecords (mask : CrossPairMask) : List Record :=
  selfDump J.parts ++ crossRecords J mask 0 (J.P - 1)

theorem allRecords_eq (mask : CrossPairMask) :
    allRecords J mask = selfDump J.parts ++ chainRecords J mask (List.range (J.P - 1)) := by
  rw [allRecords, crossRecords_split, chainRecords]

theorem allRecords_gid_lt (mask : CrossPairMask) :
    ∀ r ∈ allRecords J mask, r.gid < J.toBuckets.N := by
  intro r hr
  rcases List.mem_append.mp hr with hr | hr
  · exact selfDump_gid_lt J.parts r hr
  · exact crossRecords_gid_lt J mask _ _ r hr

/-- Either way, compaction runs on logs that hold all records. -/
theorem single_holds {ω : Team} {file : Option PairsFile} {keep : Bool} {fs fs' : Files}
    (h : Single J ω file keep fs fs') : ∃ mask, loadCrossPairMask J.P file = .ok mask ∧
      ∃ fs₁, Holds J.toBuckets fs₁ (allRecords J mask) ∧ WithinLimit J.toBuckets fs₁ ∧
        fs' = compacted J.toBuckets fs₁ J.P keep := by
  obtain ⟨-, mask, hm, -, logs, hlog, hends⟩ := (single_iff J).mp h
  obtain ⟨hl, rfl⟩ := (compaction_ends_iff ..).mp hends
  refine ⟨mask, hm, _, ?_, hl, rfl⟩
  exact hlog.holds fs (opened_truncate _ _) (allRecords_gid_lt J mask)

theorem staged_holds {ω : Team} {file : Option PairsFile} {keep : Bool} {mask : CrossPairMask}
    (hmask : loadCrossPairMask J.P file = .ok mask) {fs fs' : Files}
    (h : Staged J ω file keep fs fs') :
    (∃ fs₁, Holds J.toBuckets fs₁ (allRecords J mask) ∧ WithinLimit J.toBuckets fs₁ ∧
      fs' = compacted J.toBuckets fs₁ J.P keep) ∧
      ∀ i < J.P - 1, SurvivesRange J ω mask i (i + 1) := by
  obtain ⟨fs₁, fs₂, h₁, h₂, h₃⟩ := h
  obtain ⟨-, logs, hlog, rfl⟩ := (selfDump_iff J).mp h₁
  obtain ⟨-, hends⟩ := (compact_iff J).mp h₃
  obtain ⟨hl, rfl⟩ := (compaction_ends_iff ..).mp hends
  have hself := hlog.holds fs (opened_truncate _ _) (selfDump_gid_lt J.parts)
  obtain ⟨hchain, -, hsurvives⟩ := h₂.holds J hmask (fun i hi => List.mem_range.mp hi) hself
  rw [List.nil_append, ← allRecords_eq] at hchain
  exact ⟨⟨fs₂, hchain, hl, rfl⟩, fun i hi => hsurvives i (List.mem_range.mpr hi)⟩

/-! ### What a node gets -/

/-- The ids the pair of partitions `t` and `j` names for a node of `t`. -/
def crossPart (t j li : ℕ) : List ℕ :=
  logged (crossIds J.parts J.pairs (pairAccessor J.parts J.pairs ⟨t, t⟩ ⟨j, j⟩) ⟨t, t⟩ ⟨j, j⟩ li)

/-- The candidates of node `li` of partition `t`: its neighbours, and what each
allowed pair with another partition names for it. -/
def candidates (file : Option PairsFile) (t li : ℕ) : List ℕ :=
  logged (selfIds J.parts t li) ++
    ((List.range J.P).filter fun j => j ≠ t ∧ Allows file t j).flatMap fun j => crossPart J t j li

theorem flatMap_eq_of_unique {α β : Type*} {f : α → List β} {l : List α} {t : α} (hnd : l.Nodup)
    (ht : t ∈ l) (h : ∀ x ∈ l, x ≠ t → f x = []) : l.flatMap f = f t := by
  induction l with
  | nil => cases ht
  | cons x l ih =>
    rw [List.nodup_cons] at hnd
    rw [List.flatMap_cons]
    rcases List.mem_cons.mp ht with rfl | ht
    · have hrest : l.flatMap f = [] := by
        rw [List.flatMap_eq_nil_iff]
        exact fun y hy => h y (by simp [hy]) fun he => hnd.1 (he ▸ hy)
      rw [hrest, List.append_nil]
    · rw [h x (by simp) fun he => hnd.1 (he ▸ ht), List.nil_append]
      exact ih hnd.2 ht fun y hy => h y (by simp [hy])

section Node

variable {J} {t li : ℕ} (ht : t < J.parts.P) (hli : li < J.parts.size t)

include ht hli in
omit [LinearOrder δ] [Zero δ] [One δ] [Mul δ] [Div δ] in
theorem mem_part_iff {u : ℕ} : J.parts.first u ≤ J.parts.first t + li ∧
    J.parts.first t + li < J.parts.first (u + 1) ↔ u = t := by
  have hmem : J.parts.first t ≤ J.parts.first t + li ∧
      J.parts.first t + li < J.parts.first (t + 1) := by
    rw [J.parts.first_succ]
    omega
  constructor
  · exact fun h => J.parts.part_unique h hmem
  · rintro rfl
    exact hmem

include ht hli in
omit [LinearOrder δ] [Zero δ] [One δ] [Mul δ] [Div δ] in
/-- A loop over the nodes of a partition adds to a node what its own round names. -/
theorem appended_part {u : ℕ} (hu : u < J.parts.P) {f : ℕ → List ℕ}
    (hf : ∀ k < J.parts.size u, ∀ v ∈ f k, v < J.parts.N) :
    appended ((List.range (J.parts.size u)).flatMap fun k =>
        appendIds (J.parts.globalId u k) (f k)) (J.parts.first t + li) =
      if u = t then logged (f li) else [] := by
  have hN := J.parts.N_lt
  have hle := J.parts.first_le (show u + 1 ≤ J.parts.P from hu)
  rw [J.parts.first_P, J.parts.first_succ] at hle
  have hcongr : (List.range (J.parts.size u)).flatMap (fun k =>
      appendIds (J.parts.globalId u k) (f k)) =
      (List.range (J.parts.size u)).flatMap fun k => appendIds (J.parts.first u + k) (f k) :=
    List.flatMap_congr fun k hk => by rw [J.parts.globalId_eq hu (List.mem_range.mp hk)]
  rw [hcongr, appended_loop (by omega) (fun k hk v hv => (hf k hk v hv).trans hN),
    ← J.parts.first_succ]
  simp only [mem_part_iff ht hli]
  split_ifs with h
  · subst h
    rw [Nat.add_sub_cancel_left]
  · rfl

include ht hli in
omit [LinearOrder δ] [Zero δ] [One δ] [Mul δ] [Div δ] in
theorem appended_selfDump : appended (selfDump J.parts) (J.parts.first t + li) =
    logged (selfIds J.parts t li) := by
  have hself : ∀ u < J.parts.P, ∀ k < J.parts.size u, ∀ v ∈ selfIds J.parts u k, v < J.parts.N := by
    intro u hu k _ v hv
    have := ((selfIds_spec _ hu).1 v hv).2.1
    exact this.trans_le ((J.parts.first_le hu).trans_eq J.parts.first_P)
  rw [selfDump, appended_flatMap, flatMap_eq_of_unique List.nodup_range (List.mem_range.mpr ht)]
  · rw [appended_part ht hli ht (hself t ht), if_pos rfl]
  · intro u hu hne
    have hu := List.mem_range.mp hu
    rw [appended_part ht hli hu (hself u hu), if_neg hne]

include ht hli in
/-- A pair adds to a node of one side what it names from the other side. -/
theorem appended_pairRecords {i j : ℕ} (hij : i < j) (hj : j < J.parts.P) :
    appended (pairRecords J.parts J.pairs (pairOf i j)) (J.parts.first t + li) =
      if i = t then crossPart J t j li else if j = t then crossPart J t i li else [] := by
  have hcross : ∀ u w, u < J.parts.P → w < J.parts.P → u ≠ w → ∀ acc k,
      ∀ v ∈ crossIds J.parts J.pairs acc ⟨u, u⟩ ⟨w, w⟩ k, v < J.parts.N := by
    intro u w hu hw huw acc k v hv
    have := ((crossIds_spec acc hu hw huw).1 v hv).2
    exact this.trans_le ((J.parts.first_le hw).trans_eq J.parts.first_P)
  have hi : i < J.parts.P := hij.trans hj
  rw [pairRecords, appended_append, pairOf, crossLoop, crossLoop,
    appended_part ht hli hi fun k _ => hcross i j hi hj (by omega) _ k,
    appended_part ht hli hj fun k _ => hcross j i hj hi (by omega) _ k]
  by_cases hit : i = t
  · subst hit
    rw [if_pos rfl, if_neg (by omega), List.append_nil, if_pos rfl, crossPart]
  · by_cases hjt : j = t
    · subst hjt
      rw [if_neg hit, if_pos rfl, List.nil_append, if_neg hit, if_pos rfl, crossPart,
        pairAccessor_swap J.pairs hi hj]
    · simp [hit, hjt]

def partner (t : ℕ) (p : Side × Side) : Option ℕ :=
  if p.1.part = t then some p.2.part else if p.2.part = t then some p.1.part else none

theorem mem_partner {t i j k : ℕ} : k ∈ partner t (pairOf i j) ↔
    i = t ∧ j = k ∨ i ≠ t ∧ j = t ∧ i = k := by
  simp only [partner, pairOf]
  by_cases h1 : i = t
  · simp [h1]
  · by_cases h2 : j = t <;> simp [h1, h2]

include ht hli in
/-- The records of all processed pairs, as ids added to one node. -/
theorem appended_crossRecords (mask : CrossPairMask) :
    appended (crossRecords J mask 0 (J.P - 1)) (J.parts.first t + li) =
      ((crossSteps J.P (-1) mask 0 (J.P - 1)).filterMap (partner t)).flatMap fun j =>
        crossPart J t j li := by
  rw [crossRecords, appended_flatMap]
  have hmem : ∀ p ∈ crossSteps J.P (-1) mask 0 (J.P - 1),
      ∃ i j, i < j ∧ j < J.P ∧ p = pairOf i j := fun p hp => exists_of_mem_crossSteps hp
  generalize crossSteps J.P (-1) mask 0 (J.P - 1) = ps at hmem
  induction ps with
  | nil => rfl
  | cons p ps ih =>
    obtain ⟨i, j, hij, hj, rfl⟩ := hmem p (by simp)
    rw [List.flatMap_cons, ih fun q hq => hmem q (by simp [hq]), List.filterMap_cons,
      appended_pairRecords ht hli hij hj]
    by_cases hit : i = t
    · simp [partner, pairOf, hit]
    · by_cases hjt : j = t
      · simp [partner, pairOf, hit, hjt]
      · simp [partner, pairOf, hit, hjt]

include ht in
omit [LinearOrder δ] [Zero δ] [One δ] [Mul δ] [Div δ] in
/-- Every allowed partition is a partner exactly once. -/
theorem partners_perm {file : Option PairsFile} {mask : CrossPairMask}
    (hmask : loadCrossPairMask J.P file = .ok mask)
    [DecidablePred fun j => j ≠ t ∧ Allows file t j] :
    ((crossSteps J.P (-1) mask 0 (J.P - 1)).filterMap (partner t)).Perm
      ((List.range J.P).filter fun j => j ≠ t ∧ Allows file t j) := by
  refine (List.perm_ext_iff_of_nodup ?_ (List.nodup_range.filter _)).mpr fun k => ?_
  · rw [List.Nodup, List.pairwise_filterMap]
    refine (crossSteps_nodup J.P mask).imp_of_mem fun {p q} hp hq hne b hb b' hb' he => ?_
    subst he
    obtain ⟨i, j, hij, -, rfl⟩ := exists_of_mem_crossSteps hp
    obtain ⟨i', j', hij', -, rfl⟩ := exists_of_mem_crossSteps hq
    rw [← Option.mem_def, mem_partner] at hb hb'
    exact hne (pairOf_inj.mpr (by omega))
  · simp only [List.mem_filterMap, List.mem_filter, List.mem_range, decide_eq_true_eq]
    have ht' : t < J.P := ht
    constructor
    · rintro ⟨p, hp, hk⟩
      obtain ⟨i, j, hij, hj, hsel, rfl⟩ := mem_crossSteps.mp hp
      rw [crossPairSelected_iff hmask (by omega) hj (by omega)] at hsel
      rcases mem_partner.mp hk with ⟨rfl, rfl⟩ | ⟨-, rfl, rfl⟩
      · exact ⟨hj, by omega, hsel⟩
      · exact ⟨by omega, by omega, (allows_comm file _ _).mp hsel⟩
    · rintro ⟨hk, hkt, hsel⟩
      rcases Nat.lt_or_gt_of_ne hkt with hlt | hlt
      · refine ⟨pairOf k t, mem_crossSteps.mpr ⟨k, t, hlt, ht', ?_, rfl⟩,
          mem_partner.mpr (.inr ⟨hkt, rfl, rfl⟩)⟩
        rw [crossPairSelected_iff hmask hk ht' hkt]
        exact (allows_comm file _ _).mp hsel
      · refine ⟨pairOf t k, mem_crossSteps.mpr ⟨t, k, hlt, hk, ?_, rfl⟩,
          mem_partner.mpr (.inl ⟨rfl, rfl⟩)⟩
        rwa [crossPairSelected_iff hmask ht' hk (Ne.symm hkt)]

include ht hli in
/-- The records of the construction add up to the candidates of each node. -/
theorem appended_allRecords {file : Option PairsFile} {mask : CrossPairMask}
    (hmask : loadCrossPairMask J.P file = .ok mask) :
    (appended (allRecords J mask) (J.parts.first t + li)).Perm (candidates J file t li) := by
  classical
  rw [allRecords, appended_append, appended_selfDump ht hli, appended_crossRecords ht hli,
    candidates]
  exact ((partners_perm ht hmask).flatMap_right _).append_left _

end Node

/-! ### The refinement -/

def Yields (file : Option PairsFile) (out : Files) : Prop :=
  ∀ t < J.parts.P, ∀ li < J.parts.size t,
    (candRow (out.cand .idx) (out.cand .ids) (J.parts.first t + li)).Perm (candidates J file t li)

/-- The single process and the chain of processes go through the same pairs in
the same order, each allowed pair once and no other. -/
structure ProcessedOnce (file : Option PairsFile) (mask : CrossPairMask) : Prop where
  same : crossSteps J.P (-1) mask 0 (J.P - 1) =
    (List.range (J.P - 1)).flatMap fun i => crossSteps J.P (-1) mask i (i + 1)
  nodup : (crossSteps J.P (-1) mask 0 (J.P - 1)).Nodup
  mem : ∀ p, p ∈ crossSteps J.P (-1) mask 0 (J.P - 1) ↔
    ∃ i j, i < j ∧ j < J.P ∧ Allows file i j ∧ p = pairOf i j

omit [LinearOrder δ] [Zero δ] [One δ] [Mul δ] [Div δ] in
theorem processedOnce {file : Option PairsFile} {mask : CrossPairMask}
    (hmask : loadCrossPairMask J.P file = .ok mask) : ProcessedOnce J file mask where
  same := crossSteps_split _
  nodup := crossSteps_nodup _ _
  mem p := by
    rw [mem_crossSteps]
    constructor
    · rintro ⟨i, j, hij, hj, hsel, rfl⟩
      exact ⟨i, j, hij, hj, (crossPairSelected_iff hmask (by omega) hj (by omega)).mp hsel, rfl⟩
    · rintro ⟨i, j, hij, hj, hsel, rfl⟩
      exact ⟨i, j, hij, hj, (crossPairSelected_iff hmask (by omega) hj (by omega)).mpr hsel, rfl⟩

variable {J}

/-- Compaction of logs that hold all records yields the candidates. -/
theorem yields_compacted {file : Option PairsFile} {mask : CrossPairMask}
    (hmask : loadCrossPairMask J.P file = .ok mask) {fs : Files}
    (hh : Holds J.toBuckets fs (allRecords J mask)) (hl : WithinLimit J.toBuckets fs)
    (keep : Bool) : Yields J file (compacted J.toBuckets fs J.P keep) := by
  intro t ht li hli
  have hg : J.parts.first t + li < J.toBuckets.N := by
    have := J.parts.globalId_lt ht hli
    rwa [J.parts.globalId_eq ht hli] at this
  rw [candRow_compacted J.toBuckets fs hl J.P keep hg]
  exact (logRow_perm hh _).trans (appended_allRecords ht hli hmask)

theorem Single.yields {ω : Team} {file : Option PairsFile} {keep : Bool} {fs out : Files}
    (h : Single J ω file keep fs out) : Yields J file out := by
  obtain ⟨mask, hmask, fs₁, hh, hl, rfl⟩ := single_holds J h
  exact yields_compacted hmask hh hl keep

/-- With one partition there is no pair, whatever the file. -/
theorem candidates_one (file file' : Option PairsFile) (hP : J.parts.P ≤ 1) {t : ℕ}
    (ht : t < J.parts.P) (li : ℕ) : candidates J file t li = candidates J file' t li := by
  have hnil : ∀ f : Option PairsFile,
      (List.range J.P).filter (fun j => j ≠ t ∧ Allows f t j) = [] := by
    intro f
    rw [List.filter_eq_nil_iff]
    intro j hj
    have hj : j < J.parts.P := List.mem_range.mp hj
    rw [decide_eq_true_eq]
    exact fun h => h.1 (by omega)
  rw [candidates, candidates, hnil, hnil]

/-- With two partitions or more the first anchor loads the file. -/
theorem Staged.loads {ω : Team} {file : Option PairsFile} {keep : Bool} {fs out : Files}
    (hP : 1 < J.P) (h : Staged J ω file keep fs out) :
    ∃ mask, loadCrossPairMask J.P file = .ok mask := by
  obtain ⟨fs₁, fs₂, -, h₂, -⟩ := h
  rw [show J.P - 1 = (J.P - 2) + 1 by omega, List.range_succ_eq_map] at h₂
  obtain ⟨fs₃, h₃, -⟩ := h₂
  obtain ⟨-, mask, hm, -⟩ := (anchor_iff J (i := 0) (by omega)).mp h₃
  exact ⟨mask, hm⟩

theorem Staged.yields {ω : Team} {file : Option PairsFile} {keep : Bool} {fs out : Files}
    (h : Staged J ω file keep fs out) : Yields J file out := by
  by_cases hP : 1 < J.P
  · obtain ⟨mask, hmask⟩ := h.loads hP
    obtain ⟨⟨fs₁, hh, hl, rfl⟩, -⟩ := staged_holds J hmask h
    exact yields_compacted hmask hh hl keep
  · have hnone : Staged J ω none keep fs out := by
      have h0 : J.P - 1 = 0 := by omega
      unfold Staged at h ⊢
      rw [h0] at h ⊢
      exact h
    obtain ⟨⟨fs₁, hh, hl, rfl⟩, -⟩ :=
      staged_holds J (show loadCrossPairMask J.P none = .ok _ from rfl) hnone
    intro t ht li hli
    rw [candidates_one file none (Nat.le_of_not_lt hP) ht li]
    exact yields_compacted rfl hh hl keep t ht li hli

/-- The candidates depend on a file only through the pairs it allows. -/
theorem candidates_congr {file file' : Option PairsFile} {t : ℕ} (ht : t < J.P)
    (hsame : ∀ i < J.P, ∀ j < J.P, i ≠ j → (Allows file i j ↔ Allows file' i j)) (li : ℕ) :
    candidates J file t li = candidates J file' t li := by
  rw [candidates, candidates]
  congr 2
  refine List.filter_congr fun j hj => ?_
  have hj := List.mem_range.mp hj
  by_cases hjt : j = t
  · simp [hjt]
  · simp [hjt, hsame t ht j hj (Ne.symm hjt)]

/-! ### When the runs end -/

def candidatesOf (J : Job ν δ) (file : Option PairsFile) (g : ℕ) : List ℕ :=
  candidates J file (J.parts.partOf g) (g - J.parts.first (J.parts.partOf g))

theorem candidatesOf_node (file : Option PairsFile) {t li : ℕ} (ht : t < J.parts.P)
    (hli : li < J.parts.size t) :
    candidatesOf J file (J.parts.first t + li) = candidates J file t li := by
  rw [candidatesOf, Partitions.partOf_eq ht ⟨Nat.le_add_right _ _, Nat.add_lt_add_left hli _⟩,
    Nat.add_sub_cancel_left]

/-- No bucket has more candidates than one write transfers. -/
def CandidatesFit (J : Job ν δ) (file : Option PairsFile) : Prop :=
  ∀ b < J.toBuckets.B,
    4 * offset (fun u => (candidatesOf J file (J.toBuckets.bucketBase b + u)).length)
      (J.toBuckets.bucketLimit b - J.toBuckets.bucketBase b) ≤ Posix.maxRwCount

theorem withinLimit_iff_candidatesFit {file : Option PairsFile} {mask : CrossPairMask}
    (hmask : loadCrossPairMask J.P file = .ok mask) {fs : Files}
    (hh : Holds J.toBuckets fs (allRecords J mask)) :
    WithinLimit J.toBuckets fs ↔ CandidatesFit J file := by
  refine forall₂_congr fun b _ => ?_
  have hlen : ∀ u < J.toBuckets.bucketLimit b - J.toBuckets.bucketBase b,
      (logRow J.toBuckets fs (J.toBuckets.bucketBase b + u)).length =
        (candidatesOf J file (J.toBuckets.bucketBase b + u)).length := by
    intro u hu
    have hlimit : J.toBuckets.bucketLimit b ≤ J.parts.N := min_le_right _ _
    obtain ⟨t, ht, li, hli, hg⟩ := J.parts.exists_node
      (show J.toBuckets.bucketBase b + u < J.parts.N by omega)
    rw [hg, candidatesOf_node file ht hli]
    exact ((logRow_perm hh _).trans (appended_allRecords ht hli hmask)).length_eq
  rw [bucketIds_eq, offset_congr hlen]

/-- Whatever the threads have logged, the single process ends with it compacted. -/
theorem single_of_logged {ω : Team} {file : Option PairsFile} {mask : CrossPairMask}
    (hmask : loadCrossPairMask J.P file = .ok mask) (keep : Bool) {fs : Files}
    (hsub : fs.hasSubindexes J.P = true) (hsurvives : SurvivesRange J ω mask 0 (J.P - 1))
    (hfit : CandidatesFit J file) {logs : Logs}
    (hlog : Logged J.toBuckets (openAll J.toBuckets.B true fs) (allRecords J mask) logs) :
    WithinLimit J.toBuckets (fs.withLogs J.toBuckets.B logs) ∧
      Single J ω file keep fs
        (compacted J.toBuckets (fs.withLogs J.toBuckets.B logs) J.P keep) := by
  have hh := hlog.holds fs (opened_truncate _ _) (allRecords_gid_lt J mask)
  have hl : WithinLimit J.toBuckets (fs.withLogs J.toBuckets.B logs) :=
    (withinLimit_iff_candidatesFit hmask hh).mpr hfit
  exact ⟨hl, (single_iff J).mpr ⟨hsub, mask, hmask, hsurvives, logs, hlog,
    compaction_ends _ _ _ _ hl⟩⟩

/-- The single process ends when nothing ends it. -/
theorem exists_single_iff {ω : Team} {file : Option PairsFile} {mask : CrossPairMask}
    (hmask : loadCrossPairMask J.P file = .ok mask) (keep : Bool) (fs : Files) :
    (∃ out, Single J ω file keep fs out) ↔ fs.hasSubindexes J.P = true ∧
      SurvivesRange J ω mask 0 (J.P - 1) ∧ CandidatesFit J file := by
  constructor
  · rintro ⟨out, h⟩
    obtain ⟨hsub, mask', hm, hsurvives, -⟩ := (single_iff J).mp h
    obtain rfl : mask = mask' := Except.ok.inj (hmask.symm.trans hm)
    obtain ⟨mask', hm, fs₁, hh, hl, -⟩ := single_holds J h
    obtain rfl : mask = mask' := Except.ok.inj (hmask.symm.trans hm)
    exact ⟨hsub, hsurvives, (withinLimit_iff_candidatesFit hmask hh).mp hl⟩
  · rintro ⟨hsub, hsurvives, hfit⟩
    obtain ⟨logs, hlog⟩ := exists_logged (opened_truncate J.toBuckets fs) (allRecords J mask)
    exact ⟨_, (single_of_logged hmask keep hsub hsurvives hfit hlog).2⟩

/-- The staged run ends when nothing ends one of its processes. -/
theorem exists_staged_iff {ω : Team} {file : Option PairsFile} {mask : CrossPairMask}
    (hmask : loadCrossPairMask J.P file = .ok mask) (keep : Bool) (fs : Files) :
    (∃ out, Staged J ω file keep fs out) ↔ fs.hasSubindexes J.P = true ∧
      (∀ i < J.P - 1, SurvivesRange J ω mask i (i + 1)) ∧ CandidatesFit J file := by
  constructor
  · rintro ⟨out, h⟩
    have hsub : fs.hasSubindexes J.P = true := by
      obtain ⟨_, _, h₁, -⟩ := h
      exact ((selfDump_iff J).mp h₁).1
    obtain ⟨⟨fs₁, hh, hl, -⟩, hsurvives⟩ := staged_holds J hmask h
    exact ⟨hsub, hsurvives, (withinLimit_iff_candidatesFit hmask hh).mp hl⟩
  · rintro ⟨hsub, hsurvives, hfit⟩
    obtain ⟨logs, hlog⟩ := exists_logged (opened_truncate J.toBuckets fs) (selfDump J.parts)
    have hh₁ := hlog.holds fs (opened_truncate _ _) (selfDump_gid_lt J.parts)
    obtain ⟨fs₂, hchain⟩ := exists_crossChain J keep (List.range (J.P - 1)) hmask
      (fun i hi => List.mem_range.mp hi) (fun i hi => hsurvives i (List.mem_range.mp hi)) hh₁ hsub
    obtain ⟨hh₂, hsub₂, -⟩ := hchain.holds J hmask (fun i hi => List.mem_range.mp hi) hh₁
    rw [List.nil_append, ← allRecords_eq] at hh₂
    have hl₂ : WithinLimit J.toBuckets fs₂ := (withinLimit_iff_candidatesFit hmask hh₂).mpr hfit
    exact ⟨_, _, fs₂, (selfDump_iff J).mpr ⟨hsub, logs, hlog, rfl⟩, hchain,
      (compact_iff J).mpr ⟨hsub₂.trans hsub, compaction_ends _ _ _ _ hl₂⟩⟩

end HiDANN.Construction
