import HiDANN.Memory.SaveLoad
import HiDANN.Memory.Updates

/-! Runs of the updates. To its users an index is a map from tags to points, which inserts and
deletions change at the moment they hold the tag lock. A consolidation or a save changes nothing
of it, and a search returns points of it only. -/

namespace HiDANN.Memory

open Construction Search Relation Runs

open LinkArgs (Listed)

/-! ### What an index is for -/

/-- At most one point for each tag. -/
abbrev Points (τ V : Type*) := τ → Option V

namespace Points

variable {τ V : Type*} [DecidableEq τ]

def failedTags : List τ → Points τ V → List τ
  | [], _ => []
  | tag :: tags, m =>
    if (m tag).isSome then failedTags tags (Function.update m tag none)
    else tag :: failedTags tags m

def apply (m : Points τ V) : Action τ V → Points τ V
  | .insert tag point true => Function.update m tag (some point)
  | .insert _ _ false => m
  | .delete tag _ => Function.update m tag none
  | .deletes tags _ => fun tag => if tag ∈ tags then none else m tag
  | .work => m

theorem foldl_work (k : ℕ) (m : Points τ V) : (List.replicate k .work).foldl apply m = m := by
  induction k with
  | zero => rfl
  | succ k ih => exact ih

/-- The answers of the actions, when the index is full or not. -/
def Answers (m : Points τ V) (full : Prop) : Action τ V → Prop
  | .insert tag _ done => done ↔ m tag = none ∧ ¬ full
  | .delete tag done => done = (m tag).isSome
  | .deletes tags failed => failed = failedTags tags m
  | .work => True

end Points

namespace Slots

variable {τ V : Type*} [DecidableEq τ]

/-- The points of the tags, when `f` gives those of the locations. -/
def points (s : Slots τ) (f : ℕ → V) : Points τ V := fun tag => (s.tagToLocation.lookup tag).map f

theorem points_deleteTag (s : Slots τ) (f : ℕ → V) (tag : τ) :
    (s.deleteTag tag).2.points f = Function.update (s.points f) tag none ∧
      (s.deleteTag tag).1 = (s.points f tag).isSome := by
  obtain ⟨hdone, hlookup⟩ := s.deleteTag_lookup tag
  refine ⟨funext fun t => ?_, by rw [hdone, points, Option.isSome_map]⟩
  rw [points, hlookup, Function.update_apply]
  split_ifs <;> rfl

theorem Consistent.not_empty_of_lookup {s : Slots τ} {pending : List ℕ} (h : s.Consistent pending)
    {tag : τ} {loc : ℕ} (htag : s.tagToLocation.lookup tag = some loc) :
    loc ∉ s.emptySlots.values := by
  intro hempty
  have hplace := h.place loc
  rw [places, if_pos hempty, if_pos (h.contains_of_lookup htag)] at hplace
  split_ifs at hplace <;> omega

/-- What deletions leave alone. -/
structure SameLocations (s s' : Slots τ) : Prop where
  maxPoints : s'.maxPoints = s.maxPoints
  nd : s'.nd = s.nd
  empty : s'.emptySlots = s.emptySlots
  old : s'.oldDeleteSet = s.oldDeleteSet

theorem sameLocations_deleteTag (s : Slots τ) (tag : τ) : SameLocations s (s.deleteTag tag).2 := by
  obtain ⟨hmax, hnd, hempty⟩ := s.deleteTag_frame tag
  exact ⟨hmax, hnd, hempty, s.deleteTag_idle tag⟩

theorem lazyDelete_spec (s : Slots τ) (f : ℕ → V) (tag : τ) :
    (s.lazyDelete tag).1 = (s.points f tag).isSome ∧
      (s.lazyDelete tag).2.points f = Function.update (s.points f) tag none ∧
      SameLocations s (s.lazyDelete tag).2 := by
  obtain ⟨hpoints, hdone⟩ := points_deleteTag { s with dataCompacted := false } f tag
  obtain ⟨hmax, hnd, hempty, hold⟩ := sameLocations_deleteTag { s with dataCompacted := false } tag
  exact ⟨hdone, hpoints, hmax, hnd, hempty, hold⟩

theorem lazyDeletes_spec (s : Slots τ) (f : ℕ → V) (tags : List τ) :
    (s.lazyDeletes tags).1 = Points.failedTags tags (s.points f) ∧
      ((s.lazyDeletes tags).2.points f = fun t => if t ∈ tags then none else s.points f t) ∧
      SameLocations s (s.lazyDeletes tags).2 := by
  have hfold : ∀ (tags : List τ) (failed : List τ) (t : Slots τ),
      let r := tags.foldl (fun r tag =>
        let r' := r.2.deleteTag tag
        (if r'.1 then r.1 else r.1 ++ [tag], r'.2)) (failed, t)
      r.1 = failed ++ Points.failedTags tags (t.points f) ∧
        (r.2.points f = fun tag => if tag ∈ tags then none else t.points f tag) ∧
        SameLocations t r.2 := by
    intro tags
    induction tags with
    | nil =>
      exact fun failed t => ⟨(List.append_nil _).symm, by simp, ⟨rfl, rfl, rfl, rfl⟩⟩
    | cons tag tags ih =>
      intro failed t
      obtain ⟨hpoints, hdone⟩ := t.points_deleteTag f tag
      obtain ⟨hmax, hnd, hempty, hold⟩ := t.sameLocations_deleteTag tag
      obtain ⟨hfailed, hrest, hmax', hnd', hempty', hold'⟩ := ih
        (if (t.deleteTag tag).1 then failed else failed ++ [tag]) (t.deleteTag tag).2
      dsimp only at hfailed hrest ⊢
      rw [List.foldl_cons]
      refine ⟨?_, ?_, hmax'.trans hmax, hnd'.trans hnd, hempty'.trans hempty, hold'.trans hold⟩
      · rw [hfailed, hpoints, Points.failedTags, hdone]
        by_cases hsome : (t.points f tag).isSome
        · rw [if_pos hsome, if_pos hsome]
        · rw [if_neg hsome, if_neg hsome, List.append_assoc, List.singleton_append,
            Function.update_eq_self_iff.mpr (Option.not_isSome_iff_eq_none.mp hsome).symm]
      · rw [hrest, hpoints]
        funext t'
        by_cases heq : t' = tag <;> simp [heq]
  obtain ⟨hfailed, hpoints, hmax, hnd, hempty, hold⟩ :=
    hfold tags [] { s with dataCompacted := false }
  exact ⟨hfailed, hpoints, hmax, hnd, hempty, hold⟩

end Slots

namespace Updates

variable {τ V K : Type*} [DecidableEq τ]

/-- What the index holds for its users. A point counts from when its tag is set. -/
def points (s : Updates τ V K) : Points τ V :=
  s.index.slots.points s.held

variable [LinearOrder K] {A : UpdateArgs V K} {s s' : Updates τ V K}

/-! ### Inserts and deletions -/

section Users

variable [Zero τ] [Inhabited τ]

omit [LinearOrder K] [DecidableEq τ] [Zero τ] [Inhabited τ] in
theorem held_reserve {s : Updates τ V K} (slots : Slots τ) (point : V) (location : ℕ) :
    (s.reserve slots point (some location)).held = Function.update s.held location point := by
  funext v
  rcases eq_or_ne v location with rfl | hv
  · simp [held, Updates.reserve, withSlots]
  · simp [held, Updates.reserve, withSlots, Function.update_of_ne hv]

theorem Inv.reserve (h : s.Inv A) {tag : τ} {point : V} {r : Option ℕ} {slots : Slots τ}
    (hrun : s.index.slots.insertPoint tag = .ok (r, slots)) :
    (s.reserve slots point r).Inv A ∧
      (s.reserve slots point r).points = s.points.apply (.insert tag point r.isSome) ∧
      s.points.Answers (s.index.slots.nd = s.index.slots.maxPoints)
        (.insert tag point r.isSome) := by
  have htag : tag ≠ 0 := by
    rintro rfl
    rw [Slots.insertPoint, if_pos rfl] at hrun
    cases hrun
  obtain ⟨_, _, hrun', hslots, hfail, hsame, -⟩ := h.slots.insertPoint htag
  rw [hrun] at hrun'
  cases hrun'
  have hnone : s.points tag = none ↔ s.index.slots.tagToLocation.lookup tag = none := by
    rw [points, Slots.points, Option.map_eq_none_iff]
  have hanswer : s.points.Answers (s.index.slots.nd = s.index.slots.maxPoints)
      (.insert tag point r.isSome) := by
    have hiff : r.isSome ↔ ¬ r = none := Option.isSome_iff_ne_none
    rw [Points.Answers, hiff, hfail, hnone, not_or, Option.not_isSome_iff_eq_none, and_comm]
  refine ⟨?_, ?_, hanswer⟩
  · cases r with
    | none =>
      rw [hsame rfl]
      exact h
    | some location =>
      have hres := h.slots.reserved hrun
      have hidle : slots.oldDeleteSet = none := by
        rw [hres.eq]
        exact h.idle
      have hmax : slots.maxPoints = s.index.slots.maxPoints := by rw [hres.eq]
      refine h.withSlots hslots hidle hmax (fun v hv => ((hres.empty v).mp hv).1) (fun v hv => ?_)
        (fun v hv => ?_)
      · exact Function.update_of_ne (fun he => hv (by rw [he]; exact hres.was_empty)) _ _
      · rw [hres.empty, and_iff_right hv]
        rcases eq_or_ne v location with rfl | hne
        · simp
        · rw [Function.update_of_ne hne]
          have hno : ¬ (s.arriving v ≠ none ∨ s.task v ≠ .finished) :=
            fun hflight => (h.flight v hflight).2 hv
          exact iff_of_true hne (not_not.mp fun hne => hno (.inl hne))
  · cases r with
    | none =>
      rw [hsame rfl]
      rfl
    | some location =>
      have hres := h.slots.reserved hrun
      have hlookup : slots.tagToLocation = s.index.slots.tagToLocation.insert tag location := by
        rw [hres.eq]
      funext t
      change (slots.tagToLocation.lookup t).map (s.reserve slots point (some location)).held =
        Function.update s.points tag (some point) t
      rw [held_reserve, hlookup]
      rcases eq_or_ne t tag with rfl | ht
      · rw [AList.lookup_insert, Option.map_some, Function.update_self, Function.update_self]
      · rw [AList.lookup_insert_ne ht, Function.update_of_ne ht, points, Slots.points]
        refine Option.map_congr fun loc hloc => Function.update_of_ne (fun he => ?_) ..
        exact h.slots.consistent.not_empty_of_lookup hloc (he ▸ hres.was_empty)

omit [Zero τ] [Inhabited τ] in
theorem Inv.deleted (h : s.Inv A) {slots : Slots τ} (hslots : slots.Inv)
    (hsame : Slots.SameLocations s.index.slots slots) : (s.withSlots slots).Inv A := by
  refine h.withSlots hslots (hsame.old.trans h.idle) hsame.maxPoints (fun v hv => ?_)
    (fun _ _ => rfl) (fun v hv => ?_)
  · rwa [hsame.empty] at hv
  · rw [hsame.empty, iff_true_left hv]
    by_contra harriving
    exact (h.flight v (.inl harriving)).2 hv

end Users

/-! ### Consolidations and saves -/

/-- An index at rest whose lists lead to points keeps the invariant. -/
theorem Inv.of_quiet (hquiet : s.Quiet) (hslots : s.index.slots.Inv)
    (hidle : s.index.slots.oldDeleteSet = none) (hfrozen : 0 < s.index.numFrozenPts)
    (hstart : s.index.start = s.index.slots.maxPoints) (htotal : s.index.total ≤ 2 ^ 32)
    (hbounds : s.index.InBounds)
    (hlists : ∀ v, s.Linked v →
      Listed s.Linked v (s.index.graph v) ∧ (s.index.graph v).length ≤ A.bound) : s.Inv A where
  slots := hslots
  idle := hidle
  frozen := hfrozen
  start := hstart
  total_le := htotal
  bounds := hbounds
  lists v hv := (hlists v hv).1
  length_le v hv := (hlists v hv).2
  flight v hv := absurd (hquiet v).2 (hv.resolve_left (not_not.mpr (hquiet v).1))
  single v _ := (hquiet v).2
  task v := by
    rw [(hquiet v).2]
    exact trivial
  uncleaned v := by
    rw [(hquiet v).2]
    exact nofun

omit [DecidableEq τ] [LinearOrder K] in
theorem Quiet.linked_iff (hquiet : s.Quiet) {v : ℕ} :
    s.Linked v ↔ v < s.index.total ∧ v ∉ s.index.slots.emptySlots.values := by
  rw [Linked, (hquiet v).1, (hquiet v).2]
  exact ⟨fun h => ⟨h.1, h.2.1⟩, fun h => ⟨h.1, h.2, rfl, rfl⟩⟩

omit [DecidableEq τ] [LinearOrder K] in
theorem Quiet.held_eq (hquiet : s.Quiet) : s.held = s.index.vector := by
  funext v
  rw [held, (hquiet v).1, Option.getD_none]

omit [LinearOrder K] in
theorem Quiet.points_eq (hquiet : s.Quiet) : s.points = s.index.slots.points s.index.vector := by
  rw [points, hquiet.held_eq]

theorem Inv.place_of_deleted (h : s.Inv A) {v : ℕ} (hv : v ∈ s.index.slots.deleteSet) :
    v < s.index.slots.maxPoints ∧ v ∉ s.index.slots.emptySlots.values := by
  have hplace := h.slots.consistent.place v
  rw [Slots.places, if_pos hv] at hplace
  constructor
  · by_contra hge
    rw [if_neg hge] at hplace
    omega
  · intro hempty
    rw [if_pos hempty] at hplace
    split_ifs at hplace <;> omega

section Consolidation

variable [Field K] {params : WriteParameters K} {setOrder : List ℕ → List ℕ}

theorem Inv.consolidateArgs_valid (h : s.Inv A) (hA : A.Valid) (halpha : 1 ≤ params.alpha)
    (hperm : ∀ l, (setOrder l).Perm l) : (A.consolidateArgs s.index params setOrder).Valid where
  live v hv := by
    intro (hdel : v ∈ s.index.slots.deleteSet)
    rcases List.mem_append.mp hv with hv | hv
    · have hprocessed := of_decide_eq_true (List.mem_filter.mp hv).2
      rw [Slots.isProcessed, if_pos hdel] at hprocessed
      cases hprocessed
    · exact absurd (h.place_of_deleted hdel).1 (not_lt.mpr (List.mem_range'_1.mp hv).1)
  setOrder_perm := hperm
  dist_nonneg _ _ := hA.dist_nonneg _ _
  metric_ne := hA.metric_ne
  alpha_ge := halpha

omit [Field K] in
/-- The loop goes over the locations that are neither deleted nor empty. -/
theorem Inv.mem_locations (h : s.Inv A) (hquiet : s.Quiet)
    (hsome : ∀ loc < s.index.slots.maxPoints,
      (s.index.slots.isProcessed s.index.slots.deleteSet loc).isSome) {v : ℕ}
    (hv : s.Linked v) (hdel : v ∉ s.index.slots.deleteSet) :
    v ∈ (A.consolidateArgs s.index params setOrder).locations := by
  obtain ⟨hlt, hempty⟩ := hquiet.linked_iff.mp hv
  rcases Nat.lt_or_ge v s.index.slots.maxPoints with hmax | hmax
  · refine List.mem_append_left _ (List.mem_filter.mpr ⟨List.mem_range.mpr hmax, ?_⟩)
    have hbit := hsome v hmax
    rw [Slots.isProcessed, if_neg hdel, Option.isSome_map] at hbit
    have hbits : v < s.index.slots.emptySlots.bits.length := by
      by_contra hge
      rw [NaturalNumberSet.isInSet, List.getElem?_eq_none (not_lt.mp hge)] at hbit
      cases hbit
    rw [Slots.isProcessed, if_neg hdel, h.slots.consistent.empty.isInSet hbits,
      decide_eq_false hempty]
    rfl
  · exact List.mem_append_right _ (List.mem_range'_1.mpr ⟨hmax, hlt⟩)

theorem Inv.consolidate [IsStrictOrderedRing K] [Archimedean K] [Zero τ] [Inhabited τ]
    (h : s.Inv A) (hA : A.Valid) (hquiet : s.Quiet) (halpha : 1 ≤ params.alpha)
    (hdegree : params.maxDegree ≤ A.largestDegree) (hperm : ∀ l, (setOrder l).Perm l)
    (hsome : ∀ loc < s.index.slots.maxPoints,
      (s.index.slots.isProcessed s.index.slots.deleteSet loc).isSome) {c : ConsolidateState}
    (hrun : ReflTransGen (A.consolidateArgs s.index params setOrder).Step
      (ConsolidateArgs.start s.index.graph) c)
    (hdone : (A.consolidateArgs s.index params setOrder).Done c) {slots : Slots τ}
    {order : List ℕ} (hslots : Slots.Consolidated s.index.slots slots order)
    (horder : order.toFinset = s.index.slots.deleteSet) :
    ({ s with index := { s.index with slots, graph := c.graph } } : Updates τ V K).Inv A ∧
      ({ s with index := { s.index with slots, graph := c.graph } } : Updates τ V K).points =
        s.points := by
  have hV := h.consolidateArgs_valid hA halpha hperm
  have hinv := ConsolidateArgs.ConsolidateInv.run hV hrun
  set s' : Updates τ V K := { s with index := { s.index with slots, graph := c.graph } }
  have hquiet' : s'.Quiet := hquiet
  have htotal : s'.index.total = s.index.total :=
    congrArg (· + s.index.numFrozenPts) hslots.maxPoints
  have hlinked : ∀ v, s'.Linked v ↔ s.Linked v ∧ v ∉ s.index.slots.deleteSet := by
    intro v
    rw [hquiet'.linked_iff, hquiet.linked_iff, htotal, show s'.index.slots = slots from rfl,
      hslots.empty, List.mem_append, not_or, ← horder, List.mem_toFinset, and_assoc]
  -- what a new list has was in a list of a point before
  have hnear : ∀ v, s.Linked v → ∀ w, (A.consolidateArgs s.index params setOrder).Near s.index.graph
      (s.index.graph v) v w → s.Linked w ∧ w ∉ s.index.slots.deleteSet := by
    rintro v hv w ⟨hnot, hw | ⟨d, hd, -, hw, -⟩⟩
    · exact ⟨(h.lists v hv).nodes w hw, hnot⟩
    · exact ⟨(h.lists d ((h.lists v hv).nodes d hd)).nodes w hw, hnot⟩
  have hconsolidated : ∀ v, s.Linked v → v ∉ s.index.slots.deleteSet →
      (A.consolidateArgs s.index params setOrder).Consolidated s.index.graph v (c.graph v) :=
    fun v hv hdel => hinv.after v (hdone v (h.mem_locations hquiet hsome hv hdel))
  constructor
  · refine .of_quiet hquiet' hslots.inv hslots.idle h.frozen (h.start.trans hslots.maxPoints.symm)
      (htotal ▸ h.total_le) ⟨htotal ▸ h.bounds.start, ?_⟩ fun v hv => ?_
    · rw [htotal]
      intro v hv w hw
      by_cases hfin : c.process v = .finished
      · obtain ⟨-, hw | ⟨d, hd, -, hw, -⟩⟩ := (hinv.after v hfin).near hV hw
        · exact h.bounds.graph v hv w hw
        · exact h.bounds.graph d (h.bounds.graph v hv d hd) w hw
      · exact h.bounds.graph v hv w (hinv.before v hfin ▸ hw)
    · obtain ⟨hv, hdel⟩ := (hlinked v).mp hv
      have hnew := hconsolidated v hv hdel
      refine ⟨⟨hnew.nodup (h.lists v hv).nodup, fun hself => ?_, fun w hw =>
        (hlinked w).mpr (hnear v hv w (hnew.near hV hw))⟩, ?_⟩
      · obtain ⟨-, hself | ⟨d, -, -, -, hne⟩⟩ := hnew.near hV hself
        · exact (h.lists v hv).not_self hself
        · exact hne rfl
      · change (c.graph v).length ≤ A.bound
        by_cases hchanged : ∃ d ∈ s.index.graph v, d ∈ s.index.slots.deleteSet
        · exact (hnew.length_le hchanged).trans
            (hdegree.trans ((le_max_right _ _).trans (le_max_right _ _)))
        · rw [hnew.unchanged fun d hd hin => hchanged ⟨d, hd, hin⟩]
          exact h.length_le v hv
  · rw [hquiet'.points_eq, hquiet.points_eq]
    funext tag
    rw [Slots.points, Slots.points, show s'.index.slots = slots from rfl, hslots.tags]

end Consolidation

section Saves

theorem Inv.compactable (h : s.Inv A) (hdel : s.index.slots.deleteSet = ∅)
    (hdirty : s.index.slots.dataCompacted = false) : DynamicIndex.Compactable s.index where
  consistent := h.slots.consistent
  deleted := hdel
  idle := h.idle
  dirty := hdirty
  lt_max := (Nat.lt_add_of_pos_right h.frozen).trans_le h.total_le
  start := h.start.ge

omit [LinearOrder K] in
/-- Without deleted locations the points are what a compaction keeps. -/
theorem Quiet.kept_iff (hquiet : s.Quiet) (hcons : s.index.slots.Consistent [])
    (hdel : s.index.slots.deleteSet = ∅) (hidle : s.index.slots.oldDeleteSet = none) {v : ℕ} :
    s.index.Kept v ↔ s.Linked v := by
  rw [DynamicIndex.Kept, hquiet.linked_iff]
  refine and_congr_right fun _ => ?_
  have hplace := hcons.place v
  have hold : v ∉ (none : Option (Finset ℕ)).getD ∅ := Finset.notMem_empty v
  rw [Slots.places, hdel, hidle, if_neg (Finset.notMem_empty v), if_neg hold,
    if_neg List.not_mem_nil] at hplace
  rcases Nat.lt_or_ge v s.index.slots.maxPoints with hmax | hmax
  · rw [if_pos hmax] at hplace
    rw [or_iff_left (not_le.mpr hmax)]
    by_cases hlive : s.index.slots.locationToTag.contains v = true <;>
      by_cases hempty : v ∈ s.index.slots.emptySlots.values <;> simp [hlive, hempty] at hplace ⊢
  · rw [if_neg (not_lt.mpr hmax)] at hplace
    refine iff_of_true (.inr hmax) fun hempty => ?_
    rw [if_pos hempty] at hplace
    omega

theorem Inv.kept_iff (h : s.Inv A) (hquiet : s.Quiet) (hdel : s.index.slots.deleteSet = ∅) {v : ℕ} :
    s.index.Kept v ↔ s.Linked v := hquiet.kept_iff h.slots.consistent hdel h.idle

theorem Inv.kept_closed (h : s.Inv A) (hquiet : s.Quiet) (hdel : s.index.slots.deleteSet = ∅) :
    ∀ v, s.index.Kept v → ∀ w ∈ s.index.graph v, s.index.Kept w := fun v hv w hw =>
  (h.kept_iff hquiet hdel).mpr ((h.lists v ((h.kept_iff hquiet hdel).mp hv)).nodes w hw)

/-- A save of an index at rest leaves it with its points, in front. -/
theorem Inv.save [Inhabited τ] [Zero V] (h : s.Inv A) (hquiet : s.Quiet)
    (hdirty : s.index.slots.dataCompacted = false) {J : DynamicIndex τ V}
    (hrun : s.index.compactData = .ok J) :
    ({ s with index := J.compactFrozenPoint.repositionFrozenPointToEnd } : Updates τ V K).Inv A ∧
      ({ s with index := J.compactFrozenPoint.repositionFrozenPointToEnd } : Updates τ V K).points =
        s.points := by
  have hdel : s.index.slots.deleteSet = ∅ := by
    by_contra hne
    rw [DynamicIndex.compactData, if_neg (by rw [hdirty]; exact Bool.false_ne_true),
      if_pos hne] at hrun
    cases hrun
  have hcompact := h.compactable hdel hdirty
  obtain ⟨_, hrun', hJ⟩ := DynamicIndex.compactData_spec hcompact
  rw [hrun] at hrun'
  cases hrun'
  have hfront := hJ.front hcompact h.bounds h.start h.frozen h.total_le
  obtain ⟨hbounds, hcarried⟩ := hfront.saved
  have hinvJ : J.slots.Inv := by
    obtain ⟨hcons, hbits⟩ := h.slots.consistent.compacted hdel h.idle
    rw [hJ.slots]
    exact ⟨h.slots.pos, hcons, hbits⟩
  set I' := J.compactFrozenPoint.repositionFrozenPointToEnd
  set s' : Updates τ V K := { s with index := I' }
  have hquiet' : s'.Quiet := hquiet
  obtain ⟨hslots, hfrozen, hstart⟩ := hfront.saved_frame
  have htotal : I'.total = s.index.total := by
    rw [← hJ.total_eq, DynamicIndex.total, DynamicIndex.total, hslots, hfrozen]
  have hinv' : I'.slots.Inv := hslots ▸ hinvJ
  have hlinked : ∀ v, s'.Linked v ↔ J.Point v := by
    intro v
    rw [← hquiet'.kept_iff hinv'.consistent (hslots ▸ hfront.deleted) (hslots ▸ hfront.idle),
      ← hfront.kept_iff, DynamicIndex.Kept, DynamicIndex.Kept, hJ.total_eq, ← htotal]
    rw [show s'.index = I' from rfl, hslots]
  have hmoved := hJ.carried hcompact h.bounds (h.kept_closed hquiet hdel)
  constructor
  · refine .of_quiet hquiet' hinv' (hslots ▸ hfront.idle) (hfrozen ▸ hfront.frozen)
      (hstart.trans (congrArg Slots.maxPoints hslots).symm) (htotal ▸ h.total_le) hbounds
      fun v hv => ?_
    have hpoint := (hlinked v).mp hv
    have hgoes : v < s.index.slots.nd ∨ s.index.slots.maxPoints ≤ v := by
      have := hpoint.2
      rwa [hJ.slots] at this
    obtain ⟨u, hu, rfl⟩ := DynamicIndex.exists_kept hcompact (hJ.total_eq ▸ hpoint.1) hgoes
    have hulinked := (h.kept_iff hquiet hdel).mp hu
    have hlist := h.lists u hulinked
    have hinj : ∀ w ∈ s.index.graph u, ∀ w' ∈ s.index.graph u,
        s.index.newLoc w = s.index.newLoc w' → w = w' := fun w hw w' hw' heq =>
      hmoved.strictMono.injOn (hmoved.closed u hu w hw) (hmoved.closed u hu w' hw') heq
    rw [show s'.index.graph = I'.graph from rfl, (hfront.saved_point hpoint).1,
      hmoved.graph u hu, List.length_map]
    refine ⟨⟨hlist.nodup.map_on hinj, fun hself => ?_, fun w hw => (hlinked w).mpr ?_⟩,
      h.length_le u hulinked⟩
    · obtain ⟨w, hw, heq⟩ := List.mem_map.mp hself
      exact hlist.not_self (hmoved.strictMono.injOn (hmoved.closed u hu w hw) hu heq ▸ hw)
    · rw [← hmoved.graph u hu] at hw
      exact hfront.closed _ hpoint w hw
  · rw [hquiet'.points_eq, hquiet.points_eq]
    funext tag
    have htags : I'.slots.locationToTag.tryGet = J.slots.locationToTag.tryGet := by rw [hslots]
    exact (hfront.lookup_vector hfront.nd_le hfront.total_le hinv'.consistent htags hcarried
      tag).trans (hJ.lookup_vector hcompact tag)

end Saves

/-! ### Runs -/

section Runs

variable [Zero τ] [Inhabited τ] [Zero V] [Field K] [IsStrictOrderedRing K] [Archimedean K]

/-- A step keeps the invariant, does to the points what its action says, and answers. -/
theorem Inv.step (h : s.Inv A) (hA : A.Valid) {a : Action τ V} (hstep : Step A a s s') :
    s'.Inv A ∧ s'.points = s.points.apply a ∧
      s.points.Answers (s.index.slots.nd = s.index.slots.maxPoints) a := by
  cases hstep with
  | reserve hrun => exact h.reserve hrun
  | work hwork =>
    obtain ⟨hinv, hworked⟩ := h.work hA hwork
    refine ⟨hinv, ?_, trivial⟩
    rw [points, hworked.slots, hworked.held]
    rfl
  | @delete _ tag =>
    obtain ⟨hdone, hpoints, hsame⟩ := s.index.slots.lazyDelete_spec s.held tag
    exact ⟨h.deleted (h.slots.dirty.deleteTag tag) hsame, hpoints, hdone⟩
  | @deletes _ tags =>
    obtain ⟨hfailed, hpoints, hsame⟩ := s.index.slots.lazyDeletes_spec s.held tags
    exact ⟨h.deleted (h.slots.lazyDeletes tags) hsame, hpoints, hfailed⟩
  | consolidate hquiet halpha hdegree hperm hsome hrun hdone hswap hnd horder hslots =>
    obtain ⟨hinv, hpoints⟩ := h.consolidate hA hquiet halpha hdegree hperm hsome hrun hdone
      (h.slots.consolidated hswap hnd horder hslots) horder
    exact ⟨hinv, hpoints, trivial⟩
  | save hquiet hdirty hrun =>
    obtain ⟨hinv, hpoints⟩ := h.save hquiet hdirty hrun
    exact ⟨hinv, hpoints, trivial⟩

omit [Zero τ] [Inhabited τ] [Zero V] [Field K] [IsStrictOrderedRing K] [Archimedean K] in
theorem construct_inv (A : UpdateArgs V K) {maxPoints numFrozenPts : ℕ} (vector : ℕ → V)
    (htotal : max maxPoints 1 + max numFrozenPts 1 ≤ 2 ^ 32) :
    (construct maxPoints numFrozenPts vector : Updates τ V K).Inv A := by
  have hfrozen : (construct maxPoints numFrozenPts vector : Updates τ V K).index.numFrozenPts =
      max numFrozenPts 1 := by
    simp only [construct]
    split_ifs <;> omega
  refine .of_quiet (fun _ => ⟨rfl, rfl⟩) (Slots.construct_inv maxPoints) rfl ?_ rfl ?_ ⟨?_, ?_⟩
    fun v _ => ⟨.nil _ v, Nat.zero_le _⟩
  · omega
  · rw [DynamicIndex.total, hfrozen]
    exact htotal
  · rw [DynamicIndex.total, hfrozen]
    exact Nat.lt_add_of_pos_right (by omega)
  · exact fun _ _ w hw => absurd hw List.not_mem_nil

omit [Zero τ] [Inhabited τ] [Zero V] in
/-- The inserts under way can be brought to their end, which changes nothing for the users. -/
theorem Inv.exists_quiet (h : s.Inv A) (hA : A.Valid) :
    ∃ s', ReflTransGen (Work A) s s' ∧ s'.Inv A ∧ s'.Quiet ∧ s'.index.slots = s.index.slots ∧
      s'.index.numFrozenPts = s.index.numFrozenPts ∧ s'.held = s.held := by
  have hwork : ∀ s s' : Updates τ V K, s.Inv A → Work A s s' → s'.Inv A ∧
      ((List.range s'.index.slots.maxPoints).map (s'.remaining A)).sum <
        ((List.range s.index.slots.maxPoints).map (s.remaining A)).sum := by
    intro s s' h hw
    obtain ⟨hinv, hworked⟩ := h.work hA hw
    refine ⟨hinv, ?_⟩
    obtain ⟨v, hv, hlt⟩ := hworked.lt
    rw [hworked.slots]
    exact List.sum_lt_sum _ _ (fun v _ => hworked.le v) ⟨v, List.mem_range.mpr hv, hlt⟩
  have hprogress : ∀ s : Updates τ V K, s.Inv A → ¬ s.Quiet → ∃ s', Work A s s' := by
    intro s h hnot
    rw [Quiet] at hnot
    push Not at hnot
    obtain ⟨v, hv⟩ := hnot
    exact h.exists_work hA (or_iff_not_imp_left.mpr fun ha => hv (not_not.mp ha))
  obtain ⟨s', hrun, hinv, hquiet⟩ := exists_done hwork hprogress h
  have hkeeps : ∀ s' s'' : Updates τ V K, s'.Inv A ∧ s'.index.slots = s.index.slots ∧
      s'.index.numFrozenPts = s.index.numFrozenPts ∧ s'.held = s.held → Work A s' s'' →
      s''.Inv A ∧ s''.index.slots = s.index.slots ∧
        s''.index.numFrozenPts = s.index.numFrozenPts ∧ s''.held = s.held := by
    rintro s' s'' ⟨hinv, hslots, hfrozen, hheld⟩ hw
    obtain ⟨hinv', hworked⟩ := hinv.work hA hw
    exact ⟨hinv', hworked.slots.trans hslots, hworked.frozen.trans hfrozen,
      hworked.held.trans hheld⟩
  exact ⟨s', hrun, hinv, hquiet, (inv_run hkeeps ⟨h, rfl, rfl, rfl⟩ hrun).2⟩

omit [IsStrictOrderedRing K] [Archimedean K] in
theorem trace_work {acts : List (Action τ V)} {s₀ : Updates τ V K}
    (hrun : Trace (Step A) acts s₀ s) (hwork : ReflTransGen (Work A) s s') :
    ∃ k, Trace (Step A) (acts ++ List.replicate k .work) s₀ s' := by
  induction hwork with
  | refl => exact ⟨0, by rwa [List.replicate_zero, List.append_nil]⟩
  | tail _ hlast ih =>
    obtain ⟨k, hk⟩ := ih
    refine ⟨k + 1, ?_⟩
    rw [List.replicate_succ', ← List.append_assoc]
    exact hk.concat (.work hlast)

/-- Steps of one insert, one after the other. -/
def inTurn (A : UpdateArgs V K) (scratch : Iterate K) (fuel location : ℕ) :
    ℕ → Updates τ V K → Option (Updates τ V K)
  | 0, s => some s
  | k + 1, s =>
    if (s.task location).linked then none
    else ((A.linkArgs s.index).step scratch fuel location s.links).bind fun l =>
      inTurn A scratch fuel location k (s.withLinks l)

omit [DecidableEq τ] [Zero τ] [Inhabited τ] [Zero V] [IsStrictOrderedRing K] [Archimedean K] in
theorem work_of_inTurn {scratch : Iterate K} {fuel location k : ℕ}
    (h : inTurn A scratch fuel location k s = some s') : ReflTransGen (Work A) s s' := by
  induction k generalizing s with
  | zero =>
    cases h
    exact .refl
  | succ k ih =>
    rw [inTurn] at h
    split_ifs at h with hdone
    obtain ⟨l, hstep, hrest⟩ := Option.bind_eq_some_iff.mp h
    have htask : s.task location ≠ .finished := fun he => hdone (he ▸ rfl)
    exact .head (.link htask hstep) (ih hrest)

/-- The state of a run holds the points that its actions say. -/
theorem Inv.run (hA : A.Valid) {maxPoints numFrozenPts : ℕ} {vector : ℕ → V}
    (htotal : max maxPoints 1 + max numFrozenPts 1 ≤ 2 ^ 32) {acts : List (Action τ V)}
    (hrun : Trace (Step A) acts (construct maxPoints numFrozenPts vector) s) :
    s.Inv A ∧ s.points = acts.foldl Points.apply fun _ => none := by
  refine hrun.follows (fun a s s' h hstep => ?_) (construct_inv A vector htotal)
  obtain ⟨hinv, hpoints, -⟩ := h.step hA hstep
  exact ⟨hinv, hpoints⟩

omit [Zero τ] [Inhabited τ] [Zero V] [Field K] [IsStrictOrderedRing K] [Archimedean K] in
/-- A search meets points only. -/
theorem Inv.linked_of_reachable (h : s.Inv A) {v : ℕ}
    (hv : Levels.Reachable s.index.graph s.index.initIds v) : s.Linked v := by
  obtain ⟨k, hwalk⟩ := hv
  induction hwalk with
  | start hv => exact h.linked_of_initIds _ hv
  | step _ hw ih => exact (h.lists _ ih).nodes _ hw

end Runs

def oneDim : UpdateArgs (Fin 1 → ℕ) ℚ where
  metric := .l2
  distance x y := ((x (Fin.last 0) : ℚ) - y (Fin.last 0)) ^ 2
  saturateGraph := false
  slack := 1
  searchListSize := 1
  indexing := ⟨1, 1, 1⟩
  largestDegree := 1

theorem oneDim_valid : oneDim.Valid :=
  ⟨by decide, fun _ _ => sq_nonneg _, by decide, le_rfl⟩

/-- A deletion of a tag that is not there, and an insert, as far as its reservation. -/
def oneReserved : Updates ℕ (Fin 1 → ℕ) ℚ :=
  ((construct 2 1 0).withSlots ((Slots.construct 2 : Slots ℕ).lazyDelete 9).2).reserve
    ⟨2, 1, false, ⟨[0], [true, false]⟩, ∅, none, ⟨1, [0, 7], [false, true]⟩, AList.singleton 7 1⟩
    5 (some 1)

theorem oneReserved_trace :
    Trace (Step oneDim) [.delete 9 false, .insert 7 5 true] (construct 2 1 0) oneReserved := by
  have hdelete : Step oneDim _ (construct 2 1 0) _ := .delete (construct 2 1 0) 9
  refine .concat (.concat (.nil _) hdelete) ?_
  exact @Step.reserve _ _ _ _ _ _ _ _ _ oneDim _ 7 5 (some 1) _ rfl

section Files

variable [Field K] [IsStrictOrderedRing K] [Archimedean K]
variable {dim : ℕ} {A : UpdateArgs (Fin dim → ℕ) K} {s : Updates ℕ (Fin dim → ℕ) K}

end Files

theorem oneInserted_quiet : ∃ (s : Updates ℕ (Fin 1 → ℕ) ℚ) (k : ℕ),
    Trace (Step oneDim) ([.delete 9 false, .insert 7 5 true] ++ List.replicate k .work)
      (construct 2 1 0) s ∧ s.Quiet ∧ s.index.slots.deleteSet = ∅ ∧
      s.index.slots.dataCompacted = false ∧ s.index.numFrozenPts = 1 ∧ s.index.Writable 4 4 := by
  obtain ⟨s, hwork, h, hquiet, hslots, hfrozen, hheld⟩ :=
    (Inv.run oneDim_valid (by decide) oneReserved_trace).1.exists_quiet oneDim_valid
  obtain ⟨k, hrun⟩ := trace_work oneReserved_trace hwork
  have hdel : s.index.slots.deleteSet = ∅ := by rw [hslots]; rfl
  refine ⟨s, k, hrun, hquiet, hdel, by rw [hslots]; rfl, hfrozen, by decide, ?_,
    fun v hv => ?_, fun loc tag htag => ?_, fun v _ j => ?_⟩
  · rw [DynamicIndex.total, hslots, hfrozen]
    decide
  · have hlen : (s.index.graph v).length ≤ 1 := h.length_le v ((h.kept_iff hquiet hdel).mp hv)
    omega
  · have hmem := (h.slots.consistent.inverse loc tag).mp htag
    have htags : s.index.slots.tagToLocation = AList.singleton 7 1 := by rw [hslots]; rfl
    rw [htags] at hmem
    have hkey := AList.mem_keys.mp (AList.lookup_isSome.mp (Option.isSome_of_eq_some hmem))
    rw [AList.keys_singleton, List.mem_singleton] at hkey
    rw [hkey]
    decide
  · rw [← hquiet.held_eq, hheld, oneReserved, held_reserve, Function.update_apply]
    split_ifs
    · exact (by decide : 5 < 256 ^ 4)
    · exact (by decide : 0 < 256 ^ 4)

end Updates

end HiDANN.Memory
