import HiDANN.Memory.Consolidate
import HiDANN.Memory.Link
import HiDANN.Memory.Reposition

/-! The updates of a dynamic index. An insert reserves a location for its tag, stores its point
there, and then searches, prunes and links like an iteration of `link`. Inserts and deletions are
interleaved between any two critical sections; a consolidation and a save hold the update lock
alone, as they do without `_conc_consolidate`. -/

namespace HiDANN.Memory

open Construction Search Relation

open LinkArgs (Listed)

/-! ### The tables -/

namespace Slots

variable {τ : Type*} [DecidableEq τ] {s s' : Slots τ}

/-- What an insert that succeeds has done to the tables. -/
structure Reserved (s : Slots τ) [Inhabited τ] (tag : τ) (location : ℕ) (s' : Slots τ) : Prop where
  lt : location < s.maxPoints
  was_empty : location ∈ s.emptySlots.values
  lookup : s.tagToLocation.lookup tag = none
  empty : ∀ v, v ∈ s'.emptySlots.values ↔ v ∈ s.emptySlots.values ∧ v ≠ location
  eq : s' = { s with
    nd := s.nd + 1
    emptySlots := s'.emptySlots
    tagToLocation := s.tagToLocation.insert tag location
    locationToTag := s.locationToTag.set location tag }

theorem Inv.reserved [Zero τ] [Inhabited τ] (h : s.Inv) {tag : τ} {location : ℕ}
    (hrun : s.insertPoint tag = .ok (some location, s')) : Reserved s tag location s' := by
  have hcount := h.consistent.count
  rw [Slots.insertPoint] at hrun
  split_ifs at hrun with htag
  by_cases hnd : s.nd < s.maxPoints
  · obtain ⟨loc, rest, hval, hres, hcons⟩ := h.consistent.reserveLocation hnd
    rw [hres] at hrun
    dsimp only at hrun
    split_ifs at hrun with htaken
    · generalize Slots.releaseLocation _ loc = x at hrun
      cases x <;> cases hrun
    · cases hrun
      have hnot : location ∉ rest := by
        have := h.consistent.empty.nodup
        rw [hval, List.nodup_append_comm, List.singleton_append] at this
        exact (List.nodup_cons.mp this).1
      refine ⟨hcons.pending_spec.1, ?_, Option.not_isSome_iff_eq_none.mp htaken, fun v => ?_, rfl⟩
      · rw [hval]
        exact List.mem_append_right _ List.mem_cons_self
      · rw [hval, List.mem_append, List.mem_singleton, or_and_right, and_not_self_iff, or_false]
        exact ⟨fun hv => ⟨hv, fun he => hnot (he ▸ hv)⟩, And.left⟩
  · rw [Slots.reserveLocation, if_pos (not_lt.mp hnd)] at hrun
    cases hrun

theorem deleteTag_idle (s : Slots τ) (tag : τ) :
    (s.deleteTag tag).2.oldDeleteSet = s.oldDeleteSet := by
  rw [Slots.deleteTag]
  split <;> rfl

theorem deleteTag_lookup (s : Slots τ) (tag : τ) :
    (s.deleteTag tag).1 = (s.tagToLocation.lookup tag).isSome ∧
      ∀ t, (s.deleteTag tag).2.tagToLocation.lookup t =
        if t = tag then none else s.tagToLocation.lookup t := by
  rw [Slots.deleteTag]
  cases htag : s.tagToLocation.lookup tag with
  | none =>
    refine ⟨rfl, fun t => ?_⟩
    split_ifs with ht
    · rw [ht, htag]
    · rfl
  | some location =>
    refine ⟨rfl, fun t => ?_⟩
    dsimp only
    split_ifs with ht
    · rw [ht, AList.lookup_erase]
    · rw [AList.lookup_erase_ne ht]

omit [DecidableEq τ] in
theorem releaseAll_frame {order : List ℕ} (hrun : releaseAll order s = .ok s') :
    s'.maxPoints = s.maxPoints ∧ s'.deleteSet = s.deleteSet := by
  induction order generalizing s with
  | nil =>
    cases hrun
    exact ⟨rfl, rfl⟩
  | cons location order ih =>
    rw [Slots.releaseAll] at hrun
    cases hone : s.releaseLocation location with
    | error e =>
      rw [hone] at hrun
      cases hrun
    | ok t =>
      rw [hone] at hrun
      obtain ⟨hmax, hdel⟩ := ih hrun
      rw [Slots.releaseLocation] at hone
      split at hone <;> cases hone
      exact ⟨hmax, hdel⟩

/-- A consolidation that ends well has released the deleted locations. -/
structure Consolidated (s s' : Slots τ) (order : List ℕ) : Prop where
  inv : s'.Inv
  idle : s'.oldDeleteSet = none
  maxPoints : s'.maxPoints = s.maxPoints
  empty : s'.emptySlots.values = s.emptySlots.values ++ order
  tags : s'.tagToLocation = s.tagToLocation

theorem Inv.consolidated [Zero τ] [Inhabited τ] (h : s.Inv) {swapped : Slots τ} {order : List ℕ}
    (hswap : s.consolidateSwap = some swapped) (hnd : order.Nodup)
    (horder : order.toFinset = s.deleteSet) (hrun : swapped.consolidateRelease order = .ok s') :
    Consolidated s s' order := by
  have hinv : swapped.Inv := h.step (.swap hswap)
  rw [consolidateSwap] at hswap
  split at hswap
  · cases hswap
    have hrel := hinv.consolidateRelease rfl hnd horder
    rw [hrun] at hrel
    split_ifs at hrel
    obtain ⟨_, he, hinv', hidle, hempty, htags⟩ := hrel
    cases he
    refine ⟨hinv', hidle, ?_, hempty, htags⟩
    rw [Slots.consolidateRelease, Slots.releaseLocations] at hrun
    split at hrun
    · cases hrun
    · rename_i hall
      split_ifs at hrun
      cases hrun
      exact (releaseAll_frame hall).1
  · cases hswap

end Slots

/-! ### The system -/

structure WriteParameters (K : Type*) where
  maxDegree : ℕ
  maxOcclusionSize : ℕ
  alpha : K

/-- What the updates read and do not change: the settings of the index, and the largest degree
that a consolidation is given. -/
structure UpdateArgs (V K : Type*) where
  metric : Metric
  distance : V → V → K
  saturateGraph : Bool
  slack : ℕ
  searchListSize : ℕ
  indexing : WriteParameters K
  largestDegree : ℕ

/-- An index and the inserts under way, by their locations: the point that is still to be stored,
or how far the insert is with its links. -/
structure Updates (τ V K : Type*) where
  index : DynamicIndex τ V
  arriving : ℕ → Option V
  prunedList : ℕ → List ℕ
  task : ℕ → Task K

/-- What users see of a step. -/
inductive Action (τ V : Type*) where
  | insert (tag : τ) (point : V) (done : Bool)
  | delete (tag : τ) (done : Bool)
  | deletes (tags failedTags : List τ)
  | work

namespace UpdateArgs

variable {τ V K : Type*} (A : UpdateArgs V K)

/-- The settings of a prune; its location and the deleted ones come with its call. -/
def pruneArgs (vector : ℕ → V) (params : WriteParameters K) : PruneArgs K where
  metric := A.metric
  getDistance u v := A.distance (vector u) (vector v)
  location := 0
  alpha := params.alpha
  degree := params.maxDegree
  maxc := params.maxOcclusionSize
  deleteSet := ∅
  saturateGraph := A.saturateGraph
  pqDist := false

def linkArgs (I : DynamicIndex τ V) : LinkArgs K where
  nd := I.slots.nd
  maxPoints := I.slots.maxPoints
  numFrozenPts := I.numFrozenPts
  medoid := I.start
  indexingQueueSize := A.searchListSize
  slack := A.slack
  queryDistance u v := A.distance (I.vector u) (I.vector v)
  prune := A.pruneArgs I.vector A.indexing

def consolidateArgs (I : DynamicIndex τ V) (params : WriteParameters K)
    (setOrder : List ℕ → List ℕ) : ConsolidateArgs K where
  locations := (List.range I.slots.maxPoints).filter
    (fun loc => I.slots.isProcessed I.slots.deleteSet loc = some true) ++
      List.range' I.slots.maxPoints I.numFrozenPts
  oldDeleteSet := I.slots.deleteSet
  setOrder
  prune := A.pruneArgs I.vector params

end UpdateArgs

namespace Updates

variable {τ V K : Type*}

def links (s : Updates τ V K) : LinkState K := ⟨s.index.graph, s.prunedList, s.task⟩

def withSlots (s : Updates τ V K) (slots : Slots τ) : Updates τ V K :=
  { s with index := { s.index with slots } }

def withLinks (s : Updates τ V K) (l : LinkState K) : Updates τ V K :=
  { s with index := { s.index with graph := l.graph }, prunedList := l.prunedList, task := l.task }

/-- The first critical section of an insert; no location when it fails. -/
def reserve (s : Updates τ V K) (slots : Slots τ) (point : V) : Option ℕ → Updates τ V K
  | none => s.withSlots slots
  | some location =>
    { s.withSlots slots with arriving := Function.update s.arriving location (some point) }

/-- `set_vector`, before the search of an insert. -/
def store (s : Updates τ V K) (location : ℕ) (point : V) : Updates τ V K where
  index := { s.index with vector := Function.update s.index.vector location point }
  arriving := Function.update s.arriving location none
  prunedList := Function.update s.prunedList location []
  task := Function.update s.task location .waiting

/-- No insert is under way. -/
def Quiet (s : Updates τ V K) : Prop := ∀ v, s.arriving v = none ∧ s.task v = .finished

variable [Field K] [LinearOrder K]

/-- What an insert does after its first critical section. -/
inductive Work (A : UpdateArgs V K) : Updates τ V K → Updates τ V K → Prop where
  | store {s : Updates τ V K} {location : ℕ} {point : V} : s.arriving location = some point →
    Work A s (s.store location point)
  | link {s : Updates τ V K} {location fuel : ℕ} {scratch : Iterate K} {l : LinkState K} :
    s.task location ≠ .finished →
    (A.linkArgs s.index).step scratch fuel location s.links = some l → Work A s (s.withLinks l)

variable [DecidableEq τ] [Zero τ] [Inhabited τ] [Zero V]

/-- The beginning of an insert and what follows, a deletion, or a whole consolidation or save. A
save is one that compacts, and the index has had a deletion since it was compacted. -/
inductive Step (A : UpdateArgs V K) : Action τ V → Updates τ V K → Updates τ V K → Prop where
  | reserve {s : Updates τ V K} {tag : τ} {point : V} {r : Option ℕ} {slots : Slots τ} :
    s.index.slots.insertPoint tag = .ok (r, slots) →
    Step A (.insert tag point r.isSome) s (s.reserve slots point r)
  | work {s s' : Updates τ V K} : Work A s s' → Step A .work s s'
  | delete (s : Updates τ V K) (tag : τ) :
    Step A (.delete tag (s.index.slots.lazyDelete tag).1) s
      (s.withSlots (s.index.slots.lazyDelete tag).2)
  | deletes (s : Updates τ V K) (tags : List τ) :
    Step A (.deletes tags (s.index.slots.lazyDeletes tags).1) s
      (s.withSlots (s.index.slots.lazyDeletes tags).2)
  | consolidate {s : Updates τ V K} {params : WriteParameters K} {setOrder : List ℕ → List ℕ}
    {c : ConsolidateState} {swapped slots : Slots τ} {order : List ℕ} : s.Quiet →
    1 ≤ params.alpha → params.maxDegree ≤ A.largestDegree → (∀ l, (setOrder l).Perm l) →
    (∀ loc < s.index.slots.maxPoints,
      (s.index.slots.isProcessed s.index.slots.deleteSet loc).isSome) →
    ReflTransGen (A.consolidateArgs s.index params setOrder).Step
      (ConsolidateArgs.start s.index.graph) c →
    (A.consolidateArgs s.index params setOrder).Done c →
    s.index.slots.consolidateSwap = some swapped → order.Nodup →
    order.toFinset = s.index.slots.deleteSet → swapped.consolidateRelease order = .ok slots →
    Step A .work s { s with index := { s.index with slots, graph := c.graph } }
  | save {s : Updates τ V K} {J : DynamicIndex τ V} : s.Quiet →
    s.index.slots.dataCompacted = false → s.index.compactData = .ok J →
    Step A .work s { s with index := J.compactFrozenPoint.repositionFrozenPointToEnd }

/-- A dynamic index as it is constructed and given its start points. -/
def construct (maxPoints numFrozenPts : ℕ) (vector : ℕ → V) : Updates τ V K where
  index := {
    slots := .construct maxPoints
    numFrozenPts := if numFrozenPts = 0 then 1 else numFrozenPts
    start := max maxPoints 1
    graph := fun _ => []
    vector }
  arriving _ := none
  prunedList _ := []
  task _ := .finished

/-! ### The invariant -/

end Updates

/-- What the index promises its updates. -/
structure UpdateArgs.Valid {V K : Type*} [Field K] [LinearOrder K] (A : UpdateArgs V K) : Prop where
  queue_pos : 0 < A.searchListSize
  dist_nonneg : ∀ u v, 0 ≤ A.distance u v
  metric_ne : A.metric ≠ .innerProduct
  alpha_ge : 1 ≤ A.indexing.alpha

/-- No list gets longer. -/
def UpdateArgs.bound {V K : Type*} (A : UpdateArgs V K) : ℕ :=
  max A.slack (max A.indexing.maxDegree A.largestDegree)

namespace Updates

variable {τ V K : Type*}

/-- A frozen point, or a location that is not empty and whose list has been set. -/
def Linked (s : Updates τ V K) (v : ℕ) : Prop :=
  v < s.index.total ∧ v ∉ s.index.slots.emptySlots.values ∧ s.arriving v = none ∧
    (s.task v).placed

variable [DecidableEq τ] [LinearOrder K] {A : UpdateArgs V K} {s s' : Updates τ V K}

/-- The lists of the points lead to points, and so do the inserts under way. -/
structure Inv (A : UpdateArgs V K) (s : Updates τ V K) : Prop where
  slots : s.index.slots.Inv
  idle : s.index.slots.oldDeleteSet = none
  frozen : 0 < s.index.numFrozenPts
  start : s.index.start = s.index.slots.maxPoints
  total_le : s.index.total ≤ 2 ^ 32
  bounds : s.index.InBounds
  lists : ∀ v, s.Linked v → Listed s.Linked v (s.index.graph v)
  length_le : ∀ v, s.Linked v → (s.index.graph v).length ≤ A.bound
  flight : ∀ v, s.arriving v ≠ none ∨ s.task v ≠ .finished →
    v < s.index.slots.maxPoints ∧ v ∉ s.index.slots.emptySlots.values
  single : ∀ v, s.arriving v ≠ none → s.task v = .finished
  task : ∀ v, (A.linkArgs s.index).TaskOk s.Linked (Listed s.Linked) (s.prunedList v) v (s.task v)
  uncleaned : ∀ v, s.task v ≠ .cleaned

theorem Inv.lt_of_empty (h : s.Inv A) {v : ℕ} (hv : v ∈ s.index.slots.emptySlots.values) :
    v < s.index.slots.maxPoints := by
  have hplace := h.slots.consistent.place v
  rw [Slots.places, if_pos hv] at hplace
  by_contra hle
  rw [if_neg hle] at hplace
  omega

theorem Inv.linked_of_frozen (h : s.Inv A) {v : ℕ} (hmax : s.index.slots.maxPoints ≤ v)
    (hv : v < s.index.total) : s.Linked v := by
  have hidle : ¬ (s.arriving v ≠ none ∨ s.task v ≠ .finished) :=
    fun hflight => absurd (h.flight v hflight).1 (not_lt.mpr hmax)
  rw [not_or, not_not, not_not] at hidle
  refine ⟨hv, fun hempty => absurd (h.lt_of_empty hempty) (not_lt.mpr hmax), hidle.1, ?_⟩
  rw [hidle.2]
  rfl

theorem Inv.linked_of_placed (h : s.Inv A) {v : ℕ} (hv : s.task v ≠ .finished)
    (hplaced : (s.task v).placed) : s.Linked v := by
  obtain ⟨hlt, hempty⟩ := h.flight v (.inr hv)
  exact ⟨hlt.trans_le (Nat.le_add_right _ _), hempty,
    not_not.mp fun hne => hv (h.single v hne), hplaced⟩

theorem Inv.not_linked (h : s.Inv A) {v : ℕ} (hv : s.task v ≠ .finished) :
    (s.task v).linked = false := by
  have hne := h.uncleaned v
  cases htask : s.task v with
  | finished => exact absurd htask hv
  | cleaned => exact absurd htask hne
  | _ => rfl

theorem Inv.linked_of_initIds (h : s.Inv A) : ∀ v ∈ s.index.initIds, s.Linked v := by
  intro v hv
  rw [DynamicIndex.initIds_of_frozen h.start h.frozen, List.mem_range'_1] at hv
  exact h.linked_of_frozen hv.1 hv.2

theorem Inv.valid [Field K] (h : s.Inv A) (hA : A.Valid) : (A.linkArgs s.index).Valid where
  nd_le := by
    have := h.slots.consistent.count
    change s.index.slots.nd ≤ s.index.slots.maxPoints
    omega
  entry_mem := by
    have hpos : 0 < (A.linkArgs s.index).numFrozenPts := h.frozen
    rw [LinkArgs.entry, if_pos hpos]
    exact List.mem_append_right _ (List.mem_range'_1.mpr ⟨le_rfl, Nat.lt_add_of_pos_right hpos⟩)
  queue_pos := hA.queue_pos
  dist_nonneg _ _ := hA.dist_nonneg _ _
  metric_ne := hA.metric_ne
  alpha_ge := hA.alpha_ge

theorem Inv.initIds_linkArgs (h : s.Inv A) : (A.linkArgs s.index).initIds = s.index.initIds := by
  have hpos : 0 < (A.linkArgs s.index).numFrozenPts := h.frozen
  rw [LinkArgs.initIds, LinkArgs.entry, if_pos hpos, DynamicIndex.initIds, h.start]
  rfl

theorem Inv.ground (h : s.Inv A) {node : ℕ} (hnode : s.task node ≠ .finished) :
    (A.linkArgs s.index).Ground s.Linked (Listed s.Linked) node s.links where
  init := by
    rw [h.initIds_linkArgs]
    exact h.linked_of_initIds
  lt := h.bounds.graph
  closed v hv := (h.lists v hv).nodes
  lists := h.lists
  add hplaced _ _ hne _ hids hnot := hids.concat (h.linked_of_placed hnode hplaced) hnot hne
  sub _ _ _ hids hnd hsub := hids.of_subset hnd hsub

/-! ### Inserts -/

omit [DecidableEq τ] [LinearOrder K] in
theorem placed_of_linked {l : LinkState K} {node : ℕ} {t : Task K}
    (htask : l.task = Function.update s.task node t) (h : (s.withLinks l).Linked node) :
    t.placed := by
  have hplaced : (l.task node).placed := h.2.2.2
  rwa [htask, Function.update_self] at hplaced

omit [DecidableEq τ] [LinearOrder K] in
theorem linked_withLinks_iff {l : LinkState K} {node v : ℕ} {t : Task K}
    (htask : l.task = Function.update s.task node t) (hv : v ≠ node) :
    (s.withLinks l).Linked v ↔ s.Linked v := by
  have heq : (s.withLinks l).Linked v ↔ v < s.index.total ∧
      v ∉ s.index.slots.emptySlots.values ∧ s.arriving v = none ∧ (l.task v).placed := Iff.rfl
  rw [heq, htask, Function.update_of_ne hv]
  rfl

theorem Inv.advance (h : s.Inv A) {node des : ℕ} {ids pruned : List ℕ} {t : Task K}
    {l : LinkState K} (hl : l = ⟨Function.update s.index.graph des ids,
      Function.update s.prunedList node pruned, Function.update s.task node t⟩)
    (hnode : s.task node ≠ .finished) (hplaced : (s.task node).placed → t.placed)
    (hown : t.placed → (s.task node).placed ∨ des = node) (hne : t ≠ .cleaned)
    (hlt : ∀ w ∈ ids, w < s.index.total)
    (hids : (des = node → t.placed) → Listed s.Linked des ids ∧ ids.length ≤ A.bound)
    (ht : (A.linkArgs s.index).TaskOk s.Linked (Listed s.Linked) pruned node t) :
    (s.withLinks l).Inv A := by
  have htask : (s.withLinks l).task = Function.update s.task node t := hl ▸ rfl
  have hgraph : (s.withLinks l).index.graph = Function.update s.index.graph des ids := hl ▸ rfl
  have hpruned : (s.withLinks l).prunedList = Function.update s.prunedList node pruned := hl ▸ rfl
  have hmono : ∀ v, s.Linked v → (s.withLinks l).Linked v := by
    intro v hv
    rcases eq_or_ne v node with rfl | hvn
    · refine ⟨hv.1, hv.2.1, hv.2.2.1, ?_⟩
      rw [htask, Function.update_self]
      exact hplaced hv.2.2.2
    · exact (linked_withLinks_iff htask hvn).mpr hv
  have hback : ∀ v, v ≠ des → (s.withLinks l).Linked v → s.Linked v := by
    intro v hv hlinked
    rcases eq_or_ne v node with rfl | hvn
    · exact h.linked_of_placed hnode
        ((hown (placed_of_linked htask hlinked)).resolve_right (Ne.symm hv))
    · exact (linked_withLinks_iff htask hvn).mp hlinked
  have hids' : (s.withLinks l).Linked des →
      Listed s.Linked des ids ∧ ids.length ≤ A.bound :=
    fun hlinked => hids fun he => placed_of_linked htask (he ▸ hlinked)
  refine ⟨h.slots, h.idle, h.frozen, h.start, h.total_le, ⟨h.bounds.start, ?_⟩, ?_, ?_, ?_, ?_, ?_,
    ?_⟩
  · rw [hgraph]
    exact (Function.forall_update_iff s.index.graph fun v ids =>
      v < s.index.total → ∀ w ∈ ids, w < s.index.total).mpr
        ⟨fun _ => hlt, fun v _ => h.bounds.graph v⟩
  · intro v hv
    rw [hgraph]
    rcases eq_or_ne v des with rfl | hvd
    · rw [Function.update_self]
      exact (hids' hv).1.mono hmono
    · rw [Function.update_of_ne hvd]
      exact (h.lists v (hback v hvd hv)).mono hmono
  · intro v hv
    rw [hgraph]
    rcases eq_or_ne v des with rfl | hvd
    · rw [Function.update_self]
      exact (hids' hv).2
    · rw [Function.update_of_ne hvd]
      exact h.length_le v (hback v hvd hv)
  · rintro v (hv | hv)
    · exact h.flight v (.inl hv)
    · rcases eq_or_ne v node with rfl | hvn
      · exact h.flight v (.inr hnode)
      · refine h.flight v (.inr fun hfin => hv ?_)
        rw [htask, Function.update_of_ne hvn, hfin]
  · intro v hv
    have hvn : v ≠ node := fun he => hnode (he ▸ h.single v hv)
    rw [htask, Function.update_of_ne hvn]
    exact h.single v hv
  · have hok : ∀ v p t, (A.linkArgs s.index).TaskOk s.Linked (Listed s.Linked) p v t →
        (A.linkArgs s.index).TaskOk (s.withLinks l).Linked (Listed (s.withLinks l).Linked) p v t :=
      fun v p t h => h.mono (fun _ hs => hs.congr rfl rfl hmono fun _ _ => rfl) hmono
        (fun _ _ hids => hids.mono hmono) rfl
    intro v
    rw [hpruned, htask]
    rcases eq_or_ne v node with rfl | hvn
    · rw [Function.update_self, Function.update_self]
      exact hok v pruned t ht
    · rw [Function.update_of_ne hvn, Function.update_of_ne hvn]
      exact hok v _ _ (h.task v)
  · rw [htask]
    exact (Function.forall_update_iff s.task fun _ t => t ≠ .cleaned).mpr
      ⟨hne, fun v _ => h.uncleaned v⟩

theorem Inv.effect (h : s.Inv A) {node : ℕ} (hnode : s.task node ≠ .finished) {t : Task K}
    {l : LinkState K} (heff : (A.linkArgs s.index).Effect s.Linked (Listed s.Linked) node s.links
      t l) (hne : t ≠ .cleaned) : (s.withLinks l).Inv A := by
  have hlt : ∀ {v ids}, Listed s.Linked v ids → ∀ w ∈ ids, w < s.index.total :=
    fun hids w hw => (hids.nodes w hw).1
  have hown : ∀ w ∈ s.index.graph node, w < s.index.total := by
    have hin := (h.flight node (.inr hnode)).1
    exact h.bounds.graph node (hin.trans_le (Nat.le_add_right _ _))
  have hbound : ∀ {k}, k ≤ A.indexing.maxDegree → k ≤ A.bound :=
    fun hk => hk.trans ((le_max_left _ _).trans (le_max_right _ _))
  have hgraph := Function.update_eq_self node s.index.graph
  have hpruned := Function.update_eq_self node s.prunedList
  cases heff with
  | goto ht hplaced _ =>
    have hl : (⟨s.index.graph, s.prunedList, Function.update s.task node t⟩ : LinkState K) =
        ⟨Function.update s.index.graph node (s.index.graph node),
          Function.update s.prunedList node (s.prunedList node), Function.update s.task node t⟩ := by
      rw [hgraph, hpruned]
    refine h.advance hl hnode (fun hp => hplaced.trans hp) (fun hp => .inl (hplaced.symm.trans hp))
      hne hown (fun hp => ?_) ht
    have hlinked := h.linked_of_placed hnode (hplaced.symm.trans (hp rfl))
    exact ⟨h.lists node hlinked, h.length_le node hlinked⟩
  | @choose _ ids htask hids hlen =>
    have htask : s.task node = _ := htask
    have hl : (⟨s.index.graph, Function.update s.prunedList node ids,
        Function.update s.task node .linking⟩ : LinkState K) =
        ⟨Function.update s.index.graph node (s.index.graph node),
          Function.update s.prunedList node ids, Function.update s.task node .linking⟩ := by
      rw [hgraph]
    refine h.advance hl hnode (fun hp => ?_) (fun hp => absurd hp Bool.false_ne_true) hne hown
      (fun hp => absurd (hp rfl) Bool.false_ne_true) ⟨hids, hlen⟩
    rw [htask] at hp
    cases hp
  | place htask hids hlen =>
    have hl : (⟨Function.update s.index.graph node (s.prunedList node), s.prunedList,
        Function.update s.task node (.inserting (s.prunedList node))⟩ : LinkState K) =
        ⟨Function.update s.index.graph node (s.prunedList node),
          Function.update s.prunedList node (s.prunedList node),
          Function.update s.task node (.inserting (s.prunedList node))⟩ := by
      rw [hpruned]
    exact h.advance hl hnode (fun _ => rfl) (fun _ => .inr rfl) hne (hlt hids)
      (fun _ => ⟨hids, hbound hlen⟩) ⟨hids, List.Subset.refl _, hlen⟩
  | @store des ids _ hplaced hplaced' hdes hids hlen ht =>
    have hl : (⟨Function.update s.index.graph des ids, s.prunedList,
        Function.update s.task node t⟩ : LinkState K) =
        ⟨Function.update s.index.graph des ids,
          Function.update s.prunedList node (s.prunedList node), Function.update s.task node t⟩ := by
      rw [hpruned]
    exact h.advance hl hnode (fun _ => hplaced') (fun _ => .inl hplaced) hne (hlt hids)
      (fun _ => ⟨hids, hlen.trans (max_le (le_max_left _ _) (hbound le_rfl))⟩) ht

theorem Inv.link [Field K] [IsStrictOrderedRing K] [Archimedean K] (h : s.Inv A) (hA : A.Valid)
    {node fuel : ℕ} {scratch : Iterate K} {l : LinkState K} (hnode : s.task node ≠ .finished)
    (hstep : (A.linkArgs s.index).step scratch fuel node s.links = some l) :
    (s.withLinks l).Inv A ∧ ∃ t, l.task = Function.update s.task node t ∧
      (A.linkArgs s.index).remaining t < (A.linkArgs s.index).remaining (s.task node) := by
  obtain ⟨t, heff, hne, htask, hlt⟩ := LinkArgs.step_effect (h.valid hA) (h.ground hnode)
    (h.task node) (h.not_linked hnode) hstep
  exact ⟨h.effect hnode heff hne, t, htask, hlt⟩

theorem Inv.withSlots (h : s.Inv A) {slots : Slots τ} {arriving : ℕ → Option V}
    (hslots : slots.Inv) (hidle : slots.oldDeleteSet = none)
    (hmax : slots.maxPoints = s.index.slots.maxPoints)
    (hempty : ∀ v ∈ slots.emptySlots.values, v ∈ s.index.slots.emptySlots.values)
    (hsame : ∀ v ∉ s.index.slots.emptySlots.values, arriving v = s.arriving v)
    (hnew : ∀ v ∈ s.index.slots.emptySlots.values,
      v ∈ slots.emptySlots.values ↔ arriving v = none) :
    ({ s.withSlots slots with arriving } : Updates τ V K).Inv A := by
  set s' : Updates τ V K := { s.withSlots slots with arriving }
  have htotal : s'.index.total = s.index.total :=
    congrArg (· + s.index.numFrozenPts) hmax
  have hiff : ∀ v, s'.Linked v ↔ s.Linked v := by
    intro v
    have heq : s'.Linked v ↔ v < s'.index.total ∧ v ∉ slots.emptySlots.values ∧
      arriving v = none ∧ (s.task v).placed := Iff.rfl
    rw [heq, htotal, Linked]
    by_cases hv : v ∈ s.index.slots.emptySlots.values
    · rw [hnew v hv]
      tauto
    · have hv' : v ∉ slots.emptySlots.values := fun hin => hv (hempty v hin)
      simp only [hsame v hv, hv, hv']
  have hmono : ∀ v, s.Linked v → s'.Linked v := fun v => (hiff v).mpr
  refine ⟨hslots, hidle, h.frozen, h.start.trans hmax.symm, htotal ▸ h.total_le,
    ⟨htotal ▸ h.bounds.start, htotal ▸ h.bounds.graph⟩,
    fun v hv => (h.lists v ((hiff v).mp hv)).mono hmono,
    fun v hv => h.length_le v ((hiff v).mp hv), fun v hv => ?_, fun v hv => ?_, fun v => ?_,
    h.uncleaned⟩
  · by_cases hin : v ∈ s.index.slots.emptySlots.values
    · -- only a location that has been reserved
      have hfin : s.task v = .finished :=
        not_not.mp fun hne => (h.flight v (.inr hne)).2 hin
      exact ⟨hmax.symm ▸ h.lt_of_empty hin,
        (hnew v hin).not.mpr (hv.resolve_right (not_not.mpr hfin))⟩
    · have hflight : s.arriving v ≠ none ∨ s.task v ≠ .finished := hsame v hin ▸ hv
      exact ⟨hmax.symm ▸ (h.flight v hflight).1, fun hin' => hin (hempty v hin')⟩
  · by_cases hin : v ∈ s.index.slots.emptySlots.values
    · exact not_not.mp fun hne => (h.flight v (.inr hne)).2 hin
    · exact h.single v (hsame v hin ▸ hv)
  · refine (h.task v).mono (fun it hs => hs.congr ?_ rfl hmono fun _ _ => rfl) hmono
      (fun _ _ hids => hids.mono hmono) rfl
    exact htotal

/-- The vector of a reserved location is not looked at before it is stored. -/
theorem Inv.store (h : s.Inv A) {location : ℕ} {point : V}
    (harriving : s.arriving location = some point) : (s.store location point).Inv A := by
  have hnone : s.arriving location ≠ none := by
    rw [harriving]
    exact Option.some_ne_none point
  have hfin := h.single location hnone
  have hloc : ¬ s.Linked location := fun hl => hnone hl.2.2.1
  have hiff : ∀ v, (s.store location point).Linked v ↔ s.Linked v := by
    intro v
    have heq : (s.store location point).Linked v ↔ v < s.index.total ∧
        v ∉ s.index.slots.emptySlots.values ∧ Function.update s.arriving location none v = none ∧
        (Function.update s.task location .waiting v).placed := Iff.rfl
    rcases eq_or_ne v location with rfl | hv
    · rw [heq, Function.update_self, Function.update_self]
      exact iff_of_false (fun hl => absurd hl.2.2.2 Bool.false_ne_true) hloc
    · rw [heq, Function.update_of_ne hv, Function.update_of_ne hv]
      rfl
  have hmono : ∀ v, s.Linked v → (s.store location point).Linked v := fun v => (hiff v).mpr
  refine ⟨h.slots, h.idle, h.frozen, h.start, h.total_le, ⟨h.bounds.start, h.bounds.graph⟩,
    fun v hv => (h.lists v ((hiff v).mp hv)).mono hmono,
    fun v hv => h.length_le v ((hiff v).mp hv), fun v hv => ?_, fun v hv => ?_, fun v => ?_,
    fun v => ?_⟩
  · rcases eq_or_ne v location with rfl | hne
    · exact h.flight v (.inl hnone)
    · simp only [Updates.store, Function.update_of_ne hne] at hv
      exact h.flight v hv
  · rcases eq_or_ne v location with rfl | hne
    · exact absurd (Function.update_self ..) hv
    · simp only [Updates.store, Function.update_of_ne hne] at hv ⊢
      exact h.single v hv
  · rcases eq_or_ne v location with rfl | hne
    · rw [show (s.store v point).task v = .waiting from Function.update_self ..]
      exact trivial
    · have hvector : ∀ w ≠ location, (s.store location point).index.vector w = s.index.vector w :=
        fun w hw => Function.update_of_ne hw ..
      rw [show (s.store location point).task v = s.task v from Function.update_of_ne hne ..,
        show (s.store location point).prunedList v = s.prunedList v from
          Function.update_of_ne hne ..]
      refine (h.task v).mono (fun it hs => hs.congr rfl rfl hmono fun w hw => ?_) hmono
        (fun _ _ hids => hids.mono hmono) rfl
      simp only [UpdateArgs.linkArgs]
      rw [hvector v hne, hvector w fun he => hloc (he ▸ hw)]
  · have hnone : ∀ v, Function.update s.task location .waiting v ≠ .cleaned :=
      (Function.forall_update_iff s.task fun _ t => t ≠ .cleaned).mpr
        ⟨nofun, fun v _ => h.uncleaned v⟩
    exact hnone v

/-- The point of a location, which its insert may still have. -/
def held (s : Updates τ V K) (v : ℕ) : V := (s.arriving v).getD (s.index.vector v)

/-- A bound on the steps an insert still makes. -/
def remaining (A : UpdateArgs V K) (s : Updates τ V K) (v : ℕ) : ℕ :=
  if (s.arriving v).isSome then s.index.total + 3 * A.indexing.maxDegree + 6
  else (A.linkArgs s.index).remaining (s.task v)

section Work

variable [Field K] [IsStrictOrderedRing K] [Archimedean K]

structure Worked (A : UpdateArgs V K) (s s' : Updates τ V K) : Prop where
  slots : s'.index.slots = s.index.slots
  frozen : s'.index.numFrozenPts = s.index.numFrozenPts
  held : s'.held = s.held
  le : ∀ v, s'.remaining A v ≤ s.remaining A v
  lt : ∃ v < s.index.slots.maxPoints, s'.remaining A v < s.remaining A v

theorem Inv.work (h : s.Inv A) (hA : A.Valid) (hwork : Work A s s') :
    s'.Inv A ∧ Worked A s s' := by
  cases hwork with
  | @store location point harriving =>
    have hnone : s.arriving location ≠ none := by
      rw [harriving]
      exact Option.some_ne_none point
    have hother : ∀ v ≠ location,
        (s.store location point).remaining A v = s.remaining A v := by
      intro v hv
      have ha : (s.store location point).arriving v = s.arriving v := Function.update_of_ne hv ..
      have ht : (s.store location point).task v = s.task v := Function.update_of_ne hv ..
      rw [Updates.remaining, Updates.remaining, ha, ht]
      rfl
    have hlt : (s.store location point).remaining A location < s.remaining A location := by
      have ha : (s.store location point).arriving location = none := Function.update_self ..
      have ht : (s.store location point).task location = .waiting := Function.update_self ..
      rw [Updates.remaining, Updates.remaining, ha, ht, harriving]
      exact Nat.lt_succ_self _
    refine ⟨h.store harriving, rfl, rfl, funext fun v => ?_, fun v => ?_,
      location, (h.flight location (.inl hnone)).1, hlt⟩
    · rcases eq_or_ne v location with rfl | hv
      · simp [Updates.held, Updates.store, harriving]
      · simp [Updates.held, Updates.store, Function.update_of_ne hv]
    · rcases eq_or_ne v location with rfl | hv
      · exact hlt.le
      · exact (hother v hv).le
  | @link location fuel scratch l hne hstep =>
    obtain ⟨hinv, t, htask, hlt⟩ := h.link hA hne hstep
    have harriving : s.arriving location = none := not_not.mp fun ha => hne (h.single location ha)
    have hremaining : ∀ v, (s.withLinks l).remaining A v =
        if (s.arriving v).isSome then s.index.total + 3 * A.indexing.maxDegree + 6
        else (A.linkArgs s.index).remaining (Function.update s.task location t v) := by
      intro v
      rw [← htask]
      rfl
    have hlt' : (s.withLinks l).remaining A location < s.remaining A location := by
      rw [hremaining, Updates.remaining, harriving, Function.update_self]
      exact hlt
    refine ⟨hinv, rfl, rfl, rfl, fun v => ?_, location, (h.flight location (.inr hne)).1, hlt'⟩
    rcases eq_or_ne v location with rfl | hv
    · exact hlt'.le
    · rw [hremaining, Function.update_of_ne hv]
      rfl

theorem Inv.exists_work (h : s.Inv A) (hA : A.Valid) {v : ℕ}
    (hv : s.arriving v ≠ none ∨ s.task v ≠ .finished) : ∃ s', Work A s s' := by
  by_cases harriving : s.arriving v = none
  · have hne := hv.resolve_left (not_not.mpr harriving)
    have hground := h.ground hne
    obtain ⟨scratch, fuel, l, hstep⟩ : ∃ scratch fuel l,
        (A.linkArgs s.index).step scratch fuel v s.links = some l :=
      LinkArgs.exists_step (h.valid hA) hground.init (h.task v) (h.not_linked hne)
    exact ⟨_, .link hne hstep⟩
  · obtain ⟨point, hpoint⟩ := Option.ne_none_iff_exists'.mp harriving
    exact ⟨_, .store hpoint⟩

end Work

end Updates

end HiDANN.Memory
