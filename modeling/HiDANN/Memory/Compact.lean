import HiDANN.Memory.SearchTags

/-! The loop of `compact_data`, which moves the locations with a tag to the front, in place: it
renames a list, exchanges it with that of the new location, and copies the vector. A location
moves to one that has been moved from or was empty. Where no list leads to an empty location,
searches do not notice. -/

namespace HiDANN.Memory

open Construction Search NeighborPriorityQueue

def swapNeighbours (graph : ℕ → List ℕ) (a b : ℕ) : ℕ → List ℕ :=
  Function.update (Function.update graph a (graph b)) b (graph a)

theorem swapNeighbours_left (graph : ℕ → List ℕ) {a b : ℕ} (h : a ≠ b) :
    swapNeighbours graph a b a = graph b := by
  rw [swapNeighbours, Function.update_of_ne h, Function.update_self]

theorem swapNeighbours_of_ne (graph : ℕ → List ℕ) {a b v : ℕ} (ha : v ≠ a) (hb : v ≠ b) :
    swapNeighbours graph a b v = graph v := by
  rw [swapNeighbours, Function.update_of_ne hb, Function.update_of_ne ha]

namespace DynamicIndex

variable {τ V δ : Type*} (I : DynamicIndex τ V)

/-- `UINT32_MAX`, where a location without a tag goes. -/
def noLocation : ℕ := 2 ^ 32 - 1

def newLoc (old : ℕ) : ℕ :=
  if old < I.slots.maxPoints then
    if I.slots.locationToTag.contains old then I.slots.newLocation old else noLocation
  else old

/-- A member of `empty_locations`. -/
def isEmptyLocation (loc : ℕ) : Bool :=
  loc < I.slots.maxPoints && !I.slots.locationToTag.contains loc

def newAdjList (nbrs : List ℕ) : List ℕ :=
  (nbrs.filter fun ngh => !I.isEmptyLocation ngh).map I.newLoc

/-- One iteration of the loop, over the lists and the vectors. -/
def moveStep (s : (ℕ → List ℕ) × (ℕ → V)) (old : ℕ) : (ℕ → List ℕ) × (ℕ → V) :=
  if I.newLoc old < I.slots.maxPoints ∨ I.slots.maxPoints ≤ old then
    let graph := Function.update s.1 old (I.newAdjList (s.1 old))
    if I.newLoc old ≠ old then
      (swapNeighbours graph (I.newLoc old) old, Function.update s.2 (I.newLoc old) (s.2 old))
    else (graph, s.2)
  else (Function.update s.1 old [], s.2)

def moved (n : ℕ) : (ℕ → List ℕ) × (ℕ → V) := (List.range n).foldl I.moveStep (I.graph, I.vector)

variable [DecidableEq τ]

def compactData [Inhabited τ] : Except String (DynamicIndex τ V) :=
  if I.slots.dataCompacted then .ok I
  else if I.slots.deleteSet ≠ ∅ then
    .error ("Can not compact data when index has non-empty _delete_set of size: " ++
      toString I.slots.deleteSet.card)
  else if I.start < I.slots.maxPoints ∧ ¬ I.slots.locationToTag.contains I.start then
    .error "ERROR: Start node deleted."
  else
    let s := I.moved I.total
    .ok { I with
      slots := I.slots.compacted
      graph := fun v => if I.slots.nd ≤ v ∧ v < I.slots.maxPoints then [] else s.1 v
      vector := s.2 }

/-! ### What the loop leaves -/

/-- The locations that stay: those with a tag, and the frozen points. -/
def Kept (v : ℕ) : Prop :=
  v < I.total ∧ (I.slots.locationToTag.contains v ∨ I.slots.maxPoints ≤ v)

variable {I} {pending : List ℕ} {u v : ℕ}

omit [DecidableEq τ] in
theorem newLoc_of_frozen (hv : I.slots.maxPoints ≤ v) : I.newLoc v = v := by
  rw [newLoc, if_neg (not_lt.mpr hv)]

theorem newLoc_of_live (hcons : I.slots.Consistent pending)
    (hv : I.slots.locationToTag.contains v) : I.newLoc v = I.slots.newLocation v := by
  rw [newLoc, if_pos (hcons.lt_of_live hv), if_pos hv]

omit [DecidableEq τ] in
theorem newLocation_le (s : Slots τ) (v : ℕ) : s.newLocation v ≤ v := by
  have := List.length_filter_le (fun loc => s.locationToTag.contains loc) (List.range v)
  rwa [List.length_range] at this

theorem newLoc_le (hcons : I.slots.Consistent pending) (hv : I.Kept v) : I.newLoc v ≤ v := by
  rcases hv.2 with hlive | hfrozen
  · rw [newLoc_of_live hcons hlive]
    exact newLocation_le _ v
  · exact (newLoc_of_frozen hfrozen).le

/-- What stays keeps its order. -/
theorem newLoc_strictMono (hcons : I.slots.Consistent pending) :
    StrictMonoOn I.newLoc {v | I.Kept v} := by
  rintro u hu v hv huv
  rcases hu.2 with hlive | hfrozen
  · rcases hv.2 with hlive' | hfrozen'
    · rw [newLoc_of_live hcons hlive, newLoc_of_live hcons hlive']
      exact Slots.newLocation_strictMono hlive huv
    · rw [newLoc_of_frozen hfrozen']
      exact (newLoc_le hcons hu).trans_lt huv
  · rw [newLoc_of_frozen hfrozen, newLoc_of_frozen (hfrozen.trans huv.le)]
    exact huv

theorem kept_iff_goes (hcons : I.slots.Consistent pending) (hmax : I.slots.maxPoints < 2 ^ 32)
    (hv : v < I.total) :
    I.Kept v ↔ I.newLoc v < I.slots.maxPoints ∨ I.slots.maxPoints ≤ v := by
  constructor
  · rintro ⟨-, hlive | hfrozen⟩
    · refine .inl ?_
      rw [newLoc_of_live hcons hlive]
      exact (newLocation_le _ v).trans_lt (hcons.lt_of_live hlive)
    · exact .inr hfrozen
  · rintro (hlt | hfrozen)
    · refine ⟨hv, ?_⟩
      by_contra hnot
      obtain ⟨hempty, hlow⟩ := not_or.mp hnot
      rw [newLoc, if_pos (not_le.mp hlow), if_neg hempty, noLocation] at hlt
      omega
    · exact ⟨hv, .inr hfrozen⟩

omit [DecidableEq τ] in
theorem mem_newAdjList {nbrs : List ℕ} {w : ℕ} :
    w ∈ I.newAdjList nbrs ↔ ∃ ngh ∈ nbrs, ¬ I.isEmptyLocation ngh ∧ I.newLoc ngh = w := by
  simp [newAdjList, and_assoc]

omit [DecidableEq τ] in
theorem kept_iff_not_empty (hv : v < I.total) : I.Kept v ↔ ¬ I.isEmptyLocation v := by
  rw [Kept, and_iff_right hv, isEmptyLocation]
  by_cases hlive : I.slots.locationToTag.contains v <;> simp [hlive]

omit [DecidableEq τ] in
theorem moveStep_self (s : (ℕ → List ℕ) × (ℕ → V))
    (hgoes : I.newLoc v < I.slots.maxPoints ∨ I.slots.maxPoints ≤ v) :
    (I.moveStep s v).1 (I.newLoc v) = I.newAdjList (s.1 v) ∧
      (I.moveStep s v).2 (I.newLoc v) = s.2 v := by
  rw [moveStep, if_pos hgoes]
  by_cases hstay : I.newLoc v = v
  · rw [if_neg (not_not.mpr hstay), hstay]
    exact ⟨Function.update_self .., rfl⟩
  · rw [if_pos hstay]
    dsimp only
    rw [swapNeighbours_left _ hstay, Function.update_self, Function.update_self]
    exact ⟨rfl, rfl⟩

omit [DecidableEq τ] in
theorem moveStep_of_ne (s : (ℕ → List ℕ) × (ℕ → V)) (huv : u ≠ v)
    (hgoes : I.newLoc v < I.slots.maxPoints ∨ I.slots.maxPoints ≤ v → u ≠ I.newLoc v) :
    (I.moveStep s v).1 u = s.1 u ∧ (I.moveStep s v).2 u = s.2 u := by
  rw [moveStep]
  by_cases hgo : I.newLoc v < I.slots.maxPoints ∨ I.slots.maxPoints ≤ v
  · have hne := hgoes hgo
    rw [if_pos hgo]
    by_cases hstay : I.newLoc v = v
    · rw [if_neg (not_not.mpr hstay)]
      exact ⟨Function.update_of_ne huv .., rfl⟩
    · rw [if_pos hstay]
      dsimp only
      rw [swapNeighbours_of_ne _ hne huv, Function.update_of_ne huv, Function.update_of_ne hne]
      exact ⟨rfl, rfl⟩
  · rw [if_neg hgo]
    exact ⟨Function.update_of_ne huv .., rfl⟩

/-- The first `n` locations have been gone through. -/
structure Moved (I : DynamicIndex τ V) (n : ℕ) (s : (ℕ → List ℕ) × (ℕ → V)) : Prop where
  gone : ∀ v < n, I.Kept v →
    s.1 (I.newLoc v) = I.newAdjList (I.graph v) ∧ s.2 (I.newLoc v) = I.vector v
  ahead : ∀ v, n ≤ v → s.1 v = I.graph v ∧ s.2 v = I.vector v

theorem Moved.step (hcons : I.slots.Consistent pending) (hmax : I.slots.maxPoints < 2 ^ 32) {n : ℕ}
    (hn : n < I.total) {s : (ℕ → List ℕ) × (ℕ → V)} (h : Moved I n s) :
    Moved I (n + 1) (I.moveStep s n) := by
  have hgoes := kept_iff_goes hcons hmax hn
  refine ⟨fun v hv hkept => ?_, fun v hv => ?_⟩
  · rcases Nat.lt_succ_iff_lt_or_eq.mp hv with hlt | rfl
    · -- an earlier location has gone to one before that of the present one
      have hle := newLoc_le hcons hkept
      obtain ⟨hgraph, hvector⟩ := moveStep_of_ne s (hle.trans_lt hlt).ne fun hgo =>
        (newLoc_strictMono hcons hkept (hgoes.mpr hgo) hlt).ne
      rw [hgraph, hvector]
      exact h.gone v hlt hkept
    · obtain ⟨hgraph, hvector⟩ := moveStep_self s (hgoes.mp hkept)
      obtain ⟨hgraph', hvector'⟩ := h.ahead v le_rfl
      rw [hgraph, hvector, hgraph', hvector']
      exact ⟨rfl, rfl⟩
  · obtain ⟨hgraph, hvector⟩ := moveStep_of_ne s (by omega : v ≠ n) fun hgo =>
      ((newLoc_le hcons (hgoes.mpr hgo)).trans_lt hv).ne'
    rw [hgraph, hvector]
    exact h.ahead v (by omega)

theorem moved_spec (hcons : I.slots.Consistent pending) (hmax : I.slots.maxPoints < 2 ^ 32) {n : ℕ}
    (hn : n ≤ I.total) : Moved I n (I.moved n) := by
  induction n with
  | zero => exact ⟨fun v hv => absurd hv (Nat.not_lt_zero v), fun v _ => ⟨rfl, rfl⟩⟩
  | succ n ih =>
    have hstep := (ih (by omega)).step hcons hmax hn
    rwa [moved, List.range_succ, List.foldl_append]

variable [Inhabited τ]

structure Compacted (I J : DynamicIndex τ V) : Prop where
  slots : J.slots = I.slots.compacted
  frozen : J.numFrozenPts = I.numFrozenPts
  start : J.start = I.start
  kept : ∀ v, I.Kept v →
    J.graph (I.newLoc v) = I.newAdjList (I.graph v) ∧ J.vector (I.newLoc v) = I.vector v
  cleared : ∀ v, I.slots.nd ≤ v → v < I.slots.maxPoints → J.graph v = []

structure Compactable (I : DynamicIndex τ V) : Prop where
  consistent : I.slots.Consistent []
  deleted : I.slots.deleteSet = ∅
  idle : I.slots.oldDeleteSet = none
  dirty : I.slots.dataCompacted = false
  lt_max : I.slots.maxPoints < 2 ^ 32
  start : I.slots.maxPoints ≤ I.start

variable {J : DynamicIndex τ V}

omit [Inhabited τ] in
theorem Compactable.le_of_initIds (h : Compactable I) : ∀ v ∈ I.initIds, I.slots.maxPoints ≤ v := by
  intro v hv
  rcases List.mem_cons.mp hv with rfl | hv
  · exact h.start
  · exact (List.mem_range'_1.mp (List.mem_of_mem_filter hv)).1

omit [Inhabited τ] in
theorem newLocation_lt_nd (h : Compactable I) (hv : I.slots.locationToTag.contains v) :
    I.slots.newLocation v < I.slots.nd := by
  rw [← Finset.mem_range, ← h.consistent.image_newLocation h.deleted h.idle]
  exact Finset.mem_image_of_mem _ (Slots.mem_live.mpr hv)

theorem compactData_spec (h : Compactable I) : ∃ J, I.compactData = .ok J ∧ Compacted I J := by
  have hstart : ¬ (I.start < I.slots.maxPoints ∧ ¬ I.slots.locationToTag.contains I.start) :=
    fun hlow => absurd h.start (not_le.mpr hlow.1)
  rw [compactData, if_neg (by rw [h.dirty]; exact Bool.false_ne_true),
    if_neg (not_not.mpr h.deleted), if_neg hstart]
  refine ⟨_, rfl, rfl, rfl, rfl, fun v hv => ?_, fun v hnd hv => if_pos ⟨hnd, hv⟩⟩
  obtain ⟨hgraph, hvector⟩ := (moved_spec h.consistent h.lt_max le_rfl).gone v hv.1 hv
  refine ⟨?_, hvector⟩
  dsimp only
  rw [if_neg, hgraph]
  rintro ⟨hnd, hlt⟩
  rcases hv.2 with hlive | hfrozen
  · rw [newLoc_of_live h.consistent hlive] at hnd
    exact absurd (newLocation_lt_nd h hlive) (not_lt.mpr hnd)
  · rw [newLoc_of_frozen hfrozen] at hlt
    exact absurd hlt (not_lt.mpr hfrozen)

omit [Inhabited τ] in
/-- Every location is new for one that stays, or has been cleared. -/
theorem exists_kept (h : Compactable I) (hv : v < I.total)
    (hfull : v < I.slots.nd ∨ I.slots.maxPoints ≤ v) : ∃ u, I.Kept u ∧ I.newLoc u = v := by
  rcases hfull with hnd | hfrozen
  · rw [← Finset.mem_range, ← h.consistent.image_newLocation h.deleted h.idle,
      Finset.mem_image] at hnd
    obtain ⟨u, hu, rfl⟩ := hnd
    have hlive := Slots.mem_live.mp hu
    have hlt := h.consistent.lt_of_live hlive
    exact ⟨u, ⟨hlt.trans_le (Nat.le_add_right ..), .inl hlive⟩, newLoc_of_live h.consistent hlive⟩
  · exact ⟨v, ⟨hv, .inr hfrozen⟩, newLoc_of_frozen hfrozen⟩

/-- The lists of a compacted index lead to its points. -/
theorem Compacted.graph_lt (hJ : Compacted I J) (h : Compactable I) (hI : I.InBounds) {w : ℕ}
    (hv : v < I.total) (hw : w ∈ J.graph v) :
    w < I.total ∧ (w < I.slots.nd ∨ I.slots.maxPoints ≤ w) := by
  by_cases hfull : v < I.slots.nd ∨ I.slots.maxPoints ≤ v
  · obtain ⟨u, hu, rfl⟩ := exists_kept h hv hfull
    rw [(hJ.kept u hu).1, mem_newAdjList] at hw
    obtain ⟨ngh, hngh, hempty, rfl⟩ := hw
    have hlt := hI.graph u hu.1 ngh hngh
    have hkept := (kept_iff_not_empty hlt).mpr hempty
    refine ⟨(newLoc_le h.consistent hkept).trans_lt hlt, ?_⟩
    rcases hkept.2 with hlive | hfrozen
    · rw [newLoc_of_live h.consistent hlive]
      exact .inl (newLocation_lt_nd h hlive)
    · rw [newLoc_of_frozen hfrozen]
      exact .inr hfrozen
  · obtain ⟨hnd, hmax⟩ := not_or.mp hfull
    rw [hJ.cleared v (not_lt.mp hnd) (not_le.mp hmax)] at hw
    cases hw

theorem Compacted.tryGet (hJ : Compacted I J) (h : Compactable I) (hv : I.Kept v) :
    J.slots.locationToTag.tryGet (I.newLoc v) = I.slots.locationToTag.tryGet v := by
  have hcons := (h.consistent.compacted h.deleted h.idle).1
  have hnone : ∀ {s : Slots τ} {w : ℕ}, s.Consistent [] → s.maxPoints ≤ w →
      s.locationToTag.tryGet w = none := by
    intro s w hs hw
    by_contra hsome
    obtain ⟨tag, htag⟩ := Option.ne_none_iff_exists'.mp hsome
    exact absurd (hs.lt_of_live ((Slots.contains_iff_tryGet hs.tags).mpr ⟨tag, htag⟩))
      (not_lt.mpr hw)
  rw [hJ.slots]
  rcases hv.2 with hlive | hfrozen
  · ext tag
    have hlookup := h.consistent.lookup_compactTags tag
    rw [newLoc_of_live h.consistent hlive, hcons.inverse, h.consistent.inverse, Slots.compacted,
      hlookup, Option.map_eq_some_iff]
    constructor
    · rintro ⟨u, hu, heq⟩
      rwa [Slots.newLocation_inj (h.consistent.contains_of_lookup hu) hlive heq] at hu
    · exact fun hv => ⟨v, hv, rfl⟩
  · have hfrozen' : I.slots.compacted.maxPoints ≤ v := hfrozen
    rw [newLoc_of_frozen hfrozen, hnone hcons hfrozen', hnone h.consistent hfrozen]

/-- A compaction renames the locations that stay, where no list leads to another one. -/
theorem Compacted.carried (hJ : Compacted I J) (h : Compactable I) (hI : I.InBounds)
    (hclosed : ∀ v, I.Kept v → ∀ w ∈ I.graph v, I.Kept w) :
    Carried I.newLoc {v | I.Kept v} I J where
  strictMono := newLoc_strictMono h.consistent
  closed := hclosed
  graph v hv := by
    rw [(hJ.kept v hv).1, newAdjList, List.filter_eq_self.mpr]
    intro w hw
    have hkept := hclosed v hv w hw
    rw [Bool.not_eq_true', ← Bool.not_eq_true]
    exact (kept_iff_not_empty hkept.1).mp hkept
  vector v hv := (hJ.kept v hv).2
  tag v hv := hJ.tryGet h hv
  init v hv := ⟨hI.initIds_lt v hv, .inr (h.le_of_initIds v hv)⟩
  initIds := by
    have hmax : J.slots.maxPoints = I.slots.maxPoints := by
      rw [hJ.slots]
      rfl
    rw [List.map_congr_left fun v hv => newLoc_of_frozen (h.le_of_initIds v hv), List.map_id',
      initIds, initIds, hmax, hJ.frozen, hJ.start]

theorem Compacted.total_eq (hJ : Compacted I J) : J.total = I.total := by
  rw [total, total, hJ.slots, hJ.frozen]
  rfl

theorem Compacted.inBounds (hJ : Compacted I J) (h : Compactable I) (hI : I.InBounds) :
    J.InBounds := by
  constructor
  · rw [hJ.total_eq, hJ.start]
    exact hI.start
  · rw [hJ.total_eq]
    exact fun v hv w hw => (hJ.graph_lt h hI hv hw).1

theorem Compacted.lookup_vector (hJ : Compacted I J) (h : Compactable I) (tag : τ) :
    (J.slots.tagToLocation.lookup tag).map J.vector =
      (I.slots.tagToLocation.lookup tag).map I.vector := by
  have hlookup := h.consistent.lookup_compactTags tag
  rw [hJ.slots, Slots.compacted, hlookup, Option.map_map]
  cases hget : I.slots.tagToLocation.lookup tag with
  | none => rfl
  | some u =>
    have hlive := h.consistent.contains_of_lookup hget
    have hkept : I.Kept u :=
      ⟨(h.consistent.lt_of_live hlive).trans_le (Nat.le_add_right ..), .inl hlive⟩
    rw [Option.map_some, Option.map_some, Function.comp_apply, ← newLoc_of_live h.consistent hlive,
      (hJ.kept u hkept).2]

theorem Compacted.contains_iff (hJ : Compacted I J) (h : Compactable I) (loc : ℕ) :
    J.slots.locationToTag.contains loc ↔ loc < I.slots.nd := by
  rw [hJ.slots]
  exact h.consistent.contains_compactLocations h.deleted h.idle loc

/-- A point behind an empty location, and a frozen one. -/
def gapAtFront : DynamicIndex ℕ ℤ where
  slots := ⟨2, 1, false, ⟨[0], [true, false]⟩, ∅, none, ⟨1, [0, 7], [false, true]⟩,
    AList.singleton 7 1⟩
  numFrozenPts := 1
  start := 2
  graph v := if v = 2 then [1] else [2]
  vector v := v

theorem gapAtFront_reachable :
    Relation.ReflTransGen Slots.Step (Slots.construct 2) gapAtFront.slots := by
  have hinsert : Slots.Step (Slots.construct 2 : Slots ℕ) _ :=
    @Slots.Step.insert _ _ _ _ _ _ 7 (some 1) rfl
  exact (Relation.ReflTransGen.single hinsert).tail (.delete _ 9)

end DynamicIndex

end HiDANN.Memory
