import HiDANN.Memory.NaturalNumbers
import Mathlib.Algebra.BigOperators.Group.Finset.Piecewise
import Mathlib.Algebra.GroupWithZero.Nat
import Mathlib.Algebra.Order.BigOperators.Group.Finset
import Mathlib.Data.Nat.Count
import Mathlib.Data.List.AList
import Mathlib.Logic.Relation

/-! The locations and tags of a dynamic index. A location is empty, has a tag, is marked as
deleted, or belongs to a consolidation that is under way, which has taken over the set of the
deleted ones. The critical sections of inserts, deletions, consolidations and compactions are
interleaved; points have no labels. -/

namespace HiDANN.Memory

/-- What the locks of an index protect, and the set a consolidation has taken over. -/
structure Slots (τ : Type*) where
  maxPoints : ℕ
  nd : ℕ
  dataCompacted : Bool
  emptySlots : NaturalNumberSet
  deleteSet : Finset ℕ
  oldDeleteSet : Option (Finset ℕ)
  locationToTag : NaturalNumberMap τ
  tagToLocation : AList fun _ : τ => ℕ

/-- What `is_in_set` does without such a bit. -/
def outOfRange : String := "bit out of range"

namespace Slots

variable {τ : Type*}

/-- `insert` of the numbers from `lo` to below `hi`. -/
def insertRange (s : NaturalNumberSet) (lo hi : ℕ) : NaturalNumberSet :=
  (List.range' lo (hi - lo)).foldl NaturalNumberSet.insert s

/-- A dynamic index as it is constructed, with deletions enabled. -/
def construct (maxPoints : ℕ) : Slots τ where
  maxPoints := max maxPoints 1
  nd := 0
  dataCompacted := true
  emptySlots := insertRange .empty 0 (max maxPoints 1)
  deleteSet := ∅
  oldDeleteSet := none
  locationToTag := .empty
  tagToLocation := ∅

/-- `reserve_location`; no location for -1. -/
def reserveLocation (s : Slots τ) : Except String (Option ℕ × Slots τ) :=
  if s.maxPoints ≤ s.nd then .ok (none, s)
  else if s.dataCompacted ∧ s.emptySlots.isEmpty then
    .ok (some s.nd, { s with nd := s.nd + 1 })
  else match s.emptySlots.popAny with
    | .error e => .error e
    | .ok (location, emptySlots) =>
      .ok (some location, { s with
        emptySlots, deleteSet := s.deleteSet.erase location, nd := s.nd + 1 })

def releaseLocation (s : Slots τ) (location : ℕ) : Except String (Slots τ) :=
  match s.emptySlots.isInSet location with
  | none => .error outOfRange
  | some true => .error "Trying to release location, but location already in empty slots"
  | some false =>
    .ok { s with emptySlots := s.emptySlots.insert location, nd := s.nd - 1 }

/-- The loop of `release_locations`, in the order of the set. -/
def releaseAll : List ℕ → Slots τ → Except String (Slots τ)
  | [], s => .ok s
  | location :: locations, s =>
    match s.releaseLocation location with
    | .error e => .error e
    | .ok s => releaseAll locations s

def releaseLocations (locations : List ℕ) (s : Slots τ) : Except String (Slots τ) :=
  match releaseAll locations s with
  | .error e => .error e
  | .ok s =>
    if s.emptySlots.size + s.nd ≠ s.maxPoints then .error "#empty slots + nd != max points"
    else .ok s

section Tags

variable [DecidableEq τ]

/-- `insert_point` up to the linking of the point. -/
def insertPoint [Zero τ] [Inhabited τ] (s : Slots τ) (tag : τ) :
    Except String (Option ℕ × Slots τ) :=
  if tag = 0 then
    .error "Do not insert point with tag 0. That is reserved for points hidden from the user."
  else match s.reserveLocation with
    | .error e => .error e
    | .ok (none, s) => .ok (none, s)
    | .ok (some location, s) =>
      if (s.tagToLocation.lookup tag).isSome then
        (s.releaseLocation location).map fun s => (none, s)
      else .ok (some location, { s with
        tagToLocation := s.tagToLocation.insert tag location
        locationToTag := s.locationToTag.set location tag })

/-- The deletion of a tag; `false` when there is no such tag. -/
def deleteTag (s : Slots τ) (tag : τ) : Bool × Slots τ :=
  match s.tagToLocation.lookup tag with
  | none => (false, s)
  | some location => (true, { s with
      deleteSet := insert location s.deleteSet
      locationToTag := s.locationToTag.erase location
      tagToLocation := s.tagToLocation.erase tag })

def lazyDelete (s : Slots τ) (tag : τ) : Bool × Slots τ :=
  deleteTag { s with dataCompacted := false } tag

/-- `lazy_delete` of several tags, with the failed ones. -/
def lazyDeletes (s : Slots τ) (tags : List τ) : List τ × Slots τ :=
  tags.foldl (fun r tag =>
    let r' := deleteTag r.2 tag
    (if r'.1 then r.1 else r.1 ++ [tag], r'.2)) ([], { s with dataCompacted := false })

/-- The checks of `consolidate_deletes`; `false` for an inconsistent count. -/
def consolidateCheck (s : Slots τ) : Except String Bool :=
  if s.emptySlots.size + s.nd ≠ s.maxPoints then .error "#empty slots + nd != max points"
  else if s.locationToTag.size + s.deleteSet.card ≠ s.nd then .ok false
  else if s.locationToTag.size ≠ s.tagToLocation.entries.length then
    .error "_location_to_tag and _tag_to_location not of same size"
  else .ok true

/-- The consolidation takes over the deleted locations, unless another one is under way. -/
def consolidateSwap (s : Slots τ) : Option (Slots τ) :=
  match s.oldDeleteSet with
  | none => some { s with deleteSet := ∅, oldDeleteSet := some s.deleteSet }
  | some _ => none

/-- Whether the loop of the consolidation processes a location. -/
def isProcessed (s : Slots τ) (old : Finset ℕ) (loc : ℕ) : Option Bool :=
  if loc ∈ old then some false else (s.emptySlots.isInSet loc).map not

/-- The consolidation ends; it has gone through its set in the given order. -/
def consolidateRelease (s : Slots τ) (order : List ℕ) : Except String (Slots τ) :=
  releaseLocations order { s with oldDeleteSet := none }

/-- `new_location` of a location with a tag. -/
def newLocation (s : Slots τ) (old : ℕ) : ℕ :=
  ((List.range old).filter fun loc => s.locationToTag.contains loc).length

/-- `_tag_to_location` after a compaction. -/
def compactTags (s : Slots τ) [Inhabited τ] : AList fun _ : τ => ℕ :=
  s.locationToTag.enumerate.foldl (fun m e => m.insert e.2 (s.newLocation e.1)) ∅

/-- `_location_to_tag` after a compaction. -/
def compactLocations (s : Slots τ) [Inhabited τ] : NaturalNumberMap τ :=
  s.compactTags.entries.foldl (fun m e => m.set e.2 e.1) s.locationToTag.clear

/-- The tagged locations have moved to the front. -/
def compacted (s : Slots τ) [Inhabited τ] : Slots τ :=
  { s with
    tagToLocation := s.compactTags
    locationToTag := s.compactLocations
    emptySlots := insertRange s.emptySlots.clear s.nd s.maxPoints
    dataCompacted := true }

/-- The tables of `compact_data`. -/
def compactData [Inhabited τ] (s : Slots τ) : Except String (Slots τ) :=
  if s.dataCompacted then .ok s
  else if s.deleteSet ≠ ∅ then
    .error ("Can not compact data when index has non-empty _delete_set of size: " ++
      toString s.deleteSet.card)
  else .ok s.compacted

end Tags

/-! ### The invariant -/

def live (s : Slots τ) : Finset ℕ := (s.locationToTag.keysFrom 0).toFinset

def places (s : Slots τ) (loc : ℕ) : ℕ :=
  (if loc ∈ s.emptySlots.values then 1 else 0) + (if s.locationToTag.contains loc then 1 else 0) +
    (if loc ∈ s.deleteSet then 1 else 0) + (if loc ∈ s.oldDeleteSet.getD ∅ then 1 else 0)

/-- Every location has one place or is pending, the tables are inverse to each other, and `nd`
counts the locations that are not empty. -/
structure Consistent [DecidableEq τ] (pending : List ℕ) (s : Slots τ) : Prop where
  empty : s.emptySlots.Valid
  tags : s.locationToTag.Valid
  inverse : ∀ loc tag, s.locationToTag.tryGet loc = some tag ↔ s.tagToLocation.lookup tag = some loc
  nodup : pending.Nodup
  place : ∀ loc, s.places loc + (if loc ∈ pending then 1 else 0) =
    if loc < s.maxPoints then 1 else 0
  count : s.emptySlots.size + s.nd = s.maxPoints

/-- The bitset of the empty locations has a bit for every location. -/
def Covered (s : Slots τ) : Prop := s.maxPoints ≤ s.emptySlots.bits.length

variable {s s' : Slots τ} {pending : List ℕ} {location : ℕ}

theorem mem_live {loc : ℕ} : loc ∈ s.live ↔ s.locationToTag.contains loc := by
  rw [live, List.mem_toFinset, NaturalNumberMap.mem_keysFrom, and_iff_right (Nat.zero_le loc)]

theorem contains_iff_tryGet {m : NaturalNumberMap τ} (h : m.Valid) {loc : ℕ} :
    m.contains loc ↔ ∃ tag, m.tryGet loc = some tag := by
  rw [NaturalNumberMap.tryGet]
  constructor
  · intro hin
    have hlt : loc < m.values.length :=
      h.length_eq ▸ lt_of_bit (NaturalNumberMap.contains_iff.mp hin)
    exact ⟨m.values[loc], by rw [if_pos hin, List.getElem?_eq_getElem hlt]⟩
  · rintro ⟨tag, htag⟩
    split_ifs at htag with hin
    exact hin

variable [DecidableEq τ]

open Finset in
theorem Consistent.card (h : s.Consistent pending) :
    s.emptySlots.size + s.live.card + s.deleteSet.card + (s.oldDeleteSet.getD ∅).card +
      pending.length =
      s.maxPoints := by
  have hsum : ∀ S : Finset ℕ, (∀ loc ∈ S, loc < s.maxPoints) →
      ∑ loc ∈ Finset.range s.maxPoints, (if loc ∈ S then 1 else 0) = S.card := by
    intro S hS
    rw [← Finset.card_filter]
    congr 1
    ext loc
    rw [Finset.mem_filter, Finset.mem_range, and_iff_right_of_imp (hS loc)]
  have hlt : ∀ loc, 0 < s.places loc + (if loc ∈ pending then 1 else 0) → loc < s.maxPoints := by
    intro loc hpos
    have := h.place loc
    split_ifs at this hpos <;> omega
  have hone : ∑ loc ∈ Finset.range s.maxPoints,
      (s.places loc + if loc ∈ pending then 1 else 0) = s.maxPoints := by
    rw [Finset.sum_congr rfl fun loc hloc =>
      (h.place loc).trans (if_pos (Finset.mem_range.mp hloc))]
    simp
  have hempty : s.emptySlots.size = s.emptySlots.values.toFinset.card :=
    (List.toFinset_card_of_nodup h.empty.nodup).symm
  have hpending : pending.length = pending.toFinset.card :=
    (List.toFinset_card_of_nodup h.nodup).symm
  have hlive : ∀ loc, (if s.locationToTag.contains loc then 1 else 0) =
      if loc ∈ s.live then 1 else 0 := fun loc => if_congr mem_live.symm rfl rfl
  have hmem : ∀ (l : List ℕ) loc, (if loc ∈ l then 1 else 0) =
      if loc ∈ l.toFinset then 1 else 0 := fun l loc => if_congr List.mem_toFinset.symm rfl rfl
  simp only [places, hlive, hmem, Finset.sum_add_distrib] at hone hlt
  rw [hsum _ fun loc hloc => hlt loc (by rw [if_pos hloc]; omega),
    hsum _ fun loc hloc => hlt loc (by rw [if_pos hloc]; omega),
    hsum _ fun loc hloc => hlt loc (by rw [if_pos hloc]; omega),
    hsum _ fun loc hloc => hlt loc (by rw [if_pos hloc]; omega),
    hsum _ fun loc hloc => hlt loc (by rw [if_pos hloc]; omega)] at hone
  rw [hempty, hpending]
  exact hone

theorem Consistent.nd_eq (h : s.Consistent pending) :
    s.nd = s.live.card + s.deleteSet.card + (s.oldDeleteSet.getD ∅).card + pending.length := by
  have := h.card
  have := h.count
  omega

/-! ### The operations -/

theorem Consistent.pending_spec (h : s.Consistent (location :: pending)) :
    location < s.maxPoints ∧ s.places location = 0 := by
  have := h.place location
  rw [if_pos List.mem_cons_self] at this
  split_ifs at this with hlt
  · exact ⟨hlt, by omega⟩

omit [DecidableEq τ] in
theorem places_eq_zero : s.places location = 0 ↔ location ∉ s.emptySlots.values ∧
    s.locationToTag.contains location = false ∧ location ∉ s.deleteSet ∧
      location ∉ s.oldDeleteSet.getD ∅ := by
  rw [places]
  by_cases h1 : location ∈ s.emptySlots.values <;>
    by_cases h2 : s.locationToTag.contains location <;>
    by_cases h3 : location ∈ s.deleteSet <;>
    by_cases h4 : location ∈ s.oldDeleteSet.getD ∅ <;> simp [h1, h2, h3, h4]

theorem Consistent.release (h : s.Consistent (location :: pending)) :
    ({ s with
      emptySlots := s.emptySlots.insert location
      nd := s.nd - 1 } : Slots τ).Consistent pending := by
  obtain ⟨hlt, hzero⟩ := h.pending_spec
  obtain ⟨hnot, hlive, hdel, hold⟩ := places_eq_zero.mp hzero
  obtain ⟨hfresh, hnd⟩ := List.nodup_cons.mp h.nodup
  refine ⟨h.empty.insert hnot, h.tags, h.inverse, hnd, fun loc => ?_, ?_⟩
  · have hmem : loc ∈ (s.emptySlots.insert location).values ↔
        loc ∈ s.emptySlots.values ∨ loc = location := by
      rw [NaturalNumberSet.insert, List.mem_append, List.mem_singleton]
    have := h.place loc
    rw [places] at this ⊢
    rcases eq_or_ne loc location with rfl | hne
    · simp only [hmem, hlive, hdel, hlt, hfresh, or_true, if_true] at this ⊢
      simp [hold]
    · simp only [hmem, hne, or_false, List.mem_cons, false_or] at this ⊢
      exact this
  · have := h.nd_eq
    have := h.count
    rw [List.length_cons] at *
    simp only [NaturalNumberSet.size, NaturalNumberSet.insert, List.length_append,
      List.length_singleton] at *
    omega

theorem Consistent.releaseLocation (h : s.Consistent (location :: pending)) :
    s.releaseLocation location =
      if location < s.emptySlots.bits.length then .ok { s with
        emptySlots := s.emptySlots.insert location
        nd := s.nd - 1 }
      else .error outOfRange := by
  have hnot := (places_eq_zero.mp h.pending_spec.2).1
  rw [Slots.releaseLocation]
  split_ifs with hlt
  · rw [h.empty.isInSet hlt, decide_eq_false hnot]
  · rw [NaturalNumberSet.isInSet, List.getElem?_eq_none (not_lt.mp hlt)]

omit [DecidableEq τ] in
theorem insert_popped {set : NaturalNumberSet} (h : set.Valid) {rest : List ℕ} {id : ℕ}
    (hval : set.values = rest ++ [id]) :
    NaturalNumberSet.insert ⟨rest, set.bits.set id false⟩ id = set := by
  have hid : id ∈ set.values := by
    rw [hval]
    exact List.mem_append_right _ List.mem_cons_self
  obtain ⟨hlt, hbit⟩ := List.getElem?_eq_some_iff.mp ((h.bit id).mpr hid)
  rw [NaturalNumberSet.insert, cover, if_neg (by rw [List.length_set]; omega), List.set_set, ← hval,
    ← hbit, List.set_getElem_self]

/-- Below its capacity an index has a location to reserve, the last empty one. -/
theorem Consistent.reserveLocation (h : s.Consistent pending) (hnd : s.nd < s.maxPoints) :
    ∃ location rest, s.emptySlots.values = rest ++ [location] ∧
      s.reserveLocation = .ok (some location, { s with
        emptySlots := ⟨rest, s.emptySlots.bits.set location false⟩
        nd := s.nd + 1 }) ∧
      ({ s with
        emptySlots := ⟨rest, s.emptySlots.bits.set location false⟩
        nd := s.nd + 1 } : Slots τ).Consistent (location :: pending) := by
  have hcount := h.count
  have hne : s.emptySlots.values ≠ [] := by
    intro hnil
    rw [NaturalNumberSet.size, hnil, List.length_nil] at hcount
    omega
  obtain ⟨rest, location, hval⟩ := (List.eq_nil_or_concat s.emptySlots.values).resolve_left hne
  rw [List.concat_eq_append] at hval
  have hpop : s.emptySlots.popAny =
      .ok (location, ⟨rest, s.emptySlots.bits.set location false⟩) := by
    rw [NaturalNumberSet.popAny, hval, List.getLast?_concat, List.dropLast_concat]
  have hmem : ∀ loc, loc ∈ s.emptySlots.values ↔ loc ∈ rest ∨ loc = location := fun loc => by
    rw [hval, List.mem_append, List.mem_singleton]
  have hrest : location ∉ rest := by
    have := h.empty.nodup
    rw [hval, List.nodup_append_comm, List.singleton_append] at this
    exact (List.nodup_cons.mp this).1
  have hplace := h.place location
  have hin : location ∈ s.emptySlots.values := (hmem location).mpr (.inr rfl)
  rw [places, if_pos hin] at hplace
  have hdel : location ∉ s.deleteSet := by
    intro hdel
    rw [if_pos hdel] at hplace
    split_ifs at hplace <;> omega
  have hpending : location ∉ pending := by
    intro hpending
    rw [if_pos hpending] at hplace
    split_ifs at hplace <;> omega
  refine ⟨location, rest, hval, ?_, (h.empty.popAny hpop).1, h.tags, h.inverse,
    List.nodup_cons.mpr ⟨hpending, h.nodup⟩, fun loc => ?_, ?_⟩
  · have herase := Finset.erase_eq_of_notMem hdel
    have hnot : ¬(s.dataCompacted ∧ s.emptySlots.isEmpty) := by
      rintro ⟨-, he⟩
      exact hne (List.isEmpty_iff.mp he)
    rw [Slots.reserveLocation, if_neg (by omega), if_neg hnot, hpop]
    dsimp only
    rw [herase]
  · rw [← h.place loc, places, places]
    rcases eq_or_ne loc location with rfl | hloc
    · simp only [hmem, hrest, hpending, List.mem_cons, or_true, true_or, if_true, if_false]
      omega
    · simp only [hmem, hloc, List.mem_cons, or_false, false_or]
  · simp only [NaturalNumberSet.size, hval, List.length_append, List.length_singleton] at hcount ⊢
    omega

theorem Consistent.settle [Inhabited τ] (h : s.Consistent (location :: pending)) {tag : τ}
    (htag : s.tagToLocation.lookup tag = none) :
    ({ s with
      tagToLocation := s.tagToLocation.insert tag location
      locationToTag := s.locationToTag.set location tag } : Slots τ).Consistent pending := by
  obtain ⟨hlt, hzero⟩ := h.pending_spec
  obtain ⟨hempty, hlive, hdel, hold⟩ := places_eq_zero.mp hzero
  obtain ⟨hfresh, hnd⟩ := List.nodup_cons.mp h.nodup
  refine ⟨h.empty, h.tags.set location tag, fun loc t => ?_, hnd, fun loc => ?_, h.count⟩
  · rw [NaturalNumberMap.tryGet_set h.tags]
    have hnone : ∀ t, s.tagToLocation.lookup t ≠ some location := by
      intro t ht
      have := (contains_iff_tryGet h.tags).mpr ⟨t, (h.inverse location t).mpr ht⟩
      rw [hlive] at this
      cases this
    rcases eq_or_ne loc location with rfl | hloc
    · rw [Function.update_self]
      rcases eq_or_ne t tag with rfl | ht
      · simp
      · simp [AList.lookup_insert_ne ht, hnone t, ht.symm]
    · rw [Function.update_of_ne hloc, h.inverse]
      rcases eq_or_ne t tag with rfl | ht
      · simp [htag, hloc.symm]
      · rw [AList.lookup_insert_ne ht]
  · have := h.place loc
    have hc : (s.locationToTag.set location tag).contains loc ↔
        loc = location ∨ s.locationToTag.contains loc :=
      NaturalNumberMap.contains_set _ _ _ _
    rw [places] at this ⊢
    rcases eq_or_ne loc location with rfl | hloc
    · have hold : loc ∉ s.oldDeleteSet.getD ∅ := hold
      simp [hc, hempty, hdel, hold, hfresh, hlt]
    · simp only [hc, hloc, List.mem_cons, false_or] at this ⊢
      exact this

theorem Consistent.delete (h : s.Consistent pending) {tag : τ}
    (htag : s.tagToLocation.lookup tag = some location) :
    ({ s with
      deleteSet := insert location s.deleteSet
      locationToTag := s.locationToTag.erase location
      tagToLocation := s.tagToLocation.erase tag } : Slots τ).Consistent pending := by
  have hlive : s.locationToTag.contains location :=
    (contains_iff_tryGet h.tags).mpr ⟨tag, (h.inverse location tag).mpr htag⟩
  have hdel : location ∉ s.deleteSet := by
    intro hdel
    have := h.place location
    rw [places, if_pos hlive, if_pos hdel] at this
    split_ifs at this <;> omega
  refine ⟨h.empty, h.tags.erase location, fun loc t => ?_, h.nodup, fun loc => ?_, h.count⟩
  · rw [NaturalNumberMap.tryGet_erase]
    rcases eq_or_ne loc location with rfl | hloc
    · rw [Function.update_self]
      rcases eq_or_ne t tag with rfl | ht
      · simp
      · rw [AList.lookup_erase_ne ht, ← h.inverse, (h.inverse loc tag).mpr htag]
        simp [ht.symm]
    · rw [Function.update_of_ne hloc, h.inverse]
      rcases eq_or_ne t tag with rfl | ht
      · simp [htag, hloc.symm]
      · rw [AList.lookup_erase_ne ht]
  · have hc : (s.locationToTag.erase location).contains loc ↔
        loc ≠ location ∧ s.locationToTag.contains loc :=
      NaturalNumberMap.contains_erase _ _ _
    rw [← h.place loc, places, places]
    rcases eq_or_ne loc location with rfl | hloc
    · simp only [hc, hlive, hdel, Finset.mem_insert_self, ne_eq, not_true_eq_false, false_and,
        if_true, if_false]
    · simp only [hc, hloc, Finset.mem_insert, ne_eq, not_false_eq_true, true_and, false_or]

theorem Consistent.deleteTag (h : s.Consistent pending) (tag : τ) :
    (s.deleteTag tag).2.Consistent pending := by
  rw [Slots.deleteTag]
  split
  · exact h
  · rename_i location htag
    exact h.delete htag

theorem Consistent.swap (h : s.Consistent pending) (hold : s.oldDeleteSet = none) :
    ({ s with deleteSet := ∅, oldDeleteSet := some s.deleteSet } : Slots τ).Consistent pending := by
  refine ⟨h.empty, h.tags, h.inverse, h.nodup, fun loc => ?_, h.count⟩
  rw [← h.place loc, places, places, hold]
  simp only [Finset.notMem_empty, if_false, Option.getD_some, Option.getD_none, Nat.add_zero]

/-- At the end of a consolidation the locations of its set are pending. -/
theorem Consistent.ended (h : s.Consistent []) {set : Finset ℕ} (hold : s.oldDeleteSet = some set)
    {order : List ℕ} (hnd : order.Nodup) (horder : order.toFinset = set) :
    ({ s with oldDeleteSet := none } : Slots τ).Consistent order := by
  refine ⟨h.empty, h.tags, h.inverse, hnd, fun loc => ?_, h.count⟩
  have hmem : loc ∈ order ↔ loc ∈ set := by rw [← horder, List.mem_toFinset]
  rw [← h.place loc, places, places, hold]
  simp only [hmem, Finset.notMem_empty, if_false, Option.getD_some, Option.getD_none, Nat.add_zero,
    List.not_mem_nil]

theorem length_insert_bits (set : NaturalNumberSet) (id : ℕ) :
    (set.insert id).bits.length = max set.bits.length (id + 1) := by
  rw [NaturalNumberSet.insert, List.length_set, length_cover]

theorem Consistent.releaseAll (h : s.Consistent pending) (hcov : s.Covered) :
    ∃ s', Slots.releaseAll pending s = .ok s' ∧ s'.Consistent [] ∧ s'.Covered ∧
      s' = { s with emptySlots := s'.emptySlots, nd := s'.nd } ∧
      s'.emptySlots.values = s.emptySlots.values ++ pending := by
  induction pending generalizing s with
  | nil => exact ⟨s, rfl, h, hcov, rfl, (List.append_nil _).symm⟩
  | cons location pending ih =>
    have hlt := h.pending_spec.1
    have hcov' : ({ s with
        emptySlots := s.emptySlots.insert location
        nd := s.nd - 1 } : Slots τ).Covered := by
      have : s.maxPoints ≤ s.emptySlots.bits.length := hcov
      rw [Covered]
      dsimp only
      rw [length_insert_bits]
      omega
    obtain ⟨s', hrun, hcons, hcovered, heq, hval⟩ := ih h.release hcov'
    refine ⟨s', ?_, hcons, hcovered, heq, ?_⟩
    · rw [Slots.releaseAll, h.releaseLocation, if_pos (hlt.trans_le hcov)]
      exact hrun
    · rw [hval]
      simp only [NaturalNumberSet.insert, List.append_assoc, List.singleton_append]

/-- With a bit for every location a consolidation ends well. -/
theorem Consistent.releaseLocations (h : s.Consistent pending) (hcov : s.Covered) :
    ∃ s', Slots.releaseLocations pending s = .ok s' ∧ s'.Consistent [] ∧ s'.Covered ∧
      s' = { s with emptySlots := s'.emptySlots, nd := s'.nd } ∧
      s'.emptySlots.values = s.emptySlots.values ++ pending := by
  obtain ⟨s', hrun, hcons, hrest⟩ := h.releaseAll hcov
  refine ⟨s', ?_, hcons, hrest⟩
  rw [Slots.releaseLocations, hrun]
  exact if_neg (not_not.mpr hcons.count)

/-- Without any bits it fails at the first location. -/
theorem Consistent.releaseLocations_nil (h : s.Consistent pending) (hbits : s.emptySlots.bits = [])
    (hne : pending ≠ []) : Slots.releaseLocations pending s = .error outOfRange := by
  cases pending with
  | nil => exact absurd rfl hne
  | cons location pending =>
    rw [Slots.releaseLocations, Slots.releaseAll, h.releaseLocation, if_neg (by simp [hbits])]

/-! ### Compaction -/

omit [DecidableEq τ] in
theorem foldl_update_eq_some {ε κ ν : Type*} [DecidableEq κ] (key : ε → κ) (val : ε → ν) {k : κ}
    {v : ν} :
    ∀ (l : List ε) (f : κ → Option ν), (l.map key).Nodup →
      (l.foldl (fun f e => Function.update f (key e) (some (val e))) f k = some v ↔
        (∃ e ∈ l, key e = k ∧ val e = v) ∨ k ∉ l.map key ∧ f k = some v) := by
  intro l
  induction l with
  | nil => simp
  | cons e l ih =>
    intro f hnd
    rw [List.map_cons] at hnd
    obtain ⟨hfresh, hnd⟩ := List.nodup_cons.mp hnd
    rw [List.foldl_cons, ih _ hnd]
    rcases eq_or_ne k (key e) with rfl | hk
    · rw [Function.update_self]
      simp only [List.mem_cons, List.map_cons, not_true_eq_false, false_and, or_false,
        exists_eq_or_imp, true_and, hfresh, not_false_eq_true, Option.some.injEq]
      exact or_comm
    · rw [Function.update_of_ne hk]
      simp only [List.mem_cons, List.map_cons, exists_eq_or_imp, hk.symm, false_and, false_or, hk]

omit [DecidableEq τ] in
/-- The new locations are those of a count. -/
theorem newLocation_eq (s : Slots τ) (loc : ℕ) :
    s.newLocation loc = Nat.count (fun l => s.locationToTag.contains l) loc := by
  rw [newLocation, Nat.count, List.countP_eq_length_filter]
  simp

omit [DecidableEq τ] in
theorem newLocation_strictMono {a b : ℕ} (ha : s.locationToTag.contains a) (hab : a < b) :
    s.newLocation a < s.newLocation b := by
  rw [newLocation_eq, newLocation_eq]
  exact Nat.count_strict_mono ha hab

omit [DecidableEq τ] in
theorem newLocation_inj {a b : ℕ} (ha : s.locationToTag.contains a)
    (hb : s.locationToTag.contains b)
    (h : s.newLocation a = s.newLocation b) : a = b := by
  rcases lt_trichotomy a b with hab | hab | hab
  · exact absurd h (newLocation_strictMono ha hab).ne
  · exact hab
  · exact absurd h (newLocation_strictMono hb hab).ne'

theorem Consistent.lt_of_live (h : s.Consistent pending) {loc : ℕ}
    (hloc : s.locationToTag.contains loc) : loc < s.maxPoints := by
  by_contra hge
  have := h.place loc
  rw [places, if_pos hloc, if_neg hge] at this
  omega

/-- The tagged locations move to the front, without gaps. -/
theorem Consistent.image_newLocation (h : s.Consistent []) (hdel : s.deleteSet = ∅)
    (hold : s.oldDeleteSet = none) : s.live.image s.newLocation = Finset.range s.nd := by
  have hcard : s.live.card = s.nd := by
    have := h.nd_eq
    rw [hdel, hold] at this
    simpa using this.symm
  have hall : s.newLocation s.maxPoints = s.live.card := by
    rw [newLocation, ← List.toFinset_card_of_nodup (List.nodup_range.filter _)]
    congr 1
    ext loc
    rw [List.mem_toFinset, List.mem_filter, List.mem_range, mem_live,
      and_iff_right_of_imp h.lt_of_live]
  have hinj : Set.InjOn s.newLocation s.live := fun a ha b hb hab =>
    newLocation_inj (mem_live.mp ha) (mem_live.mp hb) hab
  refine Finset.eq_of_subset_of_card_le (fun v hv => ?_) ?_
  · obtain ⟨loc, hloc, rfl⟩ := Finset.mem_image.mp hv
    have hlive := mem_live.mp hloc
    have := newLocation_strictMono hlive (h.lt_of_live hlive)
    rw [Finset.mem_range]
    omega
  · rw [Finset.card_image_of_injOn hinj, Finset.card_range, hcard]

theorem lookup_foldl_insert {ε : Type*} (tag : ε → τ) (loc : ε → ℕ) (l : List ε)
    (m : AList fun _ : τ => ℕ) :
    (fun t => (l.foldl (fun m e => m.insert (tag e) (loc e)) m).lookup t) =
      l.foldl (fun f e => Function.update f (tag e) (some (loc e))) fun t => m.lookup t := by
  refine (List.foldl_hom (fun (m : AList fun _ : τ => ℕ) t => m.lookup t) fun m e => ?_).symm
  funext t
  rcases eq_or_ne t (tag e) with rfl | ht
  · simp
  · rw [Function.update_of_ne ht, AList.lookup_insert_ne ht]

omit [DecidableEq τ] in
theorem tryGet_foldl_set [Inhabited τ] {ε : Type*} (loc : ε → ℕ) (tag : ε → τ) (l : List ε)
    (m : NaturalNumberMap τ) (h : m.Valid) :
    (l.foldl (fun m e => m.set (loc e) (tag e)) m).Valid ∧
      (l.foldl (fun m e => m.set (loc e) (tag e)) m).tryGet =
        l.foldl (fun f e => Function.update f (loc e) (some (tag e))) m.tryGet := by
  induction l generalizing m with
  | nil => exact ⟨h, rfl⟩
  | cons e l ih =>
    rw [List.foldl_cons, List.foldl_cons, ← NaturalNumberMap.tryGet_set h]
    exact ih _ (h.set _ _)

theorem insertRange_spec {set : NaturalNumberSet} (h : set.Valid) (lo n : ℕ)
    (hfresh : ∀ k ∈ List.range' lo n, k ∉ set.values) :
    ((List.range' lo n).foldl NaturalNumberSet.insert set).Valid ∧
      ((List.range' lo n).foldl NaturalNumberSet.insert set).values =
        set.values ++ List.range' lo n ∧
      (0 < n → lo + n ≤ ((List.range' lo n).foldl NaturalNumberSet.insert set).bits.length) := by
  induction n generalizing lo set with
  | zero => exact ⟨h, (List.append_nil _).symm, fun h => absurd h (lt_irrefl 0)⟩
  | succ n ih =>
    rw [List.range'_succ, List.foldl_cons]
    rw [List.range'_succ] at hfresh
    have hval : (set.insert lo).values = set.values ++ [lo] := rfl
    obtain ⟨hvalid, hvalues, hlen⟩ := ih (h.insert (hfresh lo List.mem_cons_self)) (lo + 1)
      fun k hk => by
        rw [hval, List.mem_append, List.mem_singleton, not_or]
        refine ⟨hfresh k (List.mem_cons_of_mem _ hk), ?_⟩
        have := (List.mem_range'_1.mp hk).1
        omega
    refine ⟨hvalid, by rw [hvalues, hval, List.append_assoc, List.singleton_append], fun _ => ?_⟩
    rcases Nat.eq_zero_or_pos n with rfl | hpos
    · rw [List.range'_zero, List.foldl_nil, length_insert_bits]
      omega
    · have := hlen hpos
      omega

theorem Consistent.eq_of_lookup (h : s.Consistent pending) {t t' : τ} {loc : ℕ}
    (ht : s.tagToLocation.lookup t = some loc) (ht' : s.tagToLocation.lookup t' = some loc) :
    t = t' :=
  Option.some.inj (((h.inverse loc t).mpr ht).symm.trans ((h.inverse loc t').mpr ht'))

theorem Consistent.contains_of_lookup (h : s.Consistent pending) {t : τ} {loc : ℕ}
    (ht : s.tagToLocation.lookup t = some loc) : s.locationToTag.contains loc :=
  (contains_iff_tryGet h.tags).mpr ⟨t, (h.inverse loc t).mpr ht⟩

theorem Consistent.lookup_compactTags [Inhabited τ] (h : s.Consistent pending) (t : τ) :
    s.compactTags.lookup t = (s.tagToLocation.lookup t).map s.newLocation := by
  have hmem : ∀ e : ℕ × τ, e ∈ s.locationToTag.enumerate ↔
      s.tagToLocation.lookup e.2 = some e.1 := fun e =>
    h.tags.mem_enumerate.trans (h.inverse e.1 e.2)
  have hnd : s.locationToTag.enumerate.Nodup := by
    refine List.Nodup.of_map Prod.fst ?_
    rw [h.tags.enumerate_eq, List.map_map]
    exact (List.map_id _).symm ▸ (s.locationToTag.keysFrom_sorted 0).imp ne_of_lt
  have hkeys : (s.locationToTag.enumerate.map Prod.snd).Nodup := by
    refine hnd.map_on fun a ha b hb hab => Prod.ext ?_ hab
    have := (hmem a).mp ha
    rw [hab, (hmem b).mp hb] at this
    exact (Option.some.inj this).symm
  have hfold := congrFun (lookup_foldl_insert Prod.snd (fun e => s.newLocation e.1)
    s.locationToTag.enumerate ∅) t
  refine Option.ext fun v => ?_
  rw [Option.map_eq_some_iff, compactTags, hfold, foldl_update_eq_some _ _ _ _ hkeys,
    AList.lookup_empty]
  constructor
  · rintro (⟨e, he, rfl, rfl⟩ | ⟨-, hnone⟩)
    · exact ⟨e.1, (hmem e).mp he, rfl⟩
    · cases hnone
  · rintro ⟨loc, hloc, rfl⟩
    exact .inl ⟨(loc, t), (hmem (loc, t)).mpr hloc, rfl, rfl⟩

theorem Consistent.compactTags_inj [Inhabited τ] (h : s.Consistent pending) {t t' : τ} {v : ℕ}
    (ht : s.compactTags.lookup t = some v) (ht' : s.compactTags.lookup t' = some v) : t = t' := by
  rw [h.lookup_compactTags, Option.map_eq_some_iff] at ht ht'
  obtain ⟨loc, hloc, rfl⟩ := ht
  obtain ⟨loc', hloc', heq⟩ := ht'
  obtain rfl := newLocation_inj (h.contains_of_lookup hloc') (h.contains_of_lookup hloc) heq
  exact h.eq_of_lookup hloc hloc'

/-- The new tables are inverse to each other as well. -/
theorem Consistent.compactLocations [Inhabited τ] (h : s.Consistent pending) :
    s.compactLocations.Valid ∧ ∀ loc t, s.compactLocations.tryGet loc = some t ↔
      s.compactTags.lookup t = some loc := by
  have hentry : ∀ e : (_ : τ) × ℕ, e ∈ s.compactTags.entries ↔
      s.compactTags.lookup e.1 = some e.2 := fun e => AList.mem_lookup_iff.symm
  have hvals : (s.compactTags.entries.map Sigma.snd).Nodup := by
    refine s.compactTags.nodupKeys.nodup.map_on fun a ha b hb hab => ?_
    have hfst : a.1 = b.1 := h.compactTags_inj ((hentry a).mp ha) (hab ▸ (hentry b).mp hb)
    exact Sigma.ext hfst (heq_of_eq hab)
  obtain ⟨hvalid, hget⟩ := tryGet_foldl_set (fun e : (_ : τ) × ℕ => e.2) (fun e => e.1)
    s.compactTags.entries s.locationToTag.clear NaturalNumberMap.Valid.empty
  refine ⟨hvalid, fun loc t => ?_⟩
  rw [Slots.compactLocations, hget, foldl_update_eq_some _ _ _ _ hvals]
  constructor
  · rintro (⟨e, he, rfl, rfl⟩ | ⟨-, hnone⟩)
    · exact (hentry e).mp he
    · cases hnone
  · intro ht
    exact .inl ⟨⟨t, loc⟩, (hentry _).mpr ht, rfl, rfl⟩

/-- The tagged locations are then those below `nd`. -/
theorem Consistent.contains_compactLocations [Inhabited τ] (h : s.Consistent [])
    (hdel : s.deleteSet = ∅) (hold : s.oldDeleteSet = none) (v : ℕ) :
    s.compactLocations.contains v ↔ v < s.nd := by
  obtain ⟨hvalid, hinverse⟩ := h.compactLocations
  rw [← Finset.mem_range, ← h.image_newLocation hdel hold, Finset.mem_image,
    contains_iff_tryGet hvalid]
  simp only [hinverse, h.lookup_compactTags, Option.map_eq_some_iff]
  constructor
  · rintro ⟨t, loc, hloc, rfl⟩
    exact ⟨loc, mem_live.mpr (h.contains_of_lookup hloc), rfl⟩
  · rintro ⟨loc, hloc, rfl⟩
    obtain ⟨t, ht⟩ := (contains_iff_tryGet h.tags).mp (mem_live.mp hloc)
    exact ⟨t, loc, (h.inverse loc t).mp ht, rfl⟩

/-- The state of the bits: one for every location, or none in a full index. -/
def HasBits (s : Slots τ) : Prop := s.Covered ∨ s.emptySlots.bits = [] ∧ s.nd = s.maxPoints

/-- The tagged locations are the first ones, and the others are empty. -/
theorem consistent_of_front (hvalid : s.locationToTag.Valid)
    (hinverse : ∀ loc tag, s.locationToTag.tryGet loc = some tag ↔
      s.tagToLocation.lookup tag = some loc)
    (hfront : ∀ loc, s.locationToTag.contains loc ↔ loc < s.nd) (hdel : s.deleteSet = ∅)
    (hold : s.oldDeleteSet = none) (hle : s.nd ≤ s.maxPoints)
    (hempty : s.emptySlots = insertRange .empty s.nd s.maxPoints) :
    s.Consistent [] ∧ s.HasBits := by
  obtain ⟨hset, hvalues, hbits⟩ := insertRange_spec NaturalNumberSet.Valid.empty s.nd
    (s.maxPoints - s.nd) fun k _ hk => absurd hk List.not_mem_nil
  rw [← insertRange, ← hempty] at hset hvalues hbits
  rw [NaturalNumberSet.empty, List.nil_append] at hvalues
  refine ⟨⟨hset, hvalid, hinverse, List.nodup_nil, fun loc => ?_, ?_⟩, ?_⟩
  · have hin : loc ∈ s.emptySlots.values ↔ s.nd ≤ loc ∧ loc < s.maxPoints := by
      rw [hvalues, List.mem_range'_1]
      omega
    have hnone : loc ∉ (none : Option (Finset ℕ)).getD ∅ := Finset.notMem_empty loc
    rw [places, hdel, hold]
    simp only [hin, hfront, hnone, Finset.notMem_empty, List.not_mem_nil, if_false]
    split_ifs <;> omega
  · rw [NaturalNumberSet.size, hvalues, List.length_range']
    omega
  · rcases hle.lt_or_eq with hlt | heq
    · have := hbits (Nat.sub_pos_of_lt hlt)
      refine .inl ?_
      rw [Covered]
      omega
    · refine .inr ⟨?_, heq⟩
      rw [hempty, heq, insertRange, Nat.sub_self]
      rfl

/-- An index without deleted locations can be compacted. -/
theorem Consistent.compacted [Inhabited τ] (h : s.Consistent [])
    (hdel : s.deleteSet = ∅) (hold : s.oldDeleteSet = none) :
    s.compacted.Consistent [] ∧ s.compacted.HasBits := by
  have hle : s.nd ≤ s.maxPoints := by
    have := h.count
    omega
  exact consistent_of_front h.compactLocations.1 h.compactLocations.2
    (h.contains_compactLocations hdel hold) hdel hold hle rfl

/-! ### Runs -/

/-- A critical section. A compaction holds the lock of the consolidations. -/
inductive Step [Zero τ] [Inhabited τ] : Slots τ → Slots τ → Prop where
  | insert {s s' : Slots τ} {tag : τ} {r : Option ℕ} :
    s.insertPoint tag = .ok (r, s') → Step s s'
  | delete (s : Slots τ) (tag : τ) : Step s (s.lazyDelete tag).2
  | deletes (s : Slots τ) (tags : List τ) : Step s (s.lazyDeletes tags).2
  | swap {s s' : Slots τ} : s.consolidateSwap = some s' → Step s s'
  | release {s s' : Slots τ} {set : Finset ℕ} {order : List ℕ} : s.oldDeleteSet = some set →
    order.Nodup → order.toFinset = set → s.consolidateRelease order = .ok s' → Step s s'
  | compact {s s' : Slots τ} : s.oldDeleteSet = none → s.compactData = .ok s' → Step s s'

/-- What holds between critical sections. -/
structure Inv (s : Slots τ) : Prop where
  pos : 0 < s.maxPoints
  consistent : s.Consistent []
  bits : s.HasBits

/-- A tag that is new to an index with room gets an empty location; an insert that fails changes
nothing. -/
theorem Inv.insertPoint [Zero τ] [Inhabited τ] (h : s.Inv) {tag : τ} (htag : tag ≠ 0) :
    ∃ r s', s.insertPoint tag = .ok (r, s') ∧ s'.Inv ∧
      (r = none ↔ s.nd = s.maxPoints ∨ (s.tagToLocation.lookup tag).isSome) ∧
      (r = none → s' = s) ∧
      ∀ loc, r = some loc → loc ∈ s.emptySlots.values ∧
        s'.tagToLocation = s.tagToLocation.insert tag loc := by
  have hcount := h.consistent.count
  rw [Slots.insertPoint, if_neg htag]
  by_cases hnd : s.nd < s.maxPoints
  · obtain ⟨loc, rest, hval, hres, hcons⟩ := h.consistent.reserveLocation hnd
    have hcov : s.Covered := h.bits.resolve_right fun hfull => absurd hfull.2 hnd.ne
    rw [hres]
    dsimp only
    by_cases htaken : (s.tagToLocation.lookup tag).isSome
    · have hlt : loc < s.emptySlots.bits.length :=
        hcons.pending_spec.1.trans_le hcov
      have hnd' : s.nd + 1 - 1 = s.nd := Nat.add_sub_cancel _ _
      rw [if_pos htaken, hcons.releaseLocation]
      dsimp only
      rw [List.length_set, if_pos hlt, insert_popped h.consistent.empty hval, hnd']
      exact ⟨none, s, rfl, h, by simp [htaken], fun _ => rfl, by simp⟩
    · have hnone : s.tagToLocation.lookup tag = none := Option.not_isSome_iff_eq_none.mp htaken
      rw [if_neg htaken]
      refine ⟨some loc, _, rfl, ⟨h.pos, hcons.settle hnone, ?_⟩, by simp [htaken, hnd.ne], by simp,
        ?_⟩
      · refine .inl ?_
        have : s.maxPoints ≤ s.emptySlots.bits.length := hcov
        rw [Covered]
        dsimp only
        rwa [List.length_set]
      · rintro _ ⟨⟩
        refine ⟨?_, rfl⟩
        rw [hval]
        exact List.mem_append_right _ List.mem_cons_self
  · rw [Slots.reserveLocation, if_pos (not_lt.mp hnd)]
    have hfull : s.nd = s.maxPoints := by omega
    exact ⟨none, s, rfl, h, by simp [hfull], fun _ => rfl, by simp⟩

theorem deleteTag_frame (s : Slots τ) (tag : τ) : (s.deleteTag tag).2.maxPoints = s.maxPoints ∧
    (s.deleteTag tag).2.nd = s.nd ∧ (s.deleteTag tag).2.emptySlots = s.emptySlots := by
  rw [Slots.deleteTag]
  split <;> exact ⟨rfl, rfl, rfl⟩

theorem Inv.deleteTag (h : s.Inv) (tag : τ) : (s.deleteTag tag).2.Inv := by
  obtain ⟨hmax, hnd, hempty⟩ := s.deleteTag_frame tag
  refine ⟨hmax ▸ h.pos, h.consistent.deleteTag tag, ?_⟩
  rw [HasBits, Covered, hmax, hnd, hempty]
  exact h.bits

/-- The flag does not matter. -/
theorem Inv.dirty (h : s.Inv) : ({ s with dataCompacted := false } : Slots τ).Inv :=
  ⟨h.pos, ⟨h.consistent.empty, h.consistent.tags, h.consistent.inverse, h.consistent.nodup,
    h.consistent.place, h.consistent.count⟩, h.bits⟩

theorem Inv.lazyDeletes (h : s.Inv) (tags : List τ) : (s.lazyDeletes tags).2.Inv := by
  have hfold : ∀ (tags : List τ) (r : List τ × Slots τ), r.2.Inv → (tags.foldl (fun r tag =>
      let r' := r.2.deleteTag tag
      (if r'.1 then r.1 else r.1 ++ [tag], r'.2)) r).2.Inv := by
    intro tags
    induction tags with
    | nil => exact fun r hr => hr
    | cons tag tags ih => exact fun r hr => ih _ (hr.deleteTag tag)
  exact hfold tags _ h.dirty

/-- A consolidation ends well, unless there is something to release and the set of the empty
locations has lost its bits. -/
theorem Inv.consolidateRelease (h : s.Inv) {set : Finset ℕ} {order : List ℕ}
    (hold : s.oldDeleteSet = some set) (hnd : order.Nodup) (horder : order.toFinset = set) :
    if s.emptySlots.bits = [] ∧ set ≠ ∅ then s.consolidateRelease order = .error outOfRange
    else ∃ s', s.consolidateRelease order = .ok s' ∧ s'.Inv ∧ s'.oldDeleteSet = none ∧
      s'.emptySlots.values = s.emptySlots.values ++ order ∧ s'.tagToLocation = s.tagToLocation := by
  have hcons := h.consistent.ended hold hnd horder
  have hempty : order = [] ↔ set = ∅ := by rw [← horder, List.toFinset_eq_empty_iff]
  by_cases hfail : s.emptySlots.bits = [] ∧ set ≠ ∅
  · rw [if_pos hfail]
    exact hcons.releaseLocations_nil hfail.1 (hempty.not.mpr hfail.2)
  · rw [if_neg hfail]
    rcases h.bits with hcov | ⟨hbits, hfull⟩
    · obtain ⟨s', hrun, hcons', hcov', heq, hval⟩ := hcons.releaseLocations hcov
      refine ⟨s', hrun, ⟨?_, hcons', .inl hcov'⟩, ?_, hval, ?_⟩
      · rw [heq]
        exact h.pos
      · rw [heq]
      · rw [heq]
    · obtain rfl := hempty.mpr (not_not.mp fun hne => hfail ⟨hbits, hne⟩)
      have hcount : s.emptySlots.size + s.nd = s.maxPoints := h.consistent.count
      refine ⟨{ s with oldDeleteSet := none }, ?_, ⟨h.pos, hcons, .inr ⟨hbits, hfull⟩⟩, rfl,
        (List.append_nil _).symm, rfl⟩
      rw [Slots.consolidateRelease, Slots.releaseLocations, Slots.releaseAll]
      exact if_neg (not_not.mpr hcount)

theorem Inv.step [Zero τ] [Inhabited τ] (h : s.Inv) (hs : Step s s') : s'.Inv := by
  cases hs with
  | @insert _ tag r hrun =>
    have htag : tag ≠ 0 := by
      rintro rfl
      rw [Slots.insertPoint, if_pos rfl] at hrun
      cases hrun
    obtain ⟨r', s'', hrun', hinv, -⟩ := h.insertPoint htag
    rw [hrun] at hrun'
    cases hrun'
    exact hinv
  | delete tag => exact h.dirty.deleteTag tag
  | deletes tags => exact h.lazyDeletes tags
  | swap hrun =>
    rw [consolidateSwap] at hrun
    split at hrun
    · rename_i hold
      cases hrun
      exact ⟨h.pos, h.consistent.swap hold, h.bits⟩
    · cases hrun
  | release hold hnd horder hrun =>
    have := h.consolidateRelease hold hnd horder
    split_ifs at this with hfail
    · rw [hrun] at this
      cases this
    · obtain ⟨s'', hrun', hinv, -⟩ := this
      rw [hrun] at hrun'
      cases hrun'
      exact hinv
  | compact hold hrun =>
    rw [Slots.compactData] at hrun
    split_ifs at hrun with hdone hdel
    · cases hrun
      exact h
    · cases hrun
      obtain ⟨hcons, hbits⟩ := h.consistent.compacted (not_not.mp hdel) hold
      exact ⟨h.pos, hcons, hbits⟩

theorem construct_inv (maxPoints : ℕ) : (construct maxPoints : Slots τ).Inv := by
  have hpos : 0 < max maxPoints 1 := by omega
  obtain ⟨hempty, hvalues, hbits⟩ := insertRange_spec NaturalNumberSet.Valid.empty 0
    (max maxPoints 1) fun k _ hk => absurd hk List.not_mem_nil
  have hval : (construct maxPoints : Slots τ).emptySlots.values = List.range' 0 (max maxPoints 1) :=
    hvalues
  refine ⟨hpos, ⟨hempty, NaturalNumberMap.Valid.empty, fun loc tag => ?_, List.nodup_nil,
    fun loc => ?_, ?_⟩, .inl ?_⟩
  · simp [construct, NaturalNumberMap.tryGet, NaturalNumberMap.contains, NaturalNumberMap.empty]
  · have hin : loc ∈ (construct maxPoints : Slots τ).emptySlots.values ↔ loc < max maxPoints 1 := by
      rw [hval, List.mem_range'_1]
      omega
    rw [places, if_congr hin rfl rfl]
    simp [construct, NaturalNumberMap.contains, NaturalNumberMap.empty]
  · rw [NaturalNumberSet.size, hval, List.length_range']
    rfl
  · have := hbits hpos
    rw [Nat.zero_add] at this
    exact this

theorem run_inv [Zero τ] [Inhabited τ] {maxPoints : ℕ}
    (h : Relation.ReflTransGen Step (construct maxPoints) s) : s.Inv := by
  induction h with
  | refl => exact construct_inv maxPoints
  | tail _ hs ih => exact ih.step hs

/-- Between consolidations the checks of the next one pass. -/
theorem Consistent.consolidateCheck (h : s.Consistent []) (hold : s.oldDeleteSet = none) :
    s.consolidateCheck = .ok true := by
  have hnd := h.nd_eq
  rw [hold] at hnd
  have hsize : s.locationToTag.size = s.live.card := by
    rw [h.tags.size_eq]
    exact s.locationToTag.length_keysFrom_zero fun k => mem_live
  have hentry : ∀ e : (_ : τ) × ℕ, e ∈ s.tagToLocation.entries ↔
      s.tagToLocation.lookup e.1 = some e.2 := fun e => AList.mem_lookup_iff.symm
  have hvals : (s.tagToLocation.entries.map Sigma.snd).Nodup := by
    refine s.tagToLocation.nodupKeys.nodup.map_on fun a ha b hb hab => ?_
    have hfst : a.1 = b.1 := h.eq_of_lookup ((hentry a).mp ha) (hab ▸ (hentry b).mp hb)
    exact Sigma.ext hfst (heq_of_eq hab)
  have hlen : s.tagToLocation.entries.length = s.live.card := by
    rw [← List.length_map (f := Sigma.snd), ← List.toFinset_card_of_nodup hvals]
    congr 1
    ext loc
    rw [List.mem_toFinset, List.mem_map, mem_live, contains_iff_tryGet h.tags]
    constructor
    · rintro ⟨e, he, rfl⟩
      exact ⟨e.1, (h.inverse _ _).mpr ((hentry e).mp he)⟩
    · rintro ⟨tag, htag⟩
      exact ⟨⟨tag, loc⟩, (hentry _).mpr ((h.inverse _ _).mp htag), rfl⟩
  rw [Option.getD_none, Finset.card_empty, List.length_nil] at hnd
  rw [Slots.consolidateCheck, if_neg (not_not.mpr h.count), if_neg (by omega), if_neg (by omega)]

/-- What a consolidation under way finds: the locations it has to process are the live ones and
those deleted since it began. -/
theorem Inv.isProcessed (h : s.Inv) {set : Finset ℕ} (hold : s.oldDeleteSet = some set) {loc : ℕ}
    (hloc : loc < s.maxPoints) (hcov : s.Covered) :
    s.isProcessed set loc = some (decide (loc ∈ s.live ∨ loc ∈ s.deleteSet)) := by
  have hplace := h.consistent.place loc
  have hlive : (if s.locationToTag.contains loc then 1 else 0) =
      if loc ∈ s.live then 1 else 0 := if_congr mem_live.symm rfl rfl
  rw [places, hlive, hold, Option.getD_some, if_pos hloc] at hplace
  rw [Slots.isProcessed, h.consistent.empty.isInSet (hloc.trans_le hcov)]
  by_cases hset : loc ∈ set <;> by_cases hempty : loc ∈ s.emptySlots.values <;>
    by_cases hl : loc ∈ s.live <;> by_cases hd : loc ∈ s.deleteSet <;>
    simp [hset, hempty, hl, hd] at hplace ⊢

/-- A full index with one point is compacted, and its point deleted. -/
def fullDeleted : Slots ℕ where
  maxPoints := 1
  nd := 1
  dataCompacted := false
  emptySlots := .empty
  deleteSet := ∅
  oldDeleteSet := some {0}
  locationToTag := ⟨0, [7], [false]⟩
  tagToLocation := ∅

theorem fullDeleted_reachable : Relation.ReflTransGen Step (construct 1) fullDeleted := by
  have hinsert : Step (construct 1 : Slots ℕ) _ := @Step.insert _ _ _ _ _ _ 7 (some 0) rfl
  have hdirty := (Relation.ReflTransGen.single hinsert).tail (.delete _ 9)
  have hcompact := hdirty.tail (.compact rfl rfl)
  exact (hcompact.tail (.delete _ 7)).tail (.swap rfl)

end Slots

end HiDANN.Memory
