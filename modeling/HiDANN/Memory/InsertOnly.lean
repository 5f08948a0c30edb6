import HiDANN.Memory.SaveLoad

/-! Inserts into a dynamic index from which nothing has been deleted. They take the locations from
the last one downwards and leave the index marked as compacted, so that `save` does not move
anything and writes the wrong locations. -/

namespace HiDANN.Memory

namespace Slots

variable {τ : Type*} [DecidableEq τ] [Zero τ] [Inhabited τ]

/-- An insert, which may have failed. -/
def Inserts (s s' : Slots τ) : Prop := ∃ tag r, s.insertPoint tag = .ok (r, s')

structure Filled (maxPoints : ℕ) (s : Slots τ) : Prop where
  inv : s.Inv
  maxPoints_eq : s.maxPoints = maxPoints
  compacted : s.dataCompacted = true
  deleted : s.deleteSet = ∅
  idle : s.oldDeleteSet = none
  empty : s.emptySlots.values = List.range (s.maxPoints - s.nd)
  tags : ∀ loc, s.locationToTag.tryGet loc ≠ some 0

variable {maxPoints : ℕ} {s s' : Slots τ}

omit [Inhabited τ] in
theorem construct_filled (maxPoints : ℕ) :
    Filled (max maxPoints 1) (construct maxPoints : Slots τ) where
  inv := construct_inv maxPoints
  maxPoints_eq := rfl
  compacted := rfl
  deleted := rfl
  idle := rfl
  empty := by
    obtain ⟨-, hvalues, -⟩ := insertRange_spec NaturalNumberSet.Valid.empty 0 (max maxPoints 1)
      fun k _ hk => absurd hk List.not_mem_nil
    exact hvalues.trans List.range_eq_range'.symm
  tags loc htag := by
    have hnone : (NaturalNumberMap.empty : NaturalNumberMap τ).contains loc = false := by
      simp [NaturalNumberMap.contains, NaturalNumberMap.empty]
    rw [construct, NaturalNumberMap.tryGet, hnone] at htag
    cases htag

theorem Filled.insert (h : Filled maxPoints s) (hs : Inserts s s') : Filled maxPoints s' := by
  obtain ⟨tag, r, hrun⟩ := hs
  have hinv := h.inv.step (.insert hrun)
  have htag : tag ≠ 0 := by
    rintro rfl
    rw [Slots.insertPoint, if_pos rfl] at hrun
    cases hrun
  obtain ⟨r', s'', hrun', -, hnone, hsame, -⟩ := h.inv.insertPoint htag
  obtain ⟨rfl, rfl⟩ := Prod.mk.inj (Except.ok.inj (hrun'.symm.trans hrun))
  by_cases hr : r' = none
  · rw [hsame hr]
    exact h
  · obtain ⟨hroom, htaken⟩ := not_or.mp (hnone.not.mp hr)
    have hcount := h.inv.consistent.count
    obtain ⟨loc, rest, hval, hres, -⟩ := h.inv.consistent.reserveLocation (by omega)
    rw [Slots.insertPoint, if_neg htag, hres] at hrun
    dsimp only at hrun
    rw [if_neg htaken] at hrun
    cases hrun
    have hempty := h.empty
    have hlast : s.maxPoints - s.nd = s.maxPoints - (s.nd + 1) + 1 := by omega
    rw [hval, hlast, List.range_succ] at hempty
    refine ⟨hinv, h.maxPoints_eq, h.compacted, h.deleted, h.idle, (List.append_inj' hempty rfl).1,
      fun k hk => ?_⟩
    dsimp only at hk
    rw [NaturalNumberMap.tryGet_set h.inv.consistent.tags] at hk
    rcases eq_or_ne k loc with rfl | hne
    · rw [Function.update_self] at hk
      exact htag (Option.some.inj hk)
    · rw [Function.update_of_ne hne] at hk
      exact h.tags k hk

theorem filled_run (h : Relation.ReflTransGen Inserts (construct maxPoints) s) :
    Filled (max maxPoints 1) s := by
  induction h with
  | refl => exact construct_filled maxPoints
  | tail _ hs ih => exact ih.insert hs

omit [Inhabited τ] in
theorem Filled.contains_iff (h : Filled maxPoints s) (loc : ℕ) :
    s.locationToTag.contains loc ↔ maxPoints - s.nd ≤ loc ∧ loc < maxPoints := by
  have hplace := h.inv.consistent.place loc
  rw [places, h.deleted, h.idle, h.empty, h.maxPoints_eq] at hplace
  simp only [List.mem_range, Finset.notMem_empty, Option.getD_none, List.not_mem_nil, if_false]
    at hplace
  by_cases hlive : s.locationToTag.contains loc
  · rw [if_pos hlive] at hplace
    split_ifs at hplace <;> simp only [hlive, true_iff] <;> omega
  · rw [if_neg hlive] at hplace
    split_ifs at hplace <;> simp only [hlive, Bool.false_eq_true, false_iff] <;> omega

end Slots

namespace DynamicIndex

section Frozen

variable {τ V : Type*} [Zero V]

theorem compactFrozenPoint_frame (I : DynamicIndex τ V) :
    I.compactFrozenPoint.slots = I.slots ∧ I.compactFrozenPoint.numFrozenPts = I.numFrozenPts := by
  rw [compactFrozenPoint]
  split_ifs <;> exact ⟨rfl, rfl⟩

variable {I : DynamicIndex τ V}

theorem compactFrozenPoint_start (hnd : I.slots.nd ≤ I.slots.maxPoints)
    (hstart : I.start = I.slots.maxPoints) (hfrozen : 0 < I.numFrozenPts) :
    I.compactFrozenPoint.start = I.slots.nd := by
  rw [compactFrozenPoint]
  split_ifs with hmove
  · rfl
  · omega

/-- What holds of every list does in the files. -/
theorem compactFrozenPoint_all {P : List ℕ → Prop} (hnd : I.slots.nd ≤ I.slots.maxPoints)
    (hmap : ∀ l, P l →
      P (l.map (reposition I.slots.maxPoints I.slots.nd I.numFrozenPts)))
    (hg : ∀ v < I.total, P (I.graph v)) : ∀ v < I.total, P (I.compactFrozenPoint.graph v) := by
  rw [compactFrozenPoint]
  split_ifs with hmove
  · exact repositionPoints_all le_rfl (Nat.add_le_add_right hnd _) hmap hg
  · exact hg

/-- Where frozen points have been, there is no vector. -/
theorem repositionFrozenPointToEnd_vector (hnd : I.slots.nd < I.slots.maxPoints)
    (hfrozen : 0 < I.numFrozenPts) : I.repositionFrozenPointToEnd.vector I.slots.nd = 0 := by
  rw [repositionFrozenPointToEnd, if_neg hfrozen.ne', if_neg hnd.ne, repositionPoints,
    if_neg (by omega)]
  simp only [moveVectors]
  refine if_pos ?_
  split_ifs <;> omega

end Frozen

variable {dim tagWidth elemWidth m : ℕ} {I J : DynamicIndex ℕ (Fin dim → ℕ)}

theorem HasRead.lookup (hJ : HasRead tagWidth elemWidth m I J) (hcons : I.slots.Consistent [])
    (hstart : I.start = I.slots.nd)
    (htags : ∀ loc tag, I.slots.locationToTag.tryGet loc = some tag → tag < 256 ^ tagWidth)
    {tag : ℕ} (htag : tag ≠ 0) : J.slots.tagToLocation.lookup tag =
      (I.slots.tagToLocation.lookup tag).filter (· < I.slots.nd) := by
  rw [hJ.slots]
  refine loadedSlots_lookup (fun i hi => ?_) fun i hi => ?_
  · rw [List.getD_eq_getElem?_getD, List.getElem?_map, getElem?_tagData hstart hi,
      Option.map_some, Option.getD_some, Option.filter_eq_some_iff, ← hcons.inverse]
    cases hget : I.slots.locationToTag.tryGet i with
    | none => simp [htag.symm]
    | some t => simp [Nat.mod_eq_of_lt (htags i t hget), hi]
  · exact of_decide_eq_true (Option.filter_eq_some_iff.mp hi).2

/-- After inserts alone, what has been saved and loaded has only the tags that were at locations
below `nd`. With room left a tag is lost, and all of them are when the index is at most half full.
The point at location `nd`, if there is one, also loses its vector in the index that is saved. -/
theorem insert_only_save (tagWidth elemWidth : ℕ) {maxPoints : ℕ}
    (hrun : Relation.ReflTransGen Slots.Inserts (Slots.construct maxPoints) I.slots)
    (hI : I.InBounds) (hstart : I.start = I.slots.maxPoints) (hfrozen : 0 < I.numFrozenPts)
    (hdim : dim < 2 ^ 32) (htotal : I.total < 2 ^ 32)
    (hdeg : ∀ v < I.total, (I.graph v).length < 2 ^ 29)
    (htags : ∀ loc tag, I.slots.locationToTag.tryGet loc = some tag → tag < 256 ^ tagWidth)
    (maxObserved : ℕ) (setOrder : Finset ℕ → List ℕ) (m : ℕ) :
    ∃ (F : IndexFiles) (I' J : DynamicIndex ℕ (Fin dim → ℕ)),
      I.save tagWidth elemWidth maxObserved setOrder true = .ok (F, I') ∧
      load tagWidth elemWidth F (construct m I.numFrozenPts) = .ok J ∧
      (∀ tag ≠ 0, J.slots.tagToLocation.lookup tag =
        (I.slots.tagToLocation.lookup tag).filter (· < I.slots.nd)) ∧
      (0 < I.slots.nd → I.slots.nd < I.slots.maxPoints →
        ∃ tag, (I.slots.tagToLocation.lookup tag).isSome ∧
          J.slots.tagToLocation.lookup tag = none) ∧
      (2 * I.slots.nd ≤ I.slots.maxPoints → ∀ tag ≠ 0,
        J.slots.tagToLocation.lookup tag = none) ∧
      I'.slots = I.slots ∧ (I.slots.nd < I.slots.maxPoints → I'.vector I.slots.nd = 0) := by
  have hfilled := Slots.filled_run hrun
  rw [← hfilled.maxPoints_eq] at hfilled
  have hcons := hfilled.inv.consistent
  have hnd : I.slots.nd ≤ I.slots.maxPoints := by
    have := hcons.count
    omega
  obtain ⟨hslots, hfrozen'⟩ := I.compactFrozenPoint_frame
  have hstart' := compactFrozenPoint_start hnd hstart hfrozen
  have hbound := htotal
  rw [total] at hbound
  have hlist := compactFrozenPoint_all (P := fun l => l.length < 2 ^ 29 ∧ ∀ w ∈ l, w < I.total) hnd
    (fun l hl => ⟨by rw [List.length_map]; exact hl.1, fun w hw => by
      obtain ⟨u, hu, rfl⟩ := List.mem_map.mp hw
      exact reposition_lt le_rfl (Nat.add_le_add_right hnd _) htotal.le (hl.2 u hu)⟩)
    fun v hv => ⟨hdeg v hv, hI.graph v hv⟩
  obtain ⟨J, hload, hJ⟩ := files_loaded tagWidth elemWidth
    (I := I.compactFrozenPoint) (hslots ▸ hfilled.deleted) (hfrozen' ▸ hfrozen)
    (by rw [hslots, hfrozen']; omega) hdim (by rw [hstart']; omega) (fun v hv => by
      rw [hslots, hfrozen'] at hv
      obtain ⟨hshort, hlt⟩ := hlist v (by rw [total]; omega)
      exact ⟨hshort, fun w hw => (hlt w hw).trans htotal⟩) maxObserved setOrder m
  rw [hfrozen'] at hload
  have hlookup : ∀ tag ≠ 0, J.repositionFrozenPointToEnd.slots.tagToLocation.lookup tag =
      (I.slots.tagToLocation.lookup tag).filter (· < I.slots.nd) := by
    intro tag htag
    rw [repositionFrozenPointToEnd_slots, hJ.lookup (hslots ▸ hcons) (hslots ▸ hstart')
      (hslots ▸ htags) htag, hslots]
  have hlost : ∀ tag ≠ 0, (∀ loc, I.slots.tagToLocation.lookup tag = some loc → I.slots.nd ≤ loc) →
      J.repositionFrozenPointToEnd.slots.tagToLocation.lookup tag = none := by
    intro tag htag hback
    rw [hlookup tag htag, Option.filter_eq_none_iff]
    intro loc hloc
    simpa using hback loc hloc
  refine ⟨_, _, _, by rw [save, if_pos rfl, compactData, if_pos hfilled.compacted]; rfl, hload,
    hlookup, fun hpos hroom => ?_, fun hhalf tag htag => hlost tag htag fun loc hloc => ?_, ?_, ?_⟩
  · -- the first point is at the last location
    obtain ⟨tag, htag⟩ := (Slots.contains_iff_tryGet hcons.tags).mp
      ((hfilled.contains_iff (I.slots.maxPoints - 1)).mpr (by omega))
    have hat := (hcons.inverse _ _).mp htag
    have hne : tag ≠ 0 := by
      rintro rfl
      exact hfilled.tags _ htag
    refine ⟨tag, by rw [hat]; rfl, hlost tag hne fun loc hloc => ?_⟩
    rw [hat] at hloc
    cases hloc
    omega
  · have := (hfilled.contains_iff loc).mp (hcons.contains_of_lookup hloc)
    omega
  · rw [repositionFrozenPointToEnd_slots, hslots]
  · intro hroom
    have hzero := repositionFrozenPointToEnd_vector (I := I.compactFrozenPoint)
      (by rw [hslots]; exact hroom) (hfrozen' ▸ hfrozen)
    rwa [hslots] at hzero

/-- One point in an index for four. -/
def oneInserted : DynamicIndex ℕ (Fin 1 → ℕ) where
  slots := ⟨4, 1, true, ⟨[0, 1, 2], [true, true, true, false]⟩, ∅, none,
    ⟨1, [0, 0, 0, 7], [false, false, false, true]⟩, AList.singleton 7 3⟩
  numFrozenPts := 1
  start := 4
  graph v := if v = 4 then [3] else [4]
  vector v _ := v

theorem oneInserted_lost : ∃ (F : IndexFiles) (I' J : DynamicIndex ℕ (Fin 1 → ℕ)),
    oneInserted.save 4 1 3 (fun _ => []) true = .ok (F, I') ∧
    load 4 1 F (construct 4 oneInserted.numFrozenPts) = .ok J ∧
    J.slots.tagToLocation.lookup 7 = none := by
  have hinsert : Slots.Inserts (Slots.construct 4) oneInserted.slots := ⟨7, some 3, rfl⟩
  have htags : ∀ loc tag, oneInserted.slots.locationToTag.tryGet loc = some tag →
      tag < 256 ^ 4 := by
    intro loc tag htag
    rw [NaturalNumberMap.tryGet] at htag
    split_ifs at htag
    have := List.mem_of_getElem? htag
    simp only [oneInserted, List.mem_cons, List.not_mem_nil, or_false] at this
    omega
  obtain ⟨F, I', J, hsave, hload, -, -, hlost, -⟩ :=
    insert_only_save 4 1 (.single hinsert) ⟨by decide, by decide⟩ rfl one_pos (by decide)
      (by decide) (by decide) htags 3 (fun _ => []) 4
  exact ⟨F, I', J, hsave, hload, hlost (by decide) 7 (by decide)⟩

end DynamicIndex

end HiDANN.Memory
