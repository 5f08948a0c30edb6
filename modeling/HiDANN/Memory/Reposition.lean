import HiDANN.Library.Words
import HiDANN.Memory.Compact

/-! `reposition_points`, which moves the frozen points behind the last point before an index is
saved and to the end of the locations afterwards. The two ranges can overlap, so the lists are
exchanged from the side that the range moves to. -/

namespace HiDANN.Memory

variable {V : Type*}

/-- The number of a location, when `num` ones have moved; numbers have 32 bits. -/
def reposition (old new num loc : ℕ) : ℕ :=
  if old ≤ loc ∧ loc < old + num then (loc + Words.sub 32 new old) % 2 ^ 32 else loc

/-- `move_vectors`, with zeros where nothing has moved to. -/
def moveVectors [Zero V] (old new num : ℕ) (vector : ℕ → V) : ℕ → V :=
  let clearStart := if new < old ∧ old < new + num then new + num else old
  let clearEnd := if ¬ new < old ∧ new < old + num then new else old + num
  fun v =>
    if clearStart ≤ v ∧ v < clearEnd then 0
    else if new ≤ v ∧ v < new + num then vector (old + (v - new))
    else vector v

/-- The exchanges of lists, in the order of the offsets. -/
def swapAll (old new : ℕ) (offsets : List ℕ) (graph : ℕ → List ℕ) : ℕ → List ℕ :=
  offsets.foldl (fun g k => swapNeighbours g (new + k) (old + k)) graph

/-- `reposition_points` of an index with `total` locations. -/
def repositionPoints [Zero V] (total old new num : ℕ) (s : (ℕ → List ℕ) × (ℕ → V)) :
    (ℕ → List ℕ) × (ℕ → V) :=
  if num = 0 ∨ old = new then s
  else
    let renamed := fun v => if v < total then (s.1 v).map (reposition old new num) else s.1 v
    let offsets := if new < old then List.range num else (List.range num).reverse
    (swapAll old new offsets renamed, moveVectors old new num s.2)

/-! ### What has moved -/

variable {total old new num : ℕ}

theorem reposition_eq (hold : old + num ≤ 2 ^ 32) (hnew : new + num ≤ 2 ^ 32) (loc : ℕ) :
    reposition old new num loc =
      if old ≤ loc ∧ loc < old + num then new + (loc - old) else loc := by
  rw [reposition]
  by_cases h : old ≤ loc ∧ loc < old + num
  · rw [if_pos h, if_pos h]
    rcases Nat.lt_or_ge new old with hlt | hge
    · rw [Words.sub_of_lt hlt (by omega)]
      omega
    · rw [Words.sub_of_le hge (by omega)]
      omega
  · rw [if_neg h, if_neg h]

theorem swapNeighbours_right (graph : ℕ → List ℕ) (a b : ℕ) :
    swapNeighbours graph a b b = graph a := Function.update_self ..

/-- Each exchange brings a list that none of those before has touched, to a place that none of
those after it touches. -/
theorem swapAll_spec {offsets : List ℕ} (hnd : offsets.Nodup) (hne : old ≠ new)
    (hpw : offsets.Pairwise fun j k => old + k ≠ new + j) (graph : ℕ → List ℕ) :
    (∀ k ∈ offsets, swapAll old new offsets graph (new + k) = graph (old + k)) ∧
      ∀ v, (∀ k ∈ offsets, v ≠ new + k ∧ v ≠ old + k) →
        swapAll old new offsets graph v = graph v := by
  induction offsets generalizing graph with
  | nil => exact ⟨fun k hk => absurd hk List.not_mem_nil, fun v _ => rfl⟩
  | cons j offsets ih =>
    obtain ⟨hj, hnd⟩ := List.nodup_cons.mp hnd
    obtain ⟨hfirst, hpw⟩ := List.pairwise_cons.mp hpw
    obtain ⟨hin, hout⟩ := ih hnd hpw (swapNeighbours graph (new + j) (old + j))
    have hdiff : ∀ k ∈ offsets, k ≠ j := by
      rintro k hk rfl
      exact hj hk
    refine ⟨fun k hk => ?_, fun v hv => ?_⟩
    · rw [swapAll, List.foldl_cons]
      rcases List.mem_cons.mp hk with rfl | hk
      · have hkeep : ∀ i ∈ offsets, new + k ≠ new + i ∧ new + k ≠ old + i := by
          intro i hi
          have := hdiff i hi
          exact ⟨by omega, (hfirst i hi).symm⟩
        exact (hout _ hkeep).trans (swapNeighbours_left _ (by omega))
      · have hk' := hdiff k hk
        exact (hin k hk).trans (swapNeighbours_of_ne _ (hfirst k hk) (by omega))
    · obtain ⟨hnew, hold⟩ := hv j List.mem_cons_self
      exact (hout v fun k hk => hv k (List.mem_cons_of_mem j hk)).trans
        (swapNeighbours_of_ne _ hnew hold)

/-- The order of the exchanges, for both directions. -/
theorem pairwise_offsets (old new num : ℕ) :
    (if new < old then List.range num else (List.range num).reverse).Pairwise
      fun j k => old + k ≠ new + j := by
  split_ifs with hlt
  · exact (List.pairwise_lt_range).imp fun {j k} hjk => by omega
  · rw [List.pairwise_reverse]
    exact (List.pairwise_lt_range).imp fun {j k} hjk => by omega

theorem moveVectors_moved [Zero V] (vector : ℕ → V) {k : ℕ} (hk : k < num) :
    moveVectors old new num vector (new + k) = vector (old + k) := by
  have hback : old + (new + k - new) = old + k := by omega
  simp only [moveVectors]
  rw [if_neg, if_pos (by omega), hback]
  split_ifs <;> omega

theorem moveVectors_of_ne [Zero V] (vector : ℕ → V) {v : ℕ} (hold : ¬ (old ≤ v ∧ v < old + num))
    (hnew : ¬ (new ≤ v ∧ v < new + num)) : moveVectors old new num vector v = vector v := by
  simp only [moveVectors]
  rw [if_neg, if_neg hnew]
  split_ifs <;> omega

/-- A location that moves, or is not moved to, is found under its new number. -/
theorem repositionPoints_spec [Zero V] (hold : old + num ≤ total) (hnew : new + num ≤ total)
    (htotal : total ≤ 2 ^ 32) (s : (ℕ → List ℕ) × (ℕ → V)) {v : ℕ} (hv : v < total)
    (hin : old ≤ v ∧ v < old + num ∨ ¬ (new ≤ v ∧ v < new + num)) :
    (repositionPoints total old new num s).1 (reposition old new num v) =
        (s.1 v).map (reposition old new num) ∧
      (repositionPoints total old new num s).2 (reposition old new num v) = s.2 v := by
  have heq := reposition_eq (hold.trans htotal) (hnew.trans htotal)
  rw [repositionPoints]
  by_cases hnone : num = 0 ∨ old = new
  · have hid : ∀ loc, reposition old new num loc = loc := by
      intro loc
      rw [heq]
      split_ifs <;> omega
    rw [if_pos hnone, funext hid, List.map_id']
    exact ⟨rfl, rfl⟩
  · obtain ⟨hnum, hne⟩ := not_or.mp hnone
    have hmem : ∀ k, k ∈ (if new < old then List.range num else (List.range num).reverse) ↔
        k < num := by
      intro k
      split_ifs <;> simp
    have hnd : (if new < old then List.range num else (List.range num).reverse).Nodup := by
      split_ifs
      · exact List.nodup_range
      · exact List.nodup_reverse.mpr List.nodup_range
    obtain ⟨hmoved, hkept⟩ := swapAll_spec hnd hne (pairwise_offsets old new num) fun v =>
      if v < total then (s.1 v).map (reposition old new num) else s.1 v
    rw [if_neg hnone]
    dsimp only
    by_cases hmoves : old ≤ v ∧ v < old + num
    · have hto : reposition old new num v = new + (v - old) := by rw [heq, if_pos hmoves]
      have hback : old + (v - old) = v := by omega
      rw [hto, hmoved (v - old) ((hmem _).mpr (by omega)), moveVectors_moved _ (by omega), hback,
        if_pos hv]
      exact ⟨rfl, rfl⟩
    · have hto : reposition old new num v = v := by rw [heq, if_neg hmoves]
      have hfree : ¬ (new ≤ v ∧ v < new + num) := hin.resolve_left hmoves
      rw [hto, moveVectors_of_ne _ hmoves hfree, hkept v fun k hk => ?_, if_pos hv]
      · exact ⟨rfl, rfl⟩
      · have hk' := (hmem k).mp hk
        constructor <;> omega

theorem reposition_lt (hold : old + num ≤ total) (hnew : new + num ≤ total)
    (htotal : total ≤ 2 ^ 32) {v : ℕ} (hv : v < total) : reposition old new num v < total := by
  rw [reposition_eq (hold.trans htotal) (hnew.trans htotal)]
  split_ifs <;> omega

section Lists

variable {P : List ℕ → Prop} {graph : ℕ → List ℕ}

theorem swapNeighbours_all {a b : ℕ} (ha : a < total) (hb : b < total)
    (hg : ∀ v < total, P (graph v)) : ∀ v < total, P (swapNeighbours graph a b v) := by
  intro v hv
  rcases eq_or_ne v b with rfl | hvb
  · rw [swapNeighbours_right]
    exact hg a ha
  · rcases eq_or_ne v a with rfl | hva
    · rw [swapNeighbours_left _ hvb]
      exact hg b hb
    · rw [swapNeighbours_of_ne _ hva hvb]
      exact hg v hv

theorem swapAll_all {offsets : List ℕ} (hoffsets : ∀ k ∈ offsets, k < num)
    (hold : old + num ≤ total) (hnew : new + num ≤ total) (hg : ∀ v < total, P (graph v)) :
    ∀ v < total, P (swapAll old new offsets graph v) := by
  induction offsets generalizing graph with
  | nil => exact hg
  | cons k offsets ih =>
    have hk := hoffsets k List.mem_cons_self
    exact ih (fun j hj => hoffsets j (List.mem_cons_of_mem k hj))
      (swapNeighbours_all (by omega) (by omega) hg)

theorem repositionPoints_all [Zero V] (hold : old + num ≤ total) (hnew : new + num ≤ total)
    {s : (ℕ → List ℕ) × (ℕ → V)} (hmap : ∀ l, P l → P (l.map (reposition old new num)))
    (hg : ∀ v < total, P (s.1 v)) :
    ∀ v < total, P ((repositionPoints total old new num s).1 v) := by
  rw [repositionPoints]
  by_cases hnone : num = 0 ∨ old = new
  · rw [if_pos hnone]
    exact hg
  · rw [if_neg hnone]
    refine swapAll_all (fun k hk => ?_) hold hnew fun v hv => ?_
    · split_ifs at hk <;> simpa using hk
    · rw [if_pos hv]
      exact hmap _ (hg v hv)

end Lists

theorem repositionPoints_lt [Zero V] (hold : old + num ≤ total) (hnew : new + num ≤ total)
    (htotal : total ≤ 2 ^ 32) {s : (ℕ → List ℕ) × (ℕ → V)}
    (hg : ∀ v < total, ∀ w ∈ s.1 v, w < total) :
    ∀ v < total, ∀ w ∈ (repositionPoints total old new num s).1 v, w < total := by
  refine repositionPoints_all (P := fun l => ∀ w ∈ l, w < total) hold hnew (fun l hl w hw => ?_) hg
  obtain ⟨u, hu, rfl⟩ := List.mem_map.mp hw
  exact reposition_lt hold hnew htotal (hl u hu)

/-! ### The frozen points -/

namespace DynamicIndex

variable {τ : Type*} [Zero V]

/-- The frozen points move behind the last point. -/
def compactFrozenPoint (I : DynamicIndex τ V) : DynamicIndex τ V :=
  if I.slots.nd < I.slots.maxPoints ∧ 0 < I.numFrozenPts then
    let s := repositionPoints I.total I.slots.maxPoints I.slots.nd I.numFrozenPts
      (I.graph, I.vector)
    { I with
      graph := s.1
      vector := s.2
      start := I.slots.nd }
  else I

def repositionFrozenPointToEnd (I : DynamicIndex τ V) : DynamicIndex τ V :=
  if I.numFrozenPts = 0 then I
  else if I.slots.nd = I.slots.maxPoints then I
  else
    let s := repositionPoints I.total I.slots.nd I.slots.maxPoints I.numFrozenPts
      (I.graph, I.vector)
    { I with
      graph := s.1
      vector := s.2
      start := I.slots.maxPoints }

/-- `resize`, for an index without empty locations. -/
def resize (I : DynamicIndex τ V) (newMaxPoints : ℕ) : DynamicIndex τ V :=
  let graph := fun v => if v < I.total then I.graph v else []
  let s := repositionPoints I.total I.slots.maxPoints newMaxPoints I.numFrozenPts (graph, I.vector)
  { I with
    slots := { I.slots with
      maxPoints := newMaxPoints
      emptySlots := Slots.insertRange I.slots.emptySlots I.slots.nd newMaxPoints }
    graph := if I.numFrozenPts = 0 then graph else s.1
    vector := if I.numFrozenPts = 0 then I.vector else s.2
    start := if I.numFrozenPts = 0 then I.start else newMaxPoints }

/-- The points of an index without gaps, and the frozen ones. -/
def Point (I : DynamicIndex τ V) (v : ℕ) : Prop :=
  v < I.total ∧ (v < I.slots.nd ∨ I.slots.maxPoints ≤ v)

/-- The points take the first locations, and no list leads to another one. -/
structure Front [DecidableEq τ] (I : DynamicIndex τ V) : Prop where
  consistent : I.slots.Consistent []
  deleted : I.slots.deleteSet = ∅
  idle : I.slots.oldDeleteSet = none
  front : ∀ loc, I.slots.locationToTag.contains loc ↔ loc < I.slots.nd
  start : I.start = I.slots.maxPoints
  frozen : 0 < I.numFrozenPts
  total_le : I.total ≤ 2 ^ 32
  bounds : I.InBounds
  closed : ∀ v, I.Point v → ∀ w ∈ I.graph v, I.Point w

variable {I J : DynamicIndex τ V} {maxPoints : ℕ}

omit [Zero V] in
theorem Compacted.front [DecidableEq τ] [Inhabited τ] (hJ : Compacted I J) (h : Compactable I)
    (hI : I.InBounds) (hstart : I.start = I.slots.maxPoints) (hfrozen : 0 < I.numFrozenPts)
    (htotal : I.total ≤ 2 ^ 32) : Front J where
  consistent := by
    rw [hJ.slots]
    exact (h.consistent.compacted h.deleted h.idle).1
  deleted := by
    rw [hJ.slots]
    exact h.deleted
  idle := by
    rw [hJ.slots]
    exact h.idle
  front loc := by
    rw [hJ.contains_iff h, hJ.slots]
    rfl
  start := by
    rw [hJ.start, hJ.slots]
    exact hstart
  frozen := hJ.frozen ▸ hfrozen
  total_le := hJ.total_eq ▸ htotal
  bounds := hJ.inBounds h hI
  closed v hv w hw := by
    rw [Point, hJ.total_eq] at *
    rw [hJ.slots]
    exact hJ.graph_lt h hI hv.1 hw

def fileLoc (I : DynamicIndex τ V) (v : ℕ) : ℕ :=
  reposition I.slots.maxPoints I.slots.nd I.numFrozenPts v

/-- The number of a point in an index of `maxPoints` locations that has read the files. -/
def loadedLoc (I : DynamicIndex τ V) (maxPoints v : ℕ) : ℕ :=
  reposition I.slots.nd maxPoints I.numFrozenPts (I.fileLoc v)

theorem repositionPoints_self (total old num : ℕ) (s : (ℕ → List ℕ) × (ℕ → V)) :
    repositionPoints total old old num s = s := by
  rw [repositionPoints, if_pos (.inr rfl)]

theorem repositionFrozenPointToEnd_slots (I : DynamicIndex τ V) :
    I.repositionFrozenPointToEnd.slots = I.slots := by
  rw [repositionFrozenPointToEnd]
  split_ifs <;> rfl

/-- At the end of a full index the frozen points stay where they are. -/
theorem repositionFrozenPointToEnd_eq (hfrozen : 0 < I.numFrozenPts)
    (hstart : I.slots.nd = I.slots.maxPoints → I.start = I.slots.maxPoints) :
    I.repositionFrozenPointToEnd =
      { I with
        graph := (repositionPoints I.total I.slots.nd I.slots.maxPoints I.numFrozenPts
          (I.graph, I.vector)).1
        vector := (repositionPoints I.total I.slots.nd I.slots.maxPoints I.numFrozenPts
          (I.graph, I.vector)).2
        start := I.slots.maxPoints } := by
  rw [repositionFrozenPointToEnd, if_neg hfrozen.ne']
  by_cases heq : I.slots.nd = I.slots.maxPoints
  · rw [if_pos heq, heq, repositionPoints_self, ← hstart heq]
  · rw [if_neg heq]

section

variable [DecidableEq τ] (h : Front I)

include h

omit [Zero V] in
theorem Front.nd_le : I.slots.nd ≤ I.slots.maxPoints := by
  have := h.consistent.count
  omega

omit [Zero V] in
theorem Front.kept_iff {v : ℕ} : I.Kept v ↔ I.Point v := by rw [Kept, Point, h.front v]

theorem Front.compactFrozenPoint_eq : I.compactFrozenPoint =
    { I with
      graph := (repositionPoints I.total I.slots.maxPoints I.slots.nd I.numFrozenPts
        (I.graph, I.vector)).1
      vector := (repositionPoints I.total I.slots.maxPoints I.slots.nd I.numFrozenPts
        (I.graph, I.vector)).2
      start := I.slots.nd } := by
  rw [compactFrozenPoint]
  rcases h.nd_le.lt_or_eq with hlt | heq
  · rw [if_pos ⟨hlt, h.frozen⟩]
  · rw [if_neg (by omega), ← heq, repositionPoints_self]
    have := h.start
    rw [← heq] at this
    rw [← this]

omit [Zero V] in
theorem Front.fileLoc_eq {v : ℕ} (hv : I.Point v) :
    I.fileLoc v = if v < I.slots.nd then v else v - I.slots.maxPoints + I.slots.nd := by
  have hnd := h.nd_le
  have htotal := h.total_le
  obtain ⟨hlt, hpoint⟩ := hv
  rw [total] at hlt htotal
  rw [fileLoc, reposition_eq (by omega) (by omega)]
  split_ifs <;> omega

omit [Zero V] in
theorem Front.fileLoc_lt {v : ℕ} (hv : I.Point v) :
    I.fileLoc v < I.slots.nd + I.numFrozenPts := by
  have hfrozen := h.frozen
  rw [h.fileLoc_eq hv]
  obtain ⟨hlt, hpoint⟩ := hv
  rw [total] at hlt
  split_ifs <;> omega

omit [Zero V] in
theorem Front.exists_point {v : ℕ} (hv : v < I.slots.nd + I.numFrozenPts) :
    ∃ u, I.Point u ∧ I.fileLoc u = v := by
  have hnd := h.nd_le
  rcases Nat.lt_or_ge v I.slots.nd with hlt | hge
  · have hpoint : I.Point v := ⟨(hlt.trans_le hnd).trans_le (Nat.le_add_right _ _), .inl hlt⟩
    exact ⟨v, hpoint, by rw [h.fileLoc_eq hpoint, if_pos hlt]⟩
  · have hpoint : I.Point (v - I.slots.nd + I.slots.maxPoints) := by
      refine ⟨?_, .inr (Nat.le_add_left _ _)⟩
      rw [total]
      omega
    refine ⟨_, hpoint, ?_⟩
    rw [h.fileLoc_eq hpoint]
    split_ifs <;> omega

omit [Zero V] in
theorem Front.loadedLoc_eq (hmax : I.slots.nd ≤ maxPoints)
    (htotal : maxPoints + I.numFrozenPts ≤ 2 ^ 32) {v : ℕ} (hv : I.Point v) :
    I.loadedLoc maxPoints v =
      if v < I.slots.nd then v else v - I.slots.maxPoints + maxPoints := by
  rw [loadedLoc, reposition_eq (by omega) (by omega), h.fileLoc_eq hv]
  obtain ⟨hlt, hpoint⟩ := hv
  rw [total] at hlt
  split_ifs <;> omega

omit [Zero V] in
theorem Front.loadedLoc_strictMono (hmax : I.slots.nd ≤ maxPoints)
    (htotal : maxPoints + I.numFrozenPts ≤ 2 ^ 32) :
    StrictMonoOn (I.loadedLoc maxPoints) {v | I.Point v} := by
  intro u hu v hv huv
  have hnd := h.nd_le
  rw [h.loadedLoc_eq hmax htotal hu, h.loadedLoc_eq hmax htotal hv]
  obtain ⟨-, hu⟩ := hu
  obtain ⟨-, hv⟩ := hv
  split_ifs <;> omega

/-- What the files hold of a point. -/
theorem Front.filed {v : ℕ} (hv : I.Point v) :
    I.compactFrozenPoint.graph (I.fileLoc v) = (I.graph v).map I.fileLoc ∧
      I.compactFrozenPoint.vector (I.fileLoc v) = I.vector v := by
  have hnd := h.nd_le
  have htotal := h.total_le
  have hlt := hv.1
  have hpoint := hv.2
  rw [h.compactFrozenPoint_eq]
  rw [total] at hlt htotal
  refine repositionPoints_spec ?_ ?_ h.total_le (I.graph, I.vector) hv.1 ?_
  · rw [total]
  · rw [total]
    omega
  · omega

/-- The frozen points go to the end of other locations. -/
theorem Front.restored (hmax : I.slots.nd ≤ maxPoints)
    (htotal : maxPoints + I.numFrozenPts ≤ 2 ^ 32) {s : (ℕ → List ℕ) × (ℕ → V)}
    (hs : ∀ v, I.Point v →
      s.1 (I.fileLoc v) = (I.graph v).map I.fileLoc ∧ s.2 (I.fileLoc v) = I.vector v)
    {v : ℕ} (hv : I.Point v) :
    (repositionPoints (maxPoints + I.numFrozenPts) I.slots.nd maxPoints I.numFrozenPts s).1
        (I.loadedLoc maxPoints v) = (I.graph v).map (I.loadedLoc maxPoints) ∧
      (repositionPoints (maxPoints + I.numFrozenPts) I.slots.nd maxPoints I.numFrozenPts s).2
        (I.loadedLoc maxPoints v) = I.vector v := by
  obtain ⟨hgraph, hvector⟩ := hs v hv
  have hlt := h.fileLoc_lt hv
  obtain ⟨hgraph', hvector'⟩ := repositionPoints_spec
    (Nat.add_le_add_right hmax I.numFrozenPts) le_rfl htotal s
    (hlt.trans_le (Nat.add_le_add_right hmax I.numFrozenPts)) (by omega)
  rw [loadedLoc, hgraph', hvector', hgraph, hvector, List.map_map]
  exact ⟨rfl, rfl⟩

omit [Zero V] [DecidableEq τ] h in
theorem initIds_of_frozen (hstart : I.start = I.slots.maxPoints) (hfrozen : 0 < I.numFrozenPts) :
    I.initIds = List.range' I.slots.maxPoints I.numFrozenPts := by
  obtain ⟨k, hk⟩ := Nat.exists_eq_succ_of_ne_zero hfrozen.ne'
  rw [initIds, hstart, hk, List.range'_succ, List.filter_cons_of_neg (by simp),
    List.filter_eq_self.mpr]
  intro v hv
  have := List.mem_range'_1.mp hv
  simp only [decide_eq_true_eq]
  omega

omit [Zero V] in
/-- An index that has got the points of `I` back searches like `I`. -/
theorem Front.carried (hmax : I.slots.nd ≤ maxPoints)
    (htotal : maxPoints + I.numFrozenPts ≤ 2 ^ 32) (hJmax : J.slots.maxPoints = maxPoints)
    (hJfrozen : J.numFrozenPts = I.numFrozenPts) (hJstart : J.start = maxPoints)
    (hJtags : J.slots.locationToTag.tryGet = I.slots.locationToTag.tryGet)
    (hkept : ∀ v, I.Point v →
      J.graph (I.loadedLoc maxPoints v) = (I.graph v).map (I.loadedLoc maxPoints) ∧
        J.vector (I.loadedLoc maxPoints v) = I.vector v) :
    Carried (I.loadedLoc maxPoints) {v | I.Point v} I J where
  strictMono := h.loadedLoc_strictMono hmax htotal
  closed := h.closed
  graph v hv := (hkept v hv).1
  vector v hv := (hkept v hv).2
  tag v hv := by
    have hnone : ∀ w, I.slots.nd ≤ w → I.slots.locationToTag.tryGet w = none := by
      intro w hw
      by_contra hsome
      obtain ⟨tag, htag⟩ := Option.ne_none_iff_exists'.mp hsome
      exact absurd ((h.front w).mp ((Slots.contains_iff_tryGet h.consistent.tags).mpr ⟨tag, htag⟩))
        (not_lt.mpr hw)
    rw [hJtags, h.loadedLoc_eq hmax htotal hv]
    split_ifs with hlow
    · rfl
    · rw [hnone _ (by omega), hnone v (not_lt.mp hlow)]
  init v hv := by
    rw [initIds_of_frozen h.start h.frozen, List.mem_range'_1] at hv
    exact ⟨hv.2, .inr hv.1⟩
  initIds := by
    have hJfrozen' : 0 < J.numFrozenPts := hJfrozen ▸ h.frozen
    rw [initIds_of_frozen h.start h.frozen, initIds_of_frozen (hJstart.trans hJmax.symm) hJfrozen',
      hJmax, hJfrozen, List.range'_eq_map_range, List.range'_eq_map_range, List.map_map]
    refine List.map_congr_left fun k hk => ?_
    have hnd := h.nd_le
    have hk' := List.mem_range.mp hk
    have hpoint : I.Point (I.slots.maxPoints + k) :=
      ⟨Nat.add_lt_add_left hk' _, .inr (Nat.le_add_right _ _)⟩
    rw [Function.comp_apply, h.loadedLoc_eq hmax htotal hpoint]
    split_ifs <;> omega

omit [Zero V] in
/-- Tables that are inverse to each other agree on both sides, so that each tag has its vector. -/
theorem Front.lookup_vector (hmax : I.slots.nd ≤ maxPoints)
    (htotal : maxPoints + I.numFrozenPts ≤ 2 ^ 32) (hJ : J.slots.Consistent [])
    (hJtags : J.slots.locationToTag.tryGet = I.slots.locationToTag.tryGet)
    (hcarried : Carried (I.loadedLoc maxPoints) {v | I.Point v} I J) (tag : τ) :
    (J.slots.tagToLocation.lookup tag).map J.vector =
      (I.slots.tagToLocation.lookup tag).map I.vector := by
  have hlookup : J.slots.tagToLocation.lookup tag = I.slots.tagToLocation.lookup tag :=
    Option.ext fun loc => by rw [← hJ.inverse, ← h.consistent.inverse, hJtags]
  rw [hlookup]
  cases hget : I.slots.tagToLocation.lookup tag with
  | none => rfl
  | some loc =>
    have hlt := (h.front loc).mp (h.consistent.contains_of_lookup hget)
    have hpoint : I.Point loc := ⟨(hlt.trans_le h.nd_le).trans_le (Nat.le_add_right ..), .inl hlt⟩
    have hvector := hcarried.vector loc hpoint
    rw [h.loadedLoc_eq hmax htotal hpoint, if_pos hlt] at hvector
    rw [Option.map_some, Option.map_some, hvector]

/-- An index that has the frozen points behind the last point gets them back to its end. -/
theorem Front.returned (hmax : I.slots.nd ≤ maxPoints)
    (htotal : maxPoints + I.numFrozenPts ≤ 2 ^ 32) (hJmax : J.slots.maxPoints = maxPoints)
    (hJnd : J.slots.nd = I.slots.nd) (hJfrozen : J.numFrozenPts = I.numFrozenPts)
    (hJstart : J.start = I.slots.nd)
    (hJtags : J.slots.locationToTag.tryGet = I.slots.locationToTag.tryGet)
    (hpoints : ∀ v, I.Point v →
      J.graph (I.fileLoc v) = (I.graph v).map I.fileLoc ∧ J.vector (I.fileLoc v) = I.vector v)
    (hlt : ∀ v < maxPoints + I.numFrozenPts, ∀ w ∈ J.graph v, w < maxPoints + I.numFrozenPts) :
    J.repositionFrozenPointToEnd.InBounds ∧
      Carried (I.loadedLoc maxPoints) {v | I.Point v} I J.repositionFrozenPointToEnd := by
  have heq := repositionFrozenPointToEnd_eq (I := J) (by rw [hJfrozen]; exact h.frozen)
    (fun hfull => by rw [hJstart, ← hfull, hJnd])
  have hJtotal : J.total = maxPoints + I.numFrozenPts := by rw [total, hJmax, hJfrozen]
  rw [hJtotal, hJnd, hJmax, hJfrozen] at heq
  rw [heq]
  refine ⟨⟨?_, ?_⟩, ?_⟩
  · rw [total, hJmax]
    exact Nat.lt_add_of_pos_right h.frozen
  · rw [total, hJmax]
    exact repositionPoints_lt (Nat.add_le_add_right hmax _) le_rfl htotal hlt
  · exact h.carried hmax htotal hJmax rfl rfl hJtags fun v hv => h.restored hmax htotal hpoints hv

/-- The index that has been saved searches as before. -/
theorem Front.saved : I.compactFrozenPoint.repositionFrozenPointToEnd.InBounds ∧
    Carried (I.loadedLoc I.slots.maxPoints) {v | I.Point v} I
      I.compactFrozenPoint.repositionFrozenPointToEnd := by
  have hnd := h.nd_le
  have heq := h.compactFrozenPoint_eq
  refine h.returned hnd h.total_le (by rw [heq]) (by rw [heq]) (by rw [heq]) (by rw [heq])
    (by rw [heq]) (fun v hv => h.filed hv) ?_
  rw [heq]
  exact repositionPoints_lt le_rfl (Nat.add_le_add_right hnd _) h.total_le h.bounds.graph

theorem Front.saved_frame : I.compactFrozenPoint.repositionFrozenPointToEnd.slots = I.slots ∧
    I.compactFrozenPoint.repositionFrozenPointToEnd.numFrozenPts = I.numFrozenPts ∧
    I.compactFrozenPoint.repositionFrozenPointToEnd.start = I.slots.maxPoints := by
  have heq := repositionFrozenPointToEnd_eq (I := I.compactFrozenPoint)
  rw [h.compactFrozenPoint_eq] at heq ⊢
  rw [heq h.frozen id]
  exact ⟨rfl, rfl, rfl⟩

/-- Its points have the lists and the vectors that they had. -/
theorem Front.saved_point {v : ℕ} (hv : I.Point v) :
    I.compactFrozenPoint.repositionFrozenPointToEnd.graph v = I.graph v ∧
      I.compactFrozenPoint.repositionFrozenPointToEnd.vector v = I.vector v := by
  have hcarried := h.saved.2
  have hself : ∀ u, I.Point u → I.loadedLoc I.slots.maxPoints u = u := by
    intro u hu
    rw [h.loadedLoc_eq h.nd_le h.total_le hu]
    obtain ⟨-, hu⟩ := hu
    split_ifs <;> omega
  have hgraph := hcarried.graph v hv
  have hvector := hcarried.vector v hv
  rw [hself v hv] at hgraph hvector
  refine ⟨hgraph.trans ?_, hvector⟩
  rw [List.map_congr_left fun w hw => hself w (h.closed v hv w hw), List.map_id']

end

end DynamicIndex

end HiDANN.Memory
