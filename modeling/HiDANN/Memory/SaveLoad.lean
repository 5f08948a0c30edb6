import HiDANN.Memory.Reposition
import HiDANN.Pruning.GraphFiles
import HiDANN.Pruning.PqFiles

/-! `save` and `load` of a dynamic index: the lists with the start node, the tags, the vectors and
the deleted locations, each in a file of its own. Only the first `nd` locations and the frozen
points are written, so an index has to be compacted. It is when something has been deleted since
the last time; inserts alone leave the flag as it is. -/

namespace HiDANN.Memory

open Bytes Construction Format Pruning

structure IndexFiles where
  graph : List UInt8
  tags : List UInt8
  data : List UInt8
  deleteList : Option (List UInt8)

namespace DynamicIndex

variable {dim : ℕ}

section Save

variable (tagWidth elemWidth maxObservedDegree : ℕ) (setOrder : Finset ℕ → List ℕ)
  (I : DynamicIndex ℕ (Fin dim → ℕ))

/-- `save_tags`, with zeros for the frozen points. -/
def tagData : List ℕ :=
  (List.range (I.slots.nd + I.numFrozenPts)).map fun i =>
    if I.start ≤ i ∧ i < I.start + I.numFrozenPts then 0
    else (I.slots.locationToTag.tryGet i).getD 0

def vectorData : List ℕ :=
  (List.range (I.slots.nd + I.numFrozenPts)).flatMap fun v => List.ofFn (I.vector v)

/-- `save_graph`, `save_tags`, `save_data` and `save_delete_list`. -/
def files : IndexFiles :=
  let numPoints := I.slots.nd + I.numFrozenPts
  { graph := saveGraph maxObservedDegree I.start I.numFrozenPts ((List.range numPoints).map I.graph)
    tags := binBytes tagWidth I.tagData numPoints 1
    data := binBytes elemWidth I.vectorData numPoints dim
    deleteList := if I.slots.deleteSet.card = 0 then none
      else some (binBytes 4 (setOrder I.slots.deleteSet) I.slots.deleteSet.card 1) }

/-- The files, and the index that is left. -/
def save (compactBeforeSave : Bool) : Except String (IndexFiles × DynamicIndex ℕ (Fin dim → ℕ)) :=
  if compactBeforeSave then
    I.compactData.map fun I =>
      (I.compactFrozenPoint.files tagWidth elemWidth maxObservedDegree setOrder,
        I.compactFrozenPoint.repositionFrozenPointToEnd)
  else if I.slots.dataCompacted then
    .ok (I.files tagWidth elemWidth maxObservedDegree setOrder, I.repositionFrozenPointToEnd)
  else .error "Index save for non-compacted index is not yet implemented"

end Save

section Load

variable (tagWidth elemWidth : ℕ)

def clearEmptySlots (I : DynamicIndex ℕ (Fin dim → ℕ)) : DynamicIndex ℕ (Fin dim → ℕ) :=
  { I with slots := { I.slots with emptySlots := I.slots.emptySlots.clear } }

/-- The locations are made enough for a file. -/
def makeRoom (I : DynamicIndex ℕ (Fin dim → ℕ)) (npts : ℕ) : DynamicIndex ℕ (Fin dim → ℕ) :=
  if I.total < npts then I.resize (npts - I.numFrozenPts) else I

def loadData (file : List UInt8) (I : DynamicIndex ℕ (Fin dim → ℕ)) :
    Except String (ℕ × DynamicIndex ℕ (Fin dim → ℕ)) := do
  let npts ← readExact "FileException" file 0 4
  let fileDim ← readExact "FileException" file 4 4
  let I := I.clearEmptySlots
  if val fileDim ≠ dim then
    throw ("ERROR: Driver requests loading " ++ toString dim ++ " dimension,but file has " ++
      toString (val fileDim) ++ " dimension.\n")
  let I := I.makeRoom (val npts)
  let (data, numPoints, _) ← loadBin elemWidth file 0
  return (numPoints, { I with
    vector := fun v => if v < numPoints then fun k => data.getD (v * dim + k) 0 else I.vector v })

/-- `load_delete_set`, where there is such a file. -/
def loadDeleteSet (file : Option (List UInt8)) (I : DynamicIndex ℕ (Fin dim → ℕ)) :
    Except String (DynamicIndex ℕ (Fin dim → ℕ)) :=
  match file with
  | none => .ok I
  | some file => do
    let (deleted, npts, _) ← loadBin 4 file 0
    return { I with
      slots := { I.slots with deleteSet := I.slots.deleteSet ∪ (deleted.take npts).toFinset } }

/-- A tag that is read, unless its location has been deleted. -/
def setTag (tags : List ℕ) (s : Slots ℕ) (i : ℕ) : Slots ℕ :=
  if i ∈ s.deleteSet then s
  else { s with
    locationToTag := s.locationToTag.set i (tags.getD i 0)
    tagToLocation := s.tagToLocation.insert (tags.getD i 0) i }

def setTags (tags : List ℕ) (numDataPoints : ℕ) (I : DynamicIndex ℕ (Fin dim → ℕ)) :
    DynamicIndex ℕ (Fin dim → ℕ) :=
  { I with slots := (List.range numDataPoints).foldl (setTag tags) I.slots }

def loadTags (file : List UInt8) (I : DynamicIndex ℕ (Fin dim → ℕ)) :
    Except String (ℕ × DynamicIndex ℕ (Fin dim → ℕ)) := do
  let (tags, numPoints, fileDim) ← loadBin tagWidth file 0
  if fileDim ≠ 1 then
    throw ("ERROR: Found " ++ toString fileDim ++
      " dimensions for tags,but tag file must have 1 dimension.\n")
  return (numPoints, I.setTags tags (Words.sub 64 numPoints I.numFrozenPts % 2 ^ 32))

def loadGraph (file : List UInt8) (expectedNumPoints : ℕ) (I : DynamicIndex ℕ (Fin dim → ℕ)) :
    Except String (ℕ × DynamicIndex ℕ (Fin dim → ℕ)) :=
  match loadImpl ((List.range I.total).map I.graph) expectedNumPoints file with
  | none => .error "basic_ios::clear: iostream error"
  | some (graph, nodesRead, start, frozen) => .ok (nodesRead, { I with
      graph := fun v => graph.getD v []
      start := start
      numFrozenPts := frozen })

def load (F : IndexFiles) (I : DynamicIndex ℕ (Fin dim → ℕ)) :
    Except String (DynamicIndex ℕ (Fin dim → ℕ)) := do
  let (dataNum, I) ← loadData elemWidth F.data I
  let I ← loadDeleteSet F.deleteList I
  let (tagsNum, I) ← loadTags tagWidth F.tags I
  let (graphNum, I) ← loadGraph F.graph dataNum I
  if dataNum ≠ graphNum ∨ dataNum ≠ tagsNum then
    throw ("ERROR: When loading index, loaded " ++ toString dataNum ++ " points from datafile, " ++
      toString graphNum ++ " from graph, and " ++ toString tagsNum ++
      " tags, with num_frozen_pts being set to " ++ toString I.numFrozenPts ++
      " in constructor.\n")
  let nd := Words.sub 64 dataNum I.numFrozenPts
  return ({ I with
    slots := { I.slots with
      nd := nd
      emptySlots := Slots.insertRange I.slots.emptySlots.clear nd I.slots.maxPoints } } :
        DynamicIndex ℕ (Fin dim → ℕ)).repositionFrozenPointToEnd

end Load

/-- A dynamic index as it is constructed. -/
def construct (maxPoints numFrozenPts : ℕ) : DynamicIndex ℕ (Fin dim → ℕ) where
  slots := Slots.construct maxPoints
  numFrozenPts := if numFrozenPts = 0 then 1 else numFrozenPts
  start := max maxPoints 1
  graph _ := []
  vector _ := 0

/-! ### Reading the files -/

variable {tagWidth elemWidth : ℕ}

theorem hasBin_binBytes {width n m : ℕ} {data : List ℕ} (hn : n < 2 ^ 32) (hm : m < 2 ^ 32)
    (hlen : data.length = n * m) : HasBin width (binBytes width data n m) 0 n m data := by
  have h : HasBin width (overwrite [] 0 (binBytes width data n m)) 0 n m data :=
    hasBin_overwrite hn hm hlen
  rwa [show overwrite [] 0 (binBytes width data n m) = binBytes width data n m from
    overwrite_end [] _] at h

/-- The tables after `load`. -/
def loadedSlots (maxPoints n : ℕ) (tags : List ℕ) : Slots ℕ where
  maxPoints := maxPoints
  nd := n
  dataCompacted := true
  emptySlots := Slots.insertRange .empty n maxPoints
  deleteSet := ∅
  oldDeleteSet := none
  locationToTag := (List.range n).foldl (fun m i => m.set i (tags.getD i 0)) .empty
  tagToLocation := (List.range n).foldl (fun m i => m.insert (tags.getD i 0) i) ∅

theorem foldl_setTag (tags : List ℕ) (l : List ℕ) {s : Slots ℕ} (hs : s.deleteSet = ∅) :
    l.foldl (setTag tags) s = { s with
      locationToTag := l.foldl (fun m i => m.set i (tags.getD i 0)) s.locationToTag
      tagToLocation := l.foldl (fun m i => m.insert (tags.getD i 0) i) s.tagToLocation } := by
  induction l generalizing s with
  | nil => rfl
  | cons i l ih =>
    have hset : setTag tags s i = { s with
        locationToTag := s.locationToTag.set i (tags.getD i 0)
        tagToLocation := s.tagToLocation.insert (tags.getD i 0) i } := by
      rw [setTag, hs, if_neg (Finset.notMem_empty i)]
    rw [List.foldl_cons, hset]
    exact ih hs

/-- A constructed index that has read its vectors. -/
structure HasData (maxPoints frozen count : ℕ) (rows : ℕ → Fin dim → ℕ)
    (J : DynamicIndex ℕ (Fin dim → ℕ)) : Prop where
  maxPoints : J.slots.maxPoints = maxPoints
  compacted : J.slots.dataCompacted = true
  deleted : J.slots.deleteSet = ∅
  idle : J.slots.oldDeleteSet = none
  locationToTag : J.slots.locationToTag = .empty
  tagToLocation : J.slots.tagToLocation = ∅
  frozen : J.numFrozenPts = frozen
  graph : ∀ v, J.graph v = []
  vector : ∀ v < count, J.vector v = rows v

theorem swapAll_nil (old new : ℕ) (offsets : List ℕ) {graph : ℕ → List ℕ}
    (hg : ∀ v, graph v = []) (v : ℕ) : swapAll old new offsets graph v = [] := by
  induction offsets generalizing graph with
  | nil => exact hg v
  | cons k offsets ih =>
    refine ih fun u => ?_
    change swapNeighbours graph _ _ u = []
    rw [swapNeighbours, hg, hg]
    rcases eq_or_ne u (old + k) with rfl | hu
    · exact Function.update_self ..
    · rw [Function.update_of_ne hu]
      rcases eq_or_ne u (new + k) with rfl | hu'
      · exact Function.update_self ..
      · rw [Function.update_of_ne hu', hg]

theorem repositionPoints_nil {V : Type*} [Zero V] (total old new num : ℕ)
    {s : (ℕ → List ℕ) × (ℕ → V)} (hs : ∀ v, s.1 v = []) (v : ℕ) :
    (repositionPoints total old new num s).1 v = [] := by
  rw [repositionPoints]
  by_cases hnone : num = 0 ∨ old = new
  · rw [if_pos hnone]
    exact hs v
  · rw [if_neg hnone]
    refine swapAll_nil _ _ _ (fun u => ?_) v
    rw [hs, List.map_nil, ite_self]

section HasData

variable {rows : ℕ → Fin dim → ℕ} {M f n : ℕ} {J : DynamicIndex ℕ (Fin dim → ℕ)}

theorem HasData.makeRoom (h : HasData M f 0 rows J) (hf : 0 < f) :
    HasData (max M n) f 0 rows (J.makeRoom (n + f)) := by
  rw [DynamicIndex.makeRoom, total, h.maxPoints, h.frozen]
  by_cases hroom : M + f < n + f
  · have hmax : max M n = n := by omega
    have hsize : n + f - f = n := Nat.add_sub_cancel n f
    have hnone : ∀ v, (fun v => if v < J.total then J.graph v else []) v = [] := by
      intro v
      dsimp only
      rw [h.graph, ite_self]
    rw [if_pos hroom, hmax, hsize]
    refine ⟨rfl, h.compacted, h.deleted, h.idle, h.locationToTag, h.tagToLocation, h.frozen,
      fun v => ?_, fun v hv => absurd hv (Nat.not_lt_zero v)⟩
    rw [resize]
    dsimp only
    rw [if_neg (h.frozen ▸ hf.ne'), repositionPoints_nil _ _ _ _ hnone]
  · have hmax : max M n = M := by omega
    rw [if_neg hroom, hmax]
    exact h

theorem hasData_construct (hf : 0 < f) (m : ℕ) (rows : ℕ → Fin dim → ℕ) :
    HasData (max m 1) f 0 rows (construct m f : DynamicIndex ℕ (Fin dim → ℕ)).clearEmptySlots where
  maxPoints := rfl
  compacted := rfl
  deleted := rfl
  idle := rfl
  locationToTag := rfl
  tagToLocation := rfl
  frozen := if_neg hf.ne'
  graph _ := rfl
  vector v hv := absurd hv (Nat.not_lt_zero v)

theorem HasData.read (h : HasData M f 0 rows J) (count : ℕ) : HasData M f count rows
    { J with vector := fun v => if v < count then rows v else J.vector v } :=
  ⟨h.maxPoints, h.compacted, h.deleted, h.idle, h.locationToTag, h.tagToLocation, h.frozen, h.graph,
    fun _ hv => if_pos hv⟩

end HasData

/-- The vectors are read into an index that is large enough, or is made so. -/
theorem loadData_construct (elemWidth : ℕ) {cells : List ℕ} {n f : ℕ} (hf : 0 < f)
    (hcells : cells.length = (n + f) * dim) (hn : n + f < 2 ^ 32) (hdim : dim < 2 ^ 32) (m : ℕ) :
    ∃ J : DynamicIndex ℕ (Fin dim → ℕ),
      loadData elemWidth (binBytes elemWidth cells (n + f) dim) (construct m f) = .ok (n + f, J) ∧
      HasData (max (max m 1) n) f (n + f)
        (fun v k => (cells.map fun c => c % 256 ^ elemWidth).getD (v * dim + k) 0) J := by
  have h : HasBin elemWidth _ 0 _ _ _ := hasBin_binBytes hn hdim hcells
  have h4 : readExact "FileException" (binBytes elemWidth cells (n + f) dim) 4 4 =
      .ok (le 4 dim) := h.readNdims _
  rw [loadData, h.readNpts, ok_bind, h4, ok_bind, h.val_ndims, h.val_npts, h.loadBin]
  simp only [ne_eq, not_true_eq_false, if_false, ok_bind]
  refine ⟨_, rfl, ?_⟩
  exact ((hasData_construct hf m _).makeRoom hf).read (n + f)

theorem loadTags_eq {tags : List ℕ} {n f : ℕ} {J : DynamicIndex ℕ (Fin dim → ℕ)}
    (htags : tags.length = (n + f) * 1) (hn : n + f < 2 ^ 32) (hfrozen : J.numFrozenPts = f) :
    loadTags tagWidth (binBytes tagWidth tags (n + f) 1) J =
      .ok (n + f, J.setTags (tags.map fun t => t % 256 ^ tagWidth) n) := by
  have h : HasBin tagWidth _ 0 _ _ _ := hasBin_binBytes hn one_lt_word htags
  have hsub : Words.sub 64 (n + f) f % 2 ^ 32 = n := by
    rw [Words.sub_of_le (Nat.le_add_left f n) (by omega), Nat.add_sub_cancel,
      Nat.mod_eq_of_lt (by omega)]
  rw [loadTags, h.loadBin]
  simp only [ne_eq, not_true_eq_false, if_false, ok_bind, hfrozen, hsub]
  rfl

/-- What `save_graph` has written is read into a store with room. -/
theorem loadImpl_saveGraph {adj : List (List ℕ)} {start frozen expected : ℕ}
    (hdeg : ∀ nb ∈ adj, nb.length + 1 < 2 ^ 32) (hid : ∀ nb ∈ adj, ∀ v ∈ nb, v < 2 ^ 32)
    (hstart : start < 2 ^ 32) (hfrozen : frozen < 2 ^ 64)
    (hsize : 24 + (memIndexNodes adj).length < 2 ^ 64) (maxObserved : ℕ) {graph : List (List ℕ)}
    (hroom : adj.length ≤ (loadStore graph expected).length) :
    loadImpl graph expected (saveGraph maxObserved start frozen adj) =
      some (adj ++ (loadStore graph expected).drop adj.length, adj.length, start, frozen) := by
  obtain ⟨maxObs, hsave⟩ := saveGraph_eq maxObserved start frozen adj
  have hloop := loadLoop_nodes [] (fun nb hnb => ⟨by have := hdeg nb hnb; omega, hid nb hnb⟩) []
    (loadStore graph expected) (n := 24) hroom
  rw [List.append_nil, List.length_nil, List.nil_append, List.nil_append, Nat.zero_add] at hloop
  have hlen : ¬ (memIndexHdr (24 + (memIndexNodes adj).length) maxObs start frozen ++
      memIndexNodes adj).length < 24 := by
    rw [List.length_append, length_memIndexHdr]
    omega
  rw [hsave, countedSize_eq hdeg, map_written fun nb hnb => by have := hdeg nb hnb; omega,
    Nat.mod_eq_of_lt hsize, loadImpl, if_neg hlen, hdr_isz _ hsize, drop_memIndexHdr,
    hdr_ep _ hstart, hdr_nf _ hfrozen, hloop]
  rfl

theorem loadGraph_eq {adj : List (List ℕ)} {n f M start : ℕ} {J : DynamicIndex ℕ (Fin dim → ℕ)}
    (hadj : adj.length = n + f) (hdeg : ∀ nb ∈ adj, nb.length + 1 < 2 ^ 32)
    (hid : ∀ nb ∈ adj, ∀ v ∈ nb, v < 2 ^ 32) (hn : n + f < 2 ^ 32) (hstart : start < 2 ^ 32)
    (hsize : 24 + (memIndexNodes adj).length < 2 ^ 64) (maxObserved : ℕ) (htotal : J.total = M + f)
    (hnM : n ≤ M) (hJ : ∀ v, J.graph v = []) :
    loadGraph (saveGraph maxObserved start f adj) (n + f) J = .ok (n + f, { J with
      graph := fun v => adj.getD v []
      start := start
      numFrozenPts := f }) := by
  have hstore : (List.range J.total).map J.graph = List.replicate (M + f) [] := by
    rw [htotal, List.map_congr_left fun v _ => hJ v, List.map_const', List.length_range]
  have hload : loadStore (List.replicate (M + f) []) (n + f) = List.replicate (M + f) [] := by
    rw [loadStore, List.length_replicate, if_neg (by omega)]
  have hroom : adj.length ≤ (loadStore (List.replicate (M + f) []) (n + f)).length := by
    rw [hload, List.length_replicate]
    omega
  have hgetD : (fun v => (adj ++ List.replicate (M + f - adj.length) []).getD v []) =
      fun v => adj.getD v [] := by
    funext v
    simp only [List.getD_eq_getElem?_getD, List.getElem?_append]
    split_ifs with hv
    · rfl
    · rw [List.getElem?_eq_none (not_lt.mp hv), List.getElem?_replicate]
      split_ifs <;> rfl
  rw [loadGraph, hstore, loadImpl_saveGraph hdeg hid hstart (by omega) hsize maxObserved hroom,
    hload, List.drop_replicate]
  dsimp only
  rw [hgetD, hadj]

/-- What an index has read, before its frozen points go to the end. -/
structure Loaded (maxPoints n f start : ℕ) (adj : List (List ℕ)) (tags : List ℕ)
    (rows : ℕ → Fin dim → ℕ) (J : DynamicIndex ℕ (Fin dim → ℕ)) : Prop where
  slots : J.slots = loadedSlots maxPoints n tags
  frozen : J.numFrozenPts = f
  start : J.start = start
  graph : ∀ v, J.graph v = adj.getD v []
  vector : ∀ v < n + f, J.vector v = rows v

/-- Files of equal counts are loaded into a constructed index. -/
theorem load_files {adj : List (List ℕ)} {tags cells : List ℕ} {n f start : ℕ} (hf : 0 < f)
    (hadj : adj.length = n + f) (hdeg : ∀ nb ∈ adj, nb.length + 1 < 2 ^ 32)
    (hid : ∀ nb ∈ adj, ∀ v ∈ nb, v < 2 ^ 32) (htags : tags.length = n + f)
    (hcells : cells.length = (n + f) * dim) (hn : n + f < 2 ^ 32) (hdim : dim < 2 ^ 32)
    (hstart : start < 2 ^ 32) (hsize : 24 + (memIndexNodes adj).length < 2 ^ 64)
    (maxObserved m : ℕ) :
    ∃ J : DynamicIndex ℕ (Fin dim → ℕ),
      load tagWidth elemWidth ⟨saveGraph maxObserved start f adj, binBytes tagWidth tags (n + f) 1,
        binBytes elemWidth cells (n + f) dim, none⟩ (construct m f) =
          .ok J.repositionFrozenPointToEnd ∧
      Loaded (max (max m 1) n) n f start adj (tags.map fun t => t % 256 ^ tagWidth)
        (fun v k => (cells.map fun c => c % 256 ^ elemWidth).getD (v * dim + k) 0) J := by
  obtain ⟨J, hdata, hJ⟩ := loadData_construct elemWidth hf hcells hn hdim m
  have htotal : (J.setTags (tags.map fun t => t % 256 ^ tagWidth) n).total =
      max (max m 1) n + f := by
    rw [total, setTags, foldl_setTag _ _ hJ.deleted, ← hJ.maxPoints, ← hJ.frozen]
  have hsub : Words.sub 64 (n + f) f = n := by
    rw [Words.sub_of_le (Nat.le_add_left f n) (by omega), Nat.add_sub_cancel]
  rw [load, hdata, ok_bind]
  dsimp only [loadDeleteSet]
  rw [ok_bind, loadTags_eq (by rw [htags, Nat.mul_one]) hn hJ.frozen, ok_bind]
  dsimp only
  rw [loadGraph_eq hadj hdeg hid hn hstart hsize maxObserved htotal (le_max_right (max m 1) n)
    hJ.graph, ok_bind]
  simp only [ne_eq, not_true_eq_false, or_self, if_false, hsub]
  refine ⟨_, rfl, ?_, rfl, rfl, fun v => rfl, hJ.vector⟩
  simp only [setTags, foldl_setTag _ _ hJ.deleted, loadedSlots, hJ.maxPoints, hJ.compacted,
    hJ.deleted, hJ.idle, hJ.locationToTag, hJ.tagToLocation, NaturalNumberSet.clear]

/-! ### The tables -/

section Tables

variable {maxPoints n : ℕ} {tags : List ℕ}

theorem loadedSlots_tryGet (maxPoints n : ℕ) (tags : List ℕ) :
    (loadedSlots maxPoints n tags).locationToTag.Valid ∧
      ∀ k, (loadedSlots maxPoints n tags).locationToTag.tryGet k =
        if k < n then some (tags.getD k 0) else none := by
  obtain ⟨hvalid, hget⟩ := Slots.tryGet_foldl_set (fun i : ℕ => i) (fun i => tags.getD i 0)
    (List.range n) .empty NaturalNumberMap.Valid.empty
  refine ⟨hvalid, fun k => Option.ext fun t => ?_⟩
  rw [loadedSlots, hget, Slots.foldl_update_eq_some _ _ _ _ (by simpa using List.nodup_range)]
  have hnone : (NaturalNumberMap.empty : NaturalNumberMap ℕ).tryGet k = none := by
    rw [NaturalNumberMap.tryGet, if_neg]
    simp [NaturalNumberMap.contains, NaturalNumberMap.empty]
  rw [hnone]
  split_ifs with hk <;> simp [hk]

/-- A tag that is in the file at one place, or not at all. -/
theorem loadedSlots_lookup {t : ℕ} {loc : Option ℕ}
    (ht : ∀ i < n, tags.getD i 0 = t ↔ loc = some i) (hloc : ∀ i, loc = some i → i < n) :
    (loadedSlots maxPoints n tags).tagToLocation.lookup t = loc := by
  have hfold := congrFun (Slots.lookup_foldl_insert (fun i => tags.getD i 0) (fun i : ℕ => i)
    (List.range n) ∅) t
  have hkeep : ∀ (l : List ℕ) (g : ℕ → Option ℕ), (∀ i ∈ l, i < n) →
      l.foldl (fun f e => Function.update f (tags.getD e 0) (some e)) g t =
        if ∃ i ∈ l, loc = some i then loc else g t := by
    intro l
    induction l with
    | nil => simp
    | cons i l ih =>
      intro g hl
      have hi := ht i (hl i List.mem_cons_self)
      rw [List.foldl_cons, ih _ fun j hj => hl j (List.mem_cons_of_mem i hj)]
      simp only [List.exists_mem_cons_iff]
      by_cases hhead : loc = some i
      · rw [hi.mpr hhead, Function.update_self, ← hhead, ite_self, if_pos (.inl rfl)]
      · rw [Function.update_of_ne (Ne.symm (hi.not.mpr hhead))]
        simp only [hhead, false_or]
  rw [loadedSlots]
  refine hfold.trans ((hkeep _ _ fun i hi => List.mem_range.mp hi).trans ?_)
  cases loc with
  | none => simp [AList.lookup_empty]
  | some i => exact if_pos ⟨i, List.mem_range.mpr (hloc i rfl), rfl⟩

/-- Distinct tags are read into tables that are inverse to each other. -/
theorem loadedSlots_inv (hpos : 0 < maxPoints) (hle : n ≤ maxPoints)
    (hinj : Set.InjOn (fun i => tags.getD i 0) {i | i < n}) :
    (loadedSlots maxPoints n tags).Inv := by
  obtain ⟨hvalid, hget⟩ := loadedSlots_tryGet maxPoints n tags
  have hnd : ((List.range n).map fun i => tags.getD i 0).Nodup :=
    List.nodup_range.map_on fun i hi j hj heq =>
      hinj (List.mem_range.mp hi) (List.mem_range.mp hj) heq
  have hfold := Slots.lookup_foldl_insert (fun i => tags.getD i 0) (fun i : ℕ => i)
    (List.range n) ∅
  have hinverse : ∀ loc t, (loadedSlots maxPoints n tags).locationToTag.tryGet loc = some t ↔
      (loadedSlots maxPoints n tags).tagToLocation.lookup t = some loc := by
    intro loc t
    have hlookup : (loadedSlots maxPoints n tags).tagToLocation.lookup t = _ := congrFun hfold t
    rw [hlookup, Slots.foldl_update_eq_some _ _ _ _ hnd, hget, AList.lookup_empty]
    constructor
    · intro hloc
      split_ifs at hloc with hlt
      exact .inl ⟨loc, List.mem_range.mpr hlt, Option.some.inj hloc, rfl⟩
    · rintro (⟨i, hi, ht, rfl⟩ | ⟨-, hnone⟩)
      · rw [if_pos (List.mem_range.mp hi), ht]
      · cases hnone
  have hfront : ∀ loc, (loadedSlots maxPoints n tags).locationToTag.contains loc ↔ loc < n := by
    intro loc
    rw [Slots.contains_iff_tryGet hvalid, hget]
    split_ifs with hlt <;> simp [hlt]
  obtain ⟨hcons, hbits⟩ := Slots.consistent_of_front hvalid hinverse hfront rfl rfl hle rfl
  exact ⟨hpos, hcons, hbits⟩

end Tables

/-! ### Round trip -/

/-- Degrees, tags and components that fit the files. -/
structure Writable (tagWidth elemWidth : ℕ) (I : DynamicIndex ℕ (Fin dim → ℕ)) : Prop where
  dim_lt : dim < 2 ^ 32
  total_lt : I.total < 2 ^ 32
  deg_lt : ∀ v, I.Kept v → (I.graph v).length < 2 ^ 29
  tag_lt : ∀ loc tag, I.slots.locationToTag.tryGet loc = some tag → tag < 256 ^ tagWidth
  elem_lt : ∀ v, I.Kept v → ∀ k, I.vector v k < 256 ^ elemWidth

/-- `J` has been constructed with `m` locations and has read the files of `I`. -/
def HasRead (tagWidth elemWidth m : ℕ) (I J : DynamicIndex ℕ (Fin dim → ℕ)) : Prop :=
  Loaded (max (max m 1) I.slots.nd) I.slots.nd I.numFrozenPts I.start
    ((List.range (I.slots.nd + I.numFrozenPts)).map I.graph)
    (I.tagData.map fun t => t % 256 ^ tagWidth)
    (fun v k => (I.vectorData.map fun c => c % 256 ^ elemWidth).getD (v * dim + k) 0) J

variable {I : DynamicIndex ℕ (Fin dim → ℕ)}

theorem length_vectorData (I : DynamicIndex ℕ (Fin dim → ℕ)) :
    I.vectorData.length = (I.slots.nd + I.numFrozenPts) * dim := by
  rw [vectorData, length_flatMap_const _ _ fun v _ => List.length_ofFn, List.length_range,
    Nat.mul_comm]

theorem getElem?_vectorData {v : ℕ} (hv : v < I.slots.nd + I.numFrozenPts) (k : Fin dim) :
    I.vectorData[v * dim + k]? = some (I.vector v k) := by
  have hrow := slice_flatMap (fun v => List.ofFn (I.vector v))
    (List.range (I.slots.nd + I.numFrozenPts)) (fun v _ => List.length_ofFn) v
    (by rwa [List.length_range])
  rw [List.getElem_range] at hrow
  have hget : (List.ofFn (I.vector v))[(k : ℕ)]? = some (I.vector v k) := by
    rw [List.getElem?_ofFn, dif_pos k.isLt]
  rw [← hget, ← hrow, slice, List.getElem?_take_of_lt k.isLt, List.getElem?_drop, Nat.mul_comm dim]
  rfl

theorem getElem?_tagData (hstart : I.start = I.slots.nd) {i : ℕ} (hi : i < I.slots.nd) :
    I.tagData[i]? = some ((I.slots.locationToTag.tryGet i).getD 0) := by
  rw [tagData, List.getElem?_map, List.getElem?_range (by omega), Option.map_some,
    if_neg (by omega)]

/-- A graph file of so many short lists has a size of 64 bits. -/
theorem size_lt {graph : ℕ → List ℕ} {n : ℕ} (hn : n < 2 ^ 32)
    (hdeg : ∀ v < n, (graph v).length < 2 ^ 29) :
    24 + (memIndexNodes ((List.range n).map graph)).length < 2 ^ 64 := by
  have hsum : ∀ l : List ℕ, (∀ v ∈ l, v < n) →
      (memIndexNodes (l.map graph)).length ≤ 2 ^ 31 * l.length := by
    intro l hl
    induction l with
    | nil => exact le_rfl
    | cons v l ih =>
      have hv := hdeg v (hl v List.mem_cons_self)
      have hrest := ih fun u hu => hl u (List.mem_cons_of_mem v hu)
      rw [List.map_cons, memIndexNodes_cons, List.length_append, length_memIndexNode,
        List.length_cons]
      omega
  have := hsum (List.range n) fun v hv => List.mem_range.mp hv
  rw [List.length_range] at this
  omega

theorem files_loaded (tagWidth elemWidth : ℕ) (hdel : I.slots.deleteSet = ∅)
    (hfrozen : 0 < I.numFrozenPts) (hcount : I.slots.nd + I.numFrozenPts < 2 ^ 32)
    (hdim : dim < 2 ^ 32) (hstart : I.start < 2 ^ 32)
    (hlist : ∀ v < I.slots.nd + I.numFrozenPts,
      (I.graph v).length < 2 ^ 29 ∧ ∀ w ∈ I.graph v, w < 2 ^ 32)
    (maxObserved : ℕ) (setOrder : Finset ℕ → List ℕ) (m : ℕ) :
    ∃ J : DynamicIndex ℕ (Fin dim → ℕ),
      load tagWidth elemWidth (I.files tagWidth elemWidth maxObserved setOrder)
        (construct m I.numFrozenPts) = .ok J.repositionFrozenPointToEnd ∧
      HasRead tagWidth elemWidth m I J := by
  have hadj : ∀ nb ∈ (List.range (I.slots.nd + I.numFrozenPts)).map I.graph,
      nb.length + 1 < 2 ^ 32 ∧ ∀ v ∈ nb, v < 2 ^ 32 := by
    intro nb hnb
    obtain ⟨v, hv, rfl⟩ := List.mem_map.mp hnb
    obtain ⟨hdeg, hid⟩ := hlist v (List.mem_range.mp hv)
    exact ⟨by omega, hid⟩
  have htags : I.tagData.length = I.slots.nd + I.numFrozenPts := by
    rw [tagData, List.length_map, List.length_range]
  rw [files, hdel, Finset.card_empty, if_pos rfl]
  exact load_files hfrozen (by rw [List.length_map, List.length_range])
    (fun nb hnb => (hadj nb hnb).1) (fun nb hnb => (hadj nb hnb).2) htags (length_vectorData I)
    hcount hdim hstart (size_lt hcount fun v hv => (hlist v hv).1) maxObserved m

section

variable {tagWidth elemWidth : ℕ} (h : Front I) (hw : I.Writable tagWidth elemWidth)

include h hw

/-- The lists in the file are short enough, and lead to points of the file. -/
theorem Front.list_filed {v : ℕ} (hv : v < I.slots.nd + I.numFrozenPts) :
    (I.compactFrozenPoint.graph v).length < 2 ^ 29 ∧
      ∀ w ∈ I.compactFrozenPoint.graph v, w < I.slots.nd + I.numFrozenPts := by
  obtain ⟨u, hu, rfl⟩ := h.exists_point hv
  rw [(h.filed hu).1, List.length_map]
  refine ⟨hw.deg_lt u (h.kept_iff.mpr hu), fun w hw => ?_⟩
  obtain ⟨x, hx, rfl⟩ := List.mem_map.mp hw
  exact h.fileLoc_lt (h.closed u hu x hx)

omit hw in
theorem Front.slots_filed : I.compactFrozenPoint.slots = I.slots ∧
    I.compactFrozenPoint.numFrozenPts = I.numFrozenPts ∧
    I.compactFrozenPoint.start = I.slots.nd := by
  rw [h.compactFrozenPoint_eq]
  exact ⟨rfl, rfl, rfl⟩

theorem Front.load_files (maxObserved : ℕ) (setOrder : Finset ℕ → List ℕ) (m : ℕ) :
    ∃ J : DynamicIndex ℕ (Fin dim → ℕ),
      load tagWidth elemWidth (I.compactFrozenPoint.files tagWidth elemWidth maxObserved setOrder)
        (construct m I.numFrozenPts) = .ok J.repositionFrozenPointToEnd ∧
      HasRead tagWidth elemWidth m I.compactFrozenPoint J := by
  have hnd := h.nd_le
  have htotal := hw.total_lt
  rw [total] at htotal
  obtain ⟨hslots, hfrozen, hstart⟩ := h.slots_filed
  rw [← hfrozen]
  refine files_loaded tagWidth elemWidth (hslots ▸ h.deleted) (hfrozen ▸ h.frozen) ?_ hw.dim_lt ?_
    (fun v hv => ?_) maxObserved setOrder m
  · rw [hslots, hfrozen]
    omega
  · rw [hstart]
    omega
  · rw [hslots, hfrozen] at hv
    obtain ⟨hdeg, hid⟩ := h.list_filed hw hv
    exact ⟨hdeg, fun w hw => by have := hid w hw; omega⟩

variable {m : ℕ} {J : DynamicIndex ℕ (Fin dim → ℕ)}
  (hJ : HasRead tagWidth elemWidth m I.compactFrozenPoint J)

include hJ

theorem Front.tags_read : J.slots.Inv ∧
    J.slots.locationToTag.tryGet = I.slots.locationToTag.tryGet := by
  obtain ⟨hslots, hfrozen, hstart⟩ := h.slots_filed
  have htag : ∀ i < I.slots.nd, I.slots.locationToTag.tryGet i =
      some ((I.compactFrozenPoint.tagData.map fun t => t % 256 ^ tagWidth).getD i 0) := by
    intro i hi
    obtain ⟨t, ht⟩ := (Slots.contains_iff_tryGet h.consistent.tags).mp ((h.front i).mpr hi)
    have hget := getElem?_tagData (hstart.trans (hslots ▸ rfl)) (hslots ▸ hi)
    rw [hslots, ht, Option.getD_some] at hget
    rw [List.getD_eq_getElem?_getD, List.getElem?_map, hget, ht, Option.map_some,
      Option.getD_some, Nat.mod_eq_of_lt (hw.tag_lt i t ht)]
  rw [hJ.slots, hslots]
  refine ⟨loadedSlots_inv (by omega) (le_max_right _ _) fun i hi j hj heq => ?_, funext fun k => ?_⟩
  · -- one tag is at one location only
    have hi' := htag i hi
    have hj' := htag j hj
    dsimp only at heq
    rw [← heq] at hj'
    exact Option.some.inj (((h.consistent.inverse i _).mp hi').symm.trans
      ((h.consistent.inverse j _).mp hj'))
  · rw [(loadedSlots_tryGet _ _ _).2]
    split_ifs with hk
    · exact (htag k hk).symm
    · by_contra hsome
      obtain ⟨t, ht⟩ := Option.ne_none_iff_exists'.mp (Ne.symm hsome)
      exact hk ((h.front k).mp ((Slots.contains_iff_tryGet h.consistent.tags).mpr ⟨t, ht⟩))

theorem Front.points_read {v : ℕ} (hv : I.Point v) :
    J.graph (I.fileLoc v) = (I.graph v).map I.fileLoc ∧ J.vector (I.fileLoc v) = I.vector v := by
  obtain ⟨hslots, hfrozen, hstart⟩ := h.slots_filed
  obtain ⟨hgraph, hvector⟩ := h.filed hv
  have hlt : I.fileLoc v < I.compactFrozenPoint.slots.nd + I.compactFrozenPoint.numFrozenPts := by
    rw [hslots, hfrozen]
    exact h.fileLoc_lt hv
  constructor
  · rw [hJ.graph, List.getD_eq_getElem?_getD, List.getElem?_map, List.getElem?_range hlt,
      Option.map_some, Option.getD_some, hgraph]
  · rw [hJ.vector _ hlt]
    funext k
    rw [List.getD_eq_getElem?_getD, List.getElem?_map, getElem?_vectorData hlt k, Option.map_some,
      Option.getD_some, hvector, Nat.mod_eq_of_lt (hw.elem_lt v (h.kept_iff.mpr hv) k)]

/-- What has been loaded searches like what has been saved. -/
theorem Front.loaded (hroom : max m 1 + I.numFrozenPts ≤ 2 ^ 32) :
    J.repositionFrozenPointToEnd.InBounds ∧
      Carried (I.loadedLoc (max (max m 1) I.slots.nd)) {v | I.Point v} I
        J.repositionFrozenPointToEnd := by
  have hnd := h.nd_le
  have htotal := hw.total_lt
  rw [total] at htotal
  obtain ⟨hslots, hfrozen, hstart⟩ := h.slots_filed
  have hread := hJ.slots
  rw [hslots] at hread
  refine h.returned (le_max_right _ _) (by omega) (by rw [hread]; rfl) (by rw [hread]; rfl)
    (hJ.frozen.trans hfrozen) (hJ.start.trans hstart) (h.tags_read hw hJ).2
    (fun v hv => h.points_read hw hJ hv) fun v hv w hw' => ?_
  rw [hJ.graph, List.getD_eq_getElem?_getD, List.getElem?_map, hslots, hfrozen] at hw'
  rcases Nat.lt_or_ge v (I.slots.nd + I.numFrozenPts) with hlt | hge
  · rw [List.getElem?_range hlt, Option.map_some, Option.getD_some] at hw'
    have := (h.list_filed hw hlt).2 w hw'
    omega
  · rw [List.getElem?_eq_none (by rwa [List.length_range])] at hw'
    cases hw'

end

theorem Writable.compacted {tagWidth elemWidth : ℕ} (hw : I.Writable tagWidth elemWidth)
    {J : DynamicIndex ℕ (Fin dim → ℕ)} (hJ : Compacted I J) (h : Compactable I) :
    J.Writable tagWidth elemWidth := by
  have hkept : ∀ v, J.Kept v → ∃ u, I.Kept u ∧ I.newLoc u = v := by
    rintro v ⟨hv, hlive⟩
    rw [hJ.contains_iff h, hJ.slots] at hlive
    exact exists_kept h (hJ.total_eq ▸ hv) hlive
  refine ⟨hw.dim_lt, hJ.total_eq ▸ hw.total_lt, fun v hv => ?_, fun loc tag htag => ?_,
    fun v hv k => ?_⟩
  · obtain ⟨u, hu, rfl⟩ := hkept v hv
    rw [(hJ.kept u hu).1, newAdjList, List.length_map]
    exact (List.length_filter_le _ _).trans_lt (hw.deg_lt u hu)
  · have hcons := (h.consistent.compacted h.deleted h.idle).1
    rw [← hJ.slots] at hcons
    have hlive : J.slots.locationToTag.contains loc :=
      (Slots.contains_iff_tryGet hcons.tags).mpr ⟨tag, htag⟩
    obtain ⟨u, hu, rfl⟩ := hkept loc
      ⟨(hcons.lt_of_live hlive).trans_le (Nat.le_add_right ..), .inl hlive⟩
    rw [hJ.tryGet h hu] at htag
    exact hw.tag_lt u tag htag
  · obtain ⟨u, hu, rfl⟩ := hkept v hv
    rw [(hJ.kept u hu).2]
    exact hw.elem_lt u hu k

/-- An index with the contents of `I`: it keeps its invariant, each tag has its vector, and
searches return what they return in `I`. -/
structure Restored {δ : Type*} [LinearOrder δ] (distance : (Fin dim → ℕ) → δ)
    (I J : DynamicIndex ℕ (Fin dim → ℕ)) : Prop where
  inv : J.slots.Inv
  vectors : ∀ tag, (J.slots.tagToLocation.lookup tag).map J.vector =
    (I.slots.tagToLocation.lookup tag).map I.vector
  search : ∀ (K L : ℕ) (scratch scratch' : Iterate δ), 0 < L →
    J.searchWithTags distance K L scratch' = I.searchWithTags distance K L scratch

/-- An index without gaps survives its files, and is itself left as it was. -/
theorem Front.save_load {tagWidth elemWidth : ℕ} {δ : Type*} [LinearOrder δ] (h : Front I)
    (hw : I.Writable tagWidth elemWidth) (hinv : I.slots.Inv) {m : ℕ}
    (hroom : max m 1 + I.numFrozenPts ≤ 2 ^ 32) (maxObserved : ℕ) (setOrder : Finset ℕ → List ℕ)
    (distance : (Fin dim → ℕ) → δ) :
    Restored distance I I.compactFrozenPoint.repositionFrozenPointToEnd ∧
      ∃ J, load tagWidth elemWidth
          (I.compactFrozenPoint.files tagWidth elemWidth maxObserved setOrder)
          (construct m I.numFrozenPts) = .ok J ∧ Restored distance I J := by
  have hnd := h.nd_le
  have htotal := hw.total_lt
  rw [total] at htotal
  obtain ⟨hbounds, hcarried⟩ := h.saved
  have hslots := h.saved_frame.1
  obtain ⟨J, hload, hJ⟩ := h.load_files hw maxObserved setOrder m
  obtain ⟨hbounds', hcarried'⟩ := h.loaded hw hJ hroom
  obtain ⟨hinv', htags⟩ := h.tags_read hw hJ
  rw [← J.repositionFrozenPointToEnd_slots] at hinv' htags
  refine ⟨⟨hslots ▸ hinv, ?_, fun K L scratch scratch' hL => ?_⟩, _, hload, hinv', ?_,
    fun K L scratch scratch' hL => ?_⟩
  · exact h.lookup_vector hnd h.total_le (hslots ▸ h.consistent) (by rw [hslots]) hcarried
  · exact hcarried.search h.bounds hbounds distance K hL scratch scratch'
  · exact h.lookup_vector (le_max_right _ _) (by omega) hinv'.consistent htags hcarried'
  · exact hcarried'.search h.bounds hbounds' distance K hL scratch scratch'

/-- What has been saved after a deletion comes back: the index that is left, and one that loads the
files, have the vector of each tag and search like the index before. No list leads to an empty
location there, and the frozen points are its start. -/
theorem save_load_round_trip {tagWidth elemWidth : ℕ} {δ : Type*} [LinearOrder δ]
    (h : Compactable I) (hinv : I.slots.Inv) (hI : I.InBounds)
    (hclosed : ∀ v, I.Kept v → ∀ w ∈ I.graph v, I.Kept w) (hstart : I.start = I.slots.maxPoints)
    (hfrozen : 0 < I.numFrozenPts) (hw : I.Writable tagWidth elemWidth) {m : ℕ}
    (hroom : max m 1 + I.numFrozenPts ≤ 2 ^ 32) (maxObserved : ℕ) (setOrder : Finset ℕ → List ℕ)
    (distance : (Fin dim → ℕ) → δ) :
    ∃ F I₁ J, I.compactData = .ok I₁ ∧
      I.save tagWidth elemWidth maxObserved setOrder true =
        .ok (F, I₁.compactFrozenPoint.repositionFrozenPointToEnd) ∧
      Restored distance I I₁.compactFrozenPoint.repositionFrozenPointToEnd ∧
      load tagWidth elemWidth F (construct m I.numFrozenPts) = .ok J ∧ Restored distance I J := by
  obtain ⟨I₁, hrun, hI₁⟩ := compactData_spec h
  have hfront := hI₁.front h hI hstart hfrozen hw.total_lt.le
  have hinv₁ : I₁.slots.Inv := by
    obtain ⟨hcons, hbits⟩ := hinv.consistent.compacted h.deleted h.idle
    rw [hI₁.slots]
    exact ⟨hinv.pos, hcons, hbits⟩
  have hback : ∀ {J : DynamicIndex ℕ (Fin dim → ℕ)}, Restored distance I₁ J →
      Restored distance I J := fun hJ => ⟨hJ.inv, fun tag => by
    rw [hJ.vectors, hI₁.lookup_vector h], fun K L scratch scratch' hL => by
    rw [hJ.search K L scratch scratch' hL]
    exact (hI₁.carried h hI hclosed).search hI hfront.bounds distance K hL scratch scratch⟩
  obtain ⟨hleft, J, hload, hJ⟩ := hfront.save_load (hw.compacted hI₁ h) hinv₁
    (hI₁.frozen ▸ hroom) maxObserved setOrder distance
  rw [hI₁.frozen] at hload
  exact ⟨_, I₁, J, hrun, by rw [save, if_pos rfl, hrun]; rfl, hback hleft, hload, hback hJ⟩

end DynamicIndex

end HiDANN.Memory
