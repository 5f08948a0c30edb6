import HiDANN.Disk.Metadata
import HiDANN.Search.CacheLoad
import HiDANN.Search.ReadsOnce

/-! The scratch of a search thread. The sectors of a round are read side by side into one
buffer, each into a stride of its own, and the distances of a list go to a buffer of
their own. Both buffers have fixed sizes, while the stride comes from the length of a
record, the number of reads from the beam width, and the length of a list from the
degree in the metadata. Only the beam width is checked, and only against zero. -/

namespace HiDANN.Search

open Disk Packing NeighborPriorityQueue

/-! ### The buffers -/

/-- `MAX_N_SECTOR_READS * SECTOR_LEN`. -/
def sectorScratchBytes : ℕ := 128 * 4096

def maxGraphDegree : ℕ := 512

/-- Where the read of the `i`-th node of the frontier goes. -/
def destStart (S : SigmaSearch) (i : ℕ) : ℕ := i * S.graphSource.getReadBufferSize

def destEnd (S : SigmaSearch) (frontier : List ℕ) (i : ℕ) : ℕ :=
  destStart S i + (S.frontierRead (frontier.getD i 0)).len

/-- The window of a record is its length in whole sectors. -/
theorem len_sectorWindow {maxNodeLen : ℕ} (h : maxNodeLen ≠ 0) (id : ℕ) :
    (sectorWindow (nnodesPerSectorOf maxNodeLen) maxNodeLen id).len =
      roundUp maxNodeLen sectorLen % 2 ^ 32 := by
  unfold sectorWindow nnodesPerSectorOf absOffset sectorLen
  dsimp only
  by_cases hle : maxNodeLen ≤ 4096
  · -- records share a sector, and none crosses its end
    have hpos : 0 < 4096 / maxNodeLen := Nat.div_pos hle (Nat.pos_of_ne_zero h)
    have hdiv : 4096 / maxNodeLen ≤ 4096 := Nat.div_le_self _ _
    rw [if_pos hle, Nat.mod_eq_of_lt (show 4096 / maxNodeLen < 2 ^ 32 by omega), if_pos hpos,
      roundUp_of_le (Nat.pos_of_ne_zero h) hle]
    have hin : id % (4096 / maxNodeLen) * maxNodeLen + maxNodeLen ≤ 4096 := by
      have hlt := Nat.mod_lt id hpos
      calc id % (4096 / maxNodeLen) * maxNodeLen + maxNodeLen
          = (id % (4096 / maxNodeLen) + 1) * maxNodeLen := by rw [Nat.add_mul, Nat.one_mul]
        _ ≤ 4096 / maxNodeLen * maxNodeLen := Nat.mul_le_mul_right _ hlt
        _ ≤ 4096 := Nat.div_mul_le_self _ _
    omega
  · -- a record has sectors of its own
    have hround : divRoundUp maxNodeLen 4096 = (maxNodeLen + 4095) / 4096 := by
      unfold divRoundUp
      split_ifs <;> omega
    have hlow : maxNodeLen ≤ (maxNodeLen + 4095) / 4096 * 4096 := by omega
    have hhigh : (maxNodeLen + 4095) / 4096 * 4096 < maxNodeLen + 4096 := by omega
    rw [if_neg hle, if_neg (lt_irrefl 0), roundUp, hround, ← Nat.mul_assoc]
    generalize (maxNodeLen + 4095) / 4096 = q at *
    generalize id * q = b
    omega

theorem len_frontierRead (elemSize : ℕ) {m : DiskIndexMetadata} (h : m.maxNodeLen ≠ 0) (id : ℕ) :
    ((SigmaSearch.ofMetadata elemSize m).frontierRead id).len =
      roundUp m.maxNodeLen sectorLen % 2 ^ 32 :=
  len_sectorWindow h id

/-- A stride is a whole number of sectors, one more than are read into it. -/
theorem stride_eq (elemSize : ℕ) (m : DiskIndexMetadata) :
    (SigmaSearch.ofMetadata elemSize m).graphSource.getReadBufferSize =
      (roundUp m.maxNodeLen sectorLen + sectorLen) % 2 ^ 32 := by
  rw [← roundUp_add_self (by decide)]
  rfl

/-- A read leaves a sector of its stride, unless the stride has become zero. -/
theorem len_frontierRead_add (elemSize : ℕ) {m : DiskIndexMetadata} (h : m.maxNodeLen ≠ 0) (id : ℕ)
    (hstride : (SigmaSearch.ofMetadata elemSize m).graphSource.getReadBufferSize ≠ 0) :
    ((SigmaSearch.ofMetadata elemSize m).frontierRead id).len + sectorLen =
      (SigmaSearch.ofMetadata elemSize m).graphSource.getReadBufferSize := by
  rw [stride_eq] at hstride ⊢
  rw [len_frontierRead elemSize h, roundUp] at *
  unfold sectorLen at *
  omega

/-- The reads up to the `i`-th take their strides but for a sector. -/
theorem destEnd_add (elemSize : ℕ) {m : DiskIndexMetadata} (h : m.maxNodeLen ≠ 0)
    (hstride : (SigmaSearch.ofMetadata elemSize m).graphSource.getReadBufferSize ≠ 0)
    (frontier : List ℕ) (i : ℕ) :
    destEnd (.ofMetadata elemSize m) frontier i + sectorLen =
      (i + 1) * (SigmaSearch.ofMetadata elemSize m).graphSource.getReadBufferSize := by
  rw [destEnd, destStart, Nat.add_assoc, len_frontierRead_add elemSize h _ hstride, Nat.add_mul,
    Nat.one_mul]

theorem len_frontierRead_of_stride_eq_zero {elemSize : ℕ} {m : DiskIndexMetadata}
    (h : m.maxNodeLen ≠ 0) (id : ℕ)
    (hstride : (SigmaSearch.ofMetadata elemSize m).graphSource.getReadBufferSize = 0) :
    ((SigmaSearch.ofMetadata elemSize m).frontierRead id).len + sectorLen = 2 ^ 32 := by
  rw [stride_eq] at hstride
  rw [len_frontierRead elemSize h]
  unfold roundUp sectorLen at *
  omega

/-! ### Rounds -/

variable {δ : Type*} [LinearOrder δ]

/-- The states a run comes through, each before a round or at the end. -/
inductive Reached (disk : ℕ → List ℕ) (dist : ℕ → δ) (cache : Cache)
    (beamWidth ioLimit L start : ℕ) : BeamState δ → Prop
  | start : Reached disk dist cache beamWidth ioLimit L start (beamStart dist L start)
  | round {s : BeamState δ} (h : Reached disk dist cache beamWidth ioLimit L start s)
      (hne : s.traversal.retset.hasUnexpandedNode) (hios : s.numIos < ioLimit) :
      Reached disk dist cache beamWidth ioLimit L start (beamRound disk dist cache beamWidth s)

def roundReads (dist : ℕ → δ) (cache : Cache) (beamWidth : ℕ) (s : BeamState δ) : List ℕ :=
  (collect dist cache beamWidth beamWidth (s.traversal, [])).2

@[simp] theorem reads_beamRound (disk : ℕ → List ℕ) (dist : ℕ → δ) (cache : Cache) (beamWidth : ℕ)
    (s : BeamState δ) : (beamRound disk dist cache beamWidth s).reads =
      s.reads ++ roundReads dist cache beamWidth s := rfl

/-- A round that keeps to the scratch: every read ends inside the sectors, before the next
one starts, and no list that has been expanded is too long for the distances. -/
structure RoundSafe (S : SigmaSearch) (disk : ℕ → List ℕ) (dist : ℕ → δ) (cache : Cache)
    (beamWidth : ℕ) (s : BeamState δ) : Prop where
  inside : ∀ i < (roundReads dist cache beamWidth s).length,
    destEnd S (roundReads dist cache beamWidth s) i ≤ sectorScratchBytes
  disjoint : ∀ i j, i < j → j < (roundReads dist cache beamWidth s).length →
    destEnd S (roundReads dist cache beamWidth s) i ≤ destStart S j
  counts : ∀ id ∈ (beamRound disk dist cache beamWidth s).traversal.expanded,
    (cache.overlay disk id).length ≤ maxGraphDegree

/-- Lists as a graph source decodes them: 32-bit ids, as many as the degree at most. -/
structure Decodes (maxDegree : ℕ) (disk : ℕ → List ℕ) : Prop where
  length_le : ∀ id, (disk id).length ≤ maxDegree
  id_lt : ∀ id, ∀ w ∈ disk id, w < 2 ^ 32

theorem decodes_onDisk (s : DiskANNGraphSource) (file : List UInt8) :
    Decodes s.maxDegree ((diskANNSource s).onDisk file) where
  length_le id := (diskANNSource s).length_le id _
  id_lt id w hw := (Bytes.readCells_lt 4 _ _ w hw).trans_eq (by norm_num)

variable (δ) in
/-- No round of any search overruns the scratch, whatever the lists on disk, the cached ones
among them, the distances, the start, the size of the search list and the limit. -/
def ScratchSafe (beamWidth : ℕ) (S : SigmaSearch) : Prop :=
  ∀ disk, Decodes S.maxDegree disk → ∀ cache : Cache, cache.Agrees disk →
    ∀ (dist : ℕ → δ) (ioLimit L start : ℕ), 0 < L → start < 2 ^ 32 →
      ∀ s, Reached disk dist cache beamWidth ioLimit L start s →
        s.traversal.retset.hasUnexpandedNode → s.numIos < ioLimit →
          RoundSafe S disk dist cache beamWidth s

/-- How wide a frontier can be: with lists of one id it never grows. -/
def frontierWidth (beamWidth : ℕ) (S : SigmaSearch) : ℕ := if S.maxDegree ≤ 1 then 1 else beamWidth

/-- The degree fits the distances, and the strides of the widest frontier the sectors; of the
last stride one sector is not read. -/
structure ScratchFits (beamWidth : ℕ) (S : SigmaSearch) : Prop where
  maxDegree_le : S.maxDegree ≤ maxGraphDegree
  stride_ne : S.graphSource.getReadBufferSize ≠ 0
  strides_le : frontierWidth beamWidth S * S.graphSource.getReadBufferSize ≤
    sectorScratchBytes + sectorLen

/-! ### Runs that fit -/

section Fits

variable {disk : ℕ → List ℕ} {dist : ℕ → δ} {cache : Cache} {n beamWidth ioLimit L start : ℕ}
  {s : BeamState δ}

/-- The loop only comes through states that are reached. -/
theorem Reached.beamLoop (h : Reached disk dist cache beamWidth ioLimit L start s) (fuel : ℕ)
    {s' : BeamState δ} (hs : beamLoop disk dist cache beamWidth ioLimit fuel s = some s') :
    Reached disk dist cache beamWidth ioLimit L start s' := by
  induction fuel generalizing s with
  | zero => cases hs
  | succ fuel ih =>
    rw [Search.beamLoop] at hs
    split_ifs at hs with hc
    · exact ih (h.round hc.1 hc.2) hs
    · rwa [← Option.some.inj hs]

theorem Reached.readInv (h : Reached disk dist cache beamWidth ioLimit L start s) :
    ReadInv cache s := by
  induction h with
  | start => exact beamStart_readInv
  | round _ _ _ ih => exact (beamRound_readInv disk dist beamWidth ih).1

theorem Reached.beamInv (hdisk : ∀ u < n, ∀ w ∈ disk u, w < n) (hcache : cache.Agrees disk)
    (hL : 0 < L) (hstart : start < n) (h : Reached disk dist cache beamWidth ioLimit L start s) :
    BeamInv n disk dist L start s.traversal [] := by
  induction h with
  | start => exact beamStart_inv hL hstart
  | round _ _ _ ih => exact beamRound_inv hdisk hcache ih

/-- Each id that has been taken is the start or stands in the list of an expanded node. -/
theorem BeamInv.length_taken_le {t : Traversal δ} {pending : List ℕ} {d : ℕ}
    (h : BeamInv n disk dist L start t pending) (hd : ∀ id, (disk id).length ≤ d) :
    (t.expanded ++ pending).length ≤ 1 + t.expanded.length * d := by
  have hsub : (t.expanded ++ pending) ⊆ start :: t.expanded.flatMap disk := by
    intro v hv
    rcases h.reached v (h.tracks.sub hv) with rfl | ⟨u, hu, hvu⟩
    · exact List.mem_cons_self
    · exact List.mem_cons_of_mem _ (List.mem_flatMap.mpr ⟨u, hu, hvu⟩)
  have hsum : (t.expanded.flatMap disk).length ≤ t.expanded.length * d := by
    induction t.expanded with
    | nil => simp
    | cons u us ih =>
      have := hd u
      rw [List.flatMap_cons, List.length_append, List.length_cons, Nat.add_mul, Nat.one_mul]
      omega
  have hle := (List.subperm_of_subset h.nodup hsub).length_le
  rw [List.length_cons] at hle
  omega

omit [LinearOrder δ] in
/-- Where the cached lists are those on disk, the search expands with those on disk. -/
theorem Cache.Agrees.overlay_eq (h : cache.Agrees disk) (id : ℕ) :
    cache.overlay disk id = disk id := by
  unfold Cache.overlay
  cases hc : cache.neighbors id with
  | none => rfl
  | some nbrs => exact h id nbrs hc

theorem length_roundReads_le (h : ReadInv cache s) :
    (roundReads dist cache beamWidth s).length ≤ beamWidth :=
  (Waiting.collect dist beamWidth (h.waiting beamWidth)).width

/-- With lists of one id at most, a frontier has one node at most. -/
theorem length_roundReads_le_one (hdisk : ∀ u < n, ∀ w ∈ disk u, w < n)
    (hcache : cache.Agrees disk) (hd : ∀ id, (disk id).length ≤ 1)
    (h : BeamInv n disk dist L start s.traversal []) :
    (roundReads dist cache beamWidth s).length ≤ 1 := by
  have hinv := (collect_inv hdisk hcache beamWidth beamWidth (s := (s.traversal, [])) h).1
  have hle := hinv.length_taken_le hd
  rw [List.length_append] at hle
  unfold roundReads
  omega

end Fits

theorem scratchSafe_of_fits {beamWidth elemSize : ℕ} {m : DiskIndexMetadata}
    (hlen : m.maxNodeLen ≠ 0) (h : ScratchFits beamWidth (.ofMetadata elemSize m)) :
    ScratchSafe δ beamWidth (.ofMetadata elemSize m) := by
  intro disk hdec cache hcache dist ioLimit L start hL hstart s hs hne hios
  have hdisk : ∀ u < 2 ^ 32, ∀ w ∈ disk u, w < 2 ^ 32 := fun u _ => hdec.id_lt u
  have hinv := hs.beamInv hdisk hcache hL hstart
  have hwidth : (roundReads dist cache beamWidth s).length ≤
      frontierWidth beamWidth (.ofMetadata elemSize m) := by
    unfold frontierWidth
    split_ifs with hd
    · exact length_roundReads_le_one hdisk hcache (fun id => (hdec.length_le id).trans hd) hinv
    · exact length_roundReads_le hs.readInv
  have hend := destEnd_add elemSize hlen h.stride_ne (roundReads dist cache beamWidth s)
  have hstrides := h.strides_le
  generalize hS : SigmaSearch.ofMetadata elemSize m = S at *
  refine ⟨fun i hi => ?_, fun i j hij hj => ?_, fun id _ => ?_⟩
  · have hle : (i + 1) * S.graphSource.getReadBufferSize ≤
        frontierWidth beamWidth S * S.graphSource.getReadBufferSize :=
      Nat.mul_le_mul_right _ (by omega)
    have := hend i
    omega
  · have hle : (i + 1) * S.graphSource.getReadBufferSize ≤ j * S.graphSource.getReadBufferSize :=
      Nat.mul_le_mul_right _ hij
    have := hend i
    rw [destStart]
    omega
  · rw [hcache.overlay_eq]
    exact (hdec.length_le id).trans h.maxDegree_le

/-! ### Wide frontiers -/

section Wide

variable {disk : ℕ → List ℕ} {dist : ℕ → δ} {n beamWidth L start : ℕ} {t : Traversal δ}
  {pending : List ℕ}

theorem length_le_card {l V : List ℕ} (hl : l.Nodup) (hsub : l ⊆ V) :
    l.length ≤ V.toFinset.card := by
  rw [← List.toFinset_card_of_nodup hl]
  exact Finset.card_le_card fun v hv => List.mem_toFinset.mpr (hsub (List.mem_toFinset.mp hv))

theorem BeamInv.taken_le_card (h : BeamInv n disk dist L start t pending) :
    (t.expanded ++ pending).length ≤ t.visited.toFinset.card :=
  length_le_card h.nodup fun _ hv => h.tracks.sub hv

theorem BeamInv.card_le (h : BeamInv n disk dist L start t pending) :
    t.visited.toFinset.card ≤ n := by
  have hsub : t.visited.toFinset ⊆ Finset.range n := fun v hv =>
    Finset.mem_range.mpr (h.lt v (List.mem_toFinset.mp hv))
  simpa using Finset.card_le_card hsub

/-- A queue with room for every visited id has not lost the ones that are left. -/
theorem BeamInv.hasUnexpandedNode (h : BeamInv n disk dist L start t pending) (hL : n < L)
    (hleft : (t.expanded ++ pending).length < t.visited.toFinset.card) :
    t.retset.hasUnexpandedNode := by
  by_contra hne
  have hall := h.tracks.all_taken (Bool.eq_false_iff.mpr hne)
  have hids : (t.retset.data.map Neighbor.id).length ≤ t.visited.toFinset.card := by
    refine length_le_card h.tracks.nodup_ids fun v hv => ?_
    obtain ⟨m, hm, rfl⟩ := List.mem_map.mp hv
    exact h.tracks.mem hm
  have hsub : t.visited.toFinset ⊆ (t.expanded ++ pending).toFinset := by
    intro v hv
    by_cases hin : ∃ m ∈ t.retset.data, m.id = v
    · obtain ⟨m, hm, rfl⟩ := hin
      exact List.mem_toFinset.mpr (hall m hm).2
    · -- the list would be full
      have hfull := (h.tracks.out (List.mem_toFinset.mp hv) fun m hm hid => hin ⟨m, hm, hid⟩).1
      have hn := h.card_le
      rw [h.capacity] at hfull
      rw [List.length_map] at hids
      omega
  have := (Finset.card_le_card hsub).trans (List.toFinset_card_le _)
  omega

/-- Without a cache a step of the collecting loop moves one id to the frontier. -/
theorem collectStep_empty {s : Traversal δ × List ℕ} (h : BeamInv n disk dist L start s.1 s.2)
    (hne : s.1.retset.hasUnexpandedNode) :
    ∃ v q, collectStep dist Cache.empty s = ({ s.1 with retset := q }, s.2 ++ [v]) ∧
      BeamInv n disk dist L start { s.1 with retset := q } (s.2 ++ [v]) := by
  obtain ⟨m, hm, -, hinv⟩ := h.take hne
  refine ⟨m.id, (closestUnexpanded s.1.retset).2, ?_, hinv.perm ?_⟩
  · rw [collectStep, ← Prod.mk.eta (p := closestUnexpanded s.1.retset), hm]
    rfl
  · exact (List.perm_append_singleton m.id s.2).symm

variable (beamWidth) in
theorem collect_empty (hL : n < L) (fuel : ℕ) {s : Traversal δ × List ℕ} {k : ℕ}
    (h : BeamInv n disk dist L start s.1 s.2)
    (hk : (s.1.expanded ++ s.2).length + k ≤ s.1.visited.toFinset.card) (hfuel : k ≤ fuel)
    (hW : s.2.length + k ≤ beamWidth) :
    s.2.length + k ≤ (collect dist Cache.empty beamWidth fuel s).2.length ∧
      (collect dist Cache.empty beamWidth fuel s).1.visited = s.1.visited ∧
      (collect dist Cache.empty beamWidth fuel s).1.expanded = s.1.expanded := by
  induction fuel generalizing s k with
  | zero =>
    obtain rfl : k = 0 := Nat.le_zero.mp hfuel
    exact ⟨le_rfl, rfl, rfl⟩
  | succ fuel ih =>
    rw [collect]
    split_ifs with hc
    · obtain ⟨v, q, hstep, hinv⟩ := collectStep_empty h hc.1
      have htaken : s.1.expanded.length + (s.2.length + 1) ≤ s.1.visited.toFinset.card := by
        simpa using hinv.taken_le_card
      have hlen := hc.2
      rw [List.length_append] at hk
      have hk' : (s.1.expanded ++ (s.2 ++ [v])).length + (k - 1) ≤ s.1.visited.toFinset.card := by
        simp only [List.length_append, List.length_singleton]
        omega
      have hW' : (s.2 ++ [v]).length + (k - 1) ≤ beamWidth := by
        simp only [List.length_append, List.length_singleton]
        omega
      obtain ⟨hle, hvisited, hexpanded⟩ :=
        ih (s := ({ s.1 with retset := q }, s.2 ++ [v])) hinv hk' (by omega) hW'
      rw [hstep]
      refine ⟨le_trans ?_ hle, hvisited, hexpanded⟩
      rw [List.length_append, List.length_singleton]
      omega
    · refine ⟨?_, rfl, rfl⟩
      by_contra hlt
      exact hc ⟨h.hasUnexpandedNode hL (by omega), by omega⟩

end Wide

/-! ### A tree -/

/-- A binary tree of 1023 nodes. -/
def tree (v : ℕ) : List ℕ := if v < 511 then [2 * v + 1, 2 * v + 2] else []

theorem length_tree_le (v : ℕ) : (tree v).length ≤ 2 := by
  unfold tree
  split_ifs <;> simp

theorem mem_tree {v w : ℕ} : w ∈ tree v ↔ v < 511 ∧ (w = 2 * v + 1 ∨ w = 2 * v + 2) := by
  unfold tree
  split_ifs with h <;> simp [h]

theorem tree_lt {v w : ℕ} (h : w ∈ tree v) : w < 1023 := by
  obtain ⟨hv, hw⟩ := mem_tree.mp h
  omega

section Tree

variable {dist : ℕ → δ} {beamWidth : ℕ} {s : BeamState δ}

theorem Reached.treeInv (h : Reached tree dist Cache.empty beamWidth 2048 2048 0 s) :
    BeamInv 1023 tree dist 2048 0 s.traversal [] :=
  h.beamInv (fun _ _ _ hw => tree_lt hw) (Cache.empty_agrees tree) (by decide) (by decide)

/-- Expanded inner nodes have brought two ids each. -/
theorem card_visited_tree {t : Traversal δ} {pending : List ℕ}
    (h : BeamInv 1023 tree dist 2048 0 t pending) (hin : ∀ v ∈ t.expanded, v < 511) :
    2 * t.expanded.length + 1 ≤ t.visited.toFinset.card := by
  have hnodup : t.expanded.Nodup := (List.nodup_append.mp h.nodup).1
  have hlist : (0 :: (t.expanded.map (2 * · + 1) ++ t.expanded.map (2 * · + 2))).Nodup := by
    refine List.nodup_cons.mpr ⟨by simp, List.nodup_append.mpr ⟨?_, ?_, ?_⟩⟩
    · exact hnodup.map fun a b hab => by simpa using hab
    · exact hnodup.map fun a b hab => by simpa using hab
    · intro a ha b hb
      obtain ⟨u, -, rfl⟩ := List.mem_map.mp ha
      obtain ⟨w, -, rfl⟩ := List.mem_map.mp hb
      omega
  have hsub : (0 :: (t.expanded.map (2 * · + 1) ++ t.expanded.map (2 * · + 2))) ⊆ t.visited := by
    intro v hv
    rcases List.mem_cons.mp hv with rfl | hv
    · exact h.start_mem
    rcases List.mem_append.mp hv with hv | hv
    · obtain ⟨u, hu, rfl⟩ := List.mem_map.mp hv
      exact h.closed u hu _ (mem_tree.mpr ⟨hin u hu, .inl rfl⟩)
    · obtain ⟨u, hu, rfl⟩ := List.mem_map.mp hv
      exact h.closed u hu _ (mem_tree.mpr ⟨hin u hu, .inr rfl⟩)
  have hle := length_le_card hlist hsub
  simp only [List.length_cons, List.length_append, List.length_map] at hle
  omega

/-- A state before a round in the inner part of the tree: there is an id to expand more
than have been expanded. -/
theorem Reached.tree_round (h : Reached tree dist Cache.empty beamWidth 2048 2048 0 s)
    (hin : ∀ v ∈ s.traversal.visited, v < 511) :
    s.traversal.retset.hasUnexpandedNode ∧ s.numIos < 2048 ∧
      ∀ k ≤ s.traversal.expanded.length + 1, k ≤ beamWidth →
        k ≤ (roundReads dist Cache.empty beamWidth s).length ∧
        (beamRound tree dist Cache.empty beamWidth s).traversal.expanded =
          s.traversal.expanded ++ roundReads dist Cache.empty beamWidth s ∧
        ∀ v ∈ roundReads dist Cache.empty beamWidth s, v ∈ s.traversal.visited := by
  have hinv := h.treeInv
  have hexp : ∀ v ∈ s.traversal.expanded, v ∈ s.traversal.visited := fun v hv =>
    hinv.tracks.sub (List.mem_append_left _ hv)
  have hcard := card_visited_tree hinv fun v hv => hin v (hexp v hv)
  refine ⟨hinv.hasUnexpandedNode (by decide) ?_, ?_, fun k hk hW => ?_⟩
  · rw [List.append_nil]
    omega
  · have hreads : s.reads.length ≤ s.traversal.expanded.length := by
      rw [← h.readInv.once.reads_eq]
      exact List.length_filter_le _ _
    have hexpanded := hinv.length_le
    have hmod := Nat.mod_le s.reads.length (2 ^ 32)
    rw [← h.readInv.numIos_eq] at hmod
    omega
  · obtain ⟨hle, hvisited, hexpanded⟩ := collect_empty beamWidth (k := k)
      (by decide) beamWidth (s := (s.traversal, [])) hinv
      (by rw [List.append_nil]; dsimp only; omega) hW (by simpa using hW)
    have hcol := (collect_inv (fun _ _ _ hw => tree_lt hw) (Cache.empty_agrees tree) beamWidth
      beamWidth (s := (s.traversal, [])) hinv).1
    refine ⟨by simpa [roundReads] using hle, ?_, fun v hv => ?_⟩
    · have hround := (expandFrontier_inv (fun _ _ _ hw => tree_lt hw) hcol).2
      rw [hexpanded] at hround
      exact hround
    · have := hcol.tracks.sub (List.mem_append_right _ hv)
      rwa [Set.mem_ofPred_eq, hvisited] at this

variable (dist) in
/-- As long as the frontier is not as wide as asked for, the next state has expanded twice as
many nodes, and is one level further down. -/
theorem tree_wide_or_deep {f : ℕ} (hf : f ≤ beamWidth) {r : ℕ} (hr : r ≤ 8) :
    (∃ s : BeamState δ, Reached tree dist Cache.empty beamWidth 2048 2048 0 s ∧
        s.traversal.retset.hasUnexpandedNode ∧ s.numIos < 2048 ∧
        f ≤ (roundReads dist Cache.empty beamWidth s).length) ∨
      ∃ s : BeamState δ, Reached tree dist Cache.empty beamWidth 2048 2048 0 s ∧
        (∀ v ∈ s.traversal.visited, v + 1 < 2 ^ (r + 1)) ∧
        2 ^ r ≤ s.traversal.expanded.length + 1 := by
  induction r with
  | zero =>
    refine .inr ⟨_, .start, fun v hv => ?_, le_rfl⟩
    obtain rfl : v = 0 := List.mem_singleton.mp hv
    decide
  | succ r ih =>
    rcases ih (by omega) with hwide | ⟨s, hs, hlevel, hcount⟩
    · exact .inl hwide
    have hpow : 2 ^ (r + 1) ≤ 2 ^ 8 := Nat.pow_le_pow_right (by decide) hr
    obtain ⟨hne, hios, hround⟩ := hs.tree_round fun v hv => by
      have := hlevel v hv
      omega
    rcases Nat.lt_or_ge (s.traversal.expanded.length + 1) f with hlt | hge
    · obtain ⟨hle, hexpanded, hreads⟩ := hround _ le_rfl (by omega)
      have hs' := hs.round hne hios
      refine .inr ⟨_, hs', fun v hv => ?_, ?_⟩
      · rw [Nat.pow_succ]
        rcases hs'.treeInv.reached v hv with rfl | ⟨u, hu, hvu⟩
        · have := Nat.two_pow_pos (r + 1)
          omega
        · have hu' : u ∈ s.traversal.visited := by
            rw [hexpanded] at hu
            rcases List.mem_append.mp hu with hu | hu
            · exact hs.treeInv.tracks.sub (List.mem_append_left _ hu)
            · exact hreads u hu
          have := hlevel u hu'
          have := (mem_tree.mp hvu).2
          omega
      · rw [hexpanded, List.length_append, Nat.pow_succ]
        omega
    · exact .inl ⟨s, hs, hne, hios, (hround f hge hf).1⟩

/-- Some frontier is as wide as the beam, up to 256 nodes. -/
theorem exists_wide_round (dist : ℕ → δ) {f : ℕ} (hf : f ≤ beamWidth) (h256 : f ≤ 256) :
    ∃ s : BeamState δ, Reached tree dist Cache.empty beamWidth 2048 2048 0 s ∧
      s.traversal.retset.hasUnexpandedNode ∧ s.numIos < 2048 ∧
      f ≤ (roundReads dist Cache.empty beamWidth s).length := by
  rcases tree_wide_or_deep dist hf le_rfl with hwide | ⟨s, hs, hlevel, hcount⟩
  · exact hwide
  · obtain ⟨hne, hios, hround⟩ := hs.tree_round fun v hv => by
      have := hlevel v hv
      omega
    exact ⟨s, hs, hne, hios, (hround f (by omega) hf).1⟩

end Tree

/-! ### The scratch and the metadata -/

section Exact

variable {beamWidth elemSize : ℕ} {m : DiskIndexMetadata}

theorem first_round (dist : ℕ → δ) (hW : beamWidth ≠ 0) (d : ℕ) :
    (beamStart dist 2 0).traversal.retset.hasUnexpandedNode ∧
      1 ≤ (roundReads dist Cache.empty beamWidth (beamStart dist 2 0)).length ∧
      0 ∈ (beamRound (fun _ => List.replicate d 0) dist Cache.empty beamWidth
        (beamStart dist 2 0)).traversal.expanded := by
  have hdisk : ∀ u < 1, ∀ w ∈ List.replicate d 0, w < 1 := fun _ _ w hw => by
    rw [List.eq_of_mem_replicate hw]
    decide
  have hinv : BeamInv 1 (fun _ => List.replicate d 0) dist 2 0 (beamStart dist 2 0).traversal [] :=
    beamStart_inv (by decide) (by decide)
  have hcard : (beamStart dist 2 0).traversal.visited.toFinset.card = 1 := rfl
  have hexp : (beamStart dist 2 0).traversal.expanded = [] := rfl
  have hne := hinv.hasUnexpandedNode (by decide) (by rw [hcard, hexp]; decide)
  have hpos := Nat.pos_of_ne_zero hW
  obtain ⟨hle, -, hexpanded⟩ := collect_empty beamWidth (k := 1)
    (by decide) beamWidth (s := ((beamStart dist 2 0).traversal, [])) hinv
    (by rw [List.append_nil]; exact le_rfl) hpos (by rw [List.length_nil]; omega)
  have hcol := (collect_inv hdisk (Cache.empty_agrees _) beamWidth beamWidth
    (s := ((beamStart dist 2 0).traversal, [])) hinv).1
  have hround := (expandFrontier_inv hdisk hcol).2
  have hread : 1 ≤ (roundReads dist Cache.empty beamWidth (beamStart dist 2 0)).length := by
    simpa [roundReads] using hle
  refine ⟨hne, hread, ?_⟩
  obtain ⟨v, hv⟩ := List.exists_mem_of_length_pos hread
  obtain rfl : v = 0 := Nat.lt_one_iff.mp (hcol.lt v (hcol.tracks.sub (List.mem_append_right _ hv)))
  exact hround ▸ List.mem_append_right _ hv

theorem RoundSafe.strides_le {disk : ℕ → List ℕ} {dist : ℕ → δ} {cache : Cache} {s : BeamState δ}
    (h : RoundSafe (.ofMetadata elemSize m) disk dist cache beamWidth s) (hlen : m.maxNodeLen ≠ 0)
    (hstride : (SigmaSearch.ofMetadata elemSize m).graphSource.getReadBufferSize ≠ 0) {f : ℕ}
    (hf : f ≤ (roundReads dist cache beamWidth s).length) :
    f * (SigmaSearch.ofMetadata elemSize m).graphSource.getReadBufferSize ≤
      sectorScratchBytes + sectorLen := by
  cases f with
  | zero =>
    rw [Nat.zero_mul]
    exact Nat.zero_le _
  | succ i =>
    rw [← destEnd_add elemSize hlen hstride (roundReads dist cache beamWidth s)]
    exact Nat.add_le_add_right (h.inside i hf) sectorLen

/-- 130 strides are too many, however short they are. -/
theorem strides_le_of_min (hlen : m.maxNodeLen ≠ 0)
    (hstride : (SigmaSearch.ofMetadata elemSize m).graphSource.getReadBufferSize ≠ 0)
    (h : min beamWidth 130 * (SigmaSearch.ofMetadata elemSize m).graphSource.getReadBufferSize ≤
      sectorScratchBytes + sectorLen) :
    beamWidth * (SigmaSearch.ofMetadata elemSize m).graphSource.getReadBufferSize ≤
      sectorScratchBytes + sectorLen := by
  have hsector : sectorLen ≤ (SigmaSearch.ofMetadata elemSize m).graphSource.getReadBufferSize :=
    Nat.le.intro ((Nat.add_comm ..).trans (len_frontierRead_add elemSize hlen 0 hstride))
  rcases Nat.le_total beamWidth 130 with hle | hle
  · rw [Nat.min_eq_left hle] at h
    exact h
  · rw [Nat.min_eq_right hle] at h
    have hall : 130 * sectorLen ≤ sectorScratchBytes + sectorLen :=
      (Nat.mul_le_mul_left 130 hsector).trans h
    norm_num [sectorLen, sectorScratchBytes] at hall

theorem fits_of_scratchSafe [Nonempty δ] (hW : beamWidth ≠ 0) (hlen : m.maxNodeLen ≠ 0)
    (h : ScratchSafe δ beamWidth (.ofMetadata elemSize m)) :
    ScratchFits beamWidth (.ofMetadata elemSize m) := by
  obtain ⟨d₀⟩ := ‹Nonempty δ›
  -- the first round, whose start has a list as long as the degree allows
  have hfirst : ∀ d ≤ (SigmaSearch.ofMetadata elemSize m).maxDegree,
      RoundSafe (.ofMetadata elemSize m) (fun _ => List.replicate d 0) (fun _ => d₀) Cache.empty
        beamWidth (beamStart (fun _ => d₀) 2 0) := fun d hd =>
    h _ ⟨fun _ => by simpa using hd, fun _ w hw => by
      rw [List.eq_of_mem_replicate hw]
      exact Bytes.zero_lt_word⟩ Cache.empty (Cache.empty_agrees _) _ 1 2 0 (by decide)
      Bytes.zero_lt_word _ .start (first_round _ hW d).1 Nat.one_pos
  have hstride : (SigmaSearch.ofMetadata elemSize m).graphSource.getReadBufferSize ≠ 0 := by
    intro hzero
    have hread := (hfirst 0 (Nat.zero_le _)).inside 0 (first_round _ hW 0).2.1
    have hlen := len_frontierRead_of_stride_eq_zero hlen ((roundReads (fun _ => d₀) Cache.empty
      beamWidth (beamStart (fun _ => d₀) 2 0)).getD 0 0) hzero
    rw [destEnd, destStart, Nat.zero_mul, Nat.zero_add] at hread
    unfold sectorScratchBytes at hread
    unfold sectorLen at hlen
    omega
  refine ⟨?degree, hstride, ?strides⟩
  case degree =>
    have := (hfirst _ le_rfl).counts 0 (first_round _ hW _).2.2
    rwa [(Cache.empty_agrees _).overlay_eq, List.length_replicate] at this
  case strides =>
    unfold frontierWidth
    split_ifs with hd
    · exact (hfirst 0 (Nat.zero_le _)).strides_le hlen hstride (first_round _ hW 0).2.1
    · obtain ⟨s, hs, hne, hios, hwide⟩ := exists_wide_round (fun _ => d₀) (f := min beamWidth 130)
        (Nat.min_le_left _ _) (by omega)
      have hsafe := h tree ⟨fun v => (length_tree_le v).trans (by omega), fun v w hw =>
        (tree_lt hw).trans (by decide)⟩ Cache.empty (Cache.empty_agrees tree) _ 2048 2048 0
        (by decide) Bytes.zero_lt_word s hs hne hios
      exact strides_le_of_min hlen hstride (hsafe.strides_le hlen hstride hwide)

end Exact

/-- For metadata the loader accepts and a beam width that is not zero, no search overruns
its scratch exactly when the degree and the strides of the widest frontier fit it. -/
theorem scratchSafe_iff [Nonempty δ] {beamWidth : ℕ} (hW : beamWidth ≠ 0) (elemSize : ℕ)
    {file : List UInt8} {m : DiskIndexMetadata} (h : loadDiskIndexMetadata file = .ok m) :
    ScratchSafe δ beamWidth (.ofMetadata elemSize m) ↔
      ScratchFits beamWidth (.ofMetadata elemSize m) := by
  have hlen := (accepted_of_load h).maxNodeLen_ne
  exact ⟨fits_of_scratchSafe hW hlen, scratchSafe_of_fits hlen⟩

/-- A safe search on a disk index, with any cache that has been loaded from it. -/
theorem ScratchSafe.onDisk {beamWidth elemSize : ℕ} {m : DiskIndexMetadata}
    (h : ScratchSafe δ beamWidth (.ofMetadata elemSize m)) (file : List UInt8) {cache : Cache}
    {ids : List ℕ}
    (hcache : cache.LoadedFrom
      ((diskANNSource (SigmaSearch.ofMetadata elemSize m).graphSource).onDisk file) ids)
    {dist : ℕ → δ} {ioLimit L start : ℕ} (hL : 0 < L) (hstart : start < 2 ^ 32) {s : BeamState δ}
    (hs : Reached ((diskANNSource (SigmaSearch.ofMetadata elemSize m).graphSource).onDisk file)
      dist cache beamWidth ioLimit L start s)
    (hne : s.traversal.retset.hasUnexpandedNode) (hios : s.numIos < ioLimit) :
    RoundSafe (.ofMetadata elemSize m)
      ((diskANNSource (SigmaSearch.ofMetadata elemSize m).graphSource).onDisk file)
      dist cache beamWidth s :=
  h _ (decodes_onDisk (SigmaSearch.ofMetadata elemSize m).graphSource file) cache hcache.agrees
    dist ioLimit L start hL hstart s hs hne hios

/-- Records of a float and two ids, four at a time. -/
theorem scratchSafe_line : ScratchSafe ℕ 4 (.ofMetadata 4 (line 1023 16)) :=
  (scratchSafe_iff (by decide) 4
    (rfl : loadDiskIndexMetadata (lineFile 1023 16) = .ok (line 1023 16))).mpr
    ⟨by decide, by decide, by decide⟩

/-- A beam width of 65 is accepted, and 65 strides of two sectors are too many. -/
theorem not_scratchSafe_line : loadDiskIndexMetadata (lineFile 1023 16) = .ok (line 1023 16) ∧
    ¬ ScratchSafe ℕ 65 (.ofMetadata 4 (line 1023 16)) := by
  refine ⟨rfl, fun h => ?_⟩
  have hfits := fits_of_scratchSafe (by decide) (by decide) h
  exact absurd hfits.strides_le (by decide)

end HiDANN.Search
