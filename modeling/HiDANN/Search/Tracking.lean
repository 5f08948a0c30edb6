import HiDANN.Search.Queue
import Mathlib.Data.Set.Image

/-! The queue of a graph search. Every id is offered with its distance to the
query; `Tracks` ties the queue to the set of ids offered so far, of which it
holds the smallest, and to the set of ids expanded so far. Both in-memory search
and disk search keep it, whatever the order in which they offer ids. -/

namespace HiDANN.Search

open NeighborPriorityQueue

variable {δ : Type*} [LinearOrder δ]

def candidate (dist : ℕ → δ) (v : ℕ) : Neighbor δ := ⟨v, dist v, false⟩

/-- The order of the candidates. -/
def rank (dist : ℕ → δ) (v : ℕ) : δ ×ₗ ℕ := toLex (dist v, v)

omit [LinearOrder δ] in
theorem rank_inj {dist : ℕ → δ} {v w : ℕ} : rank dist v = rank dist w ↔ v = w := by
  constructor
  · intro h
    exact (Prod.mk.inj (toLex_inj.mp h)).2
  · rintro rfl
    rfl

/-- The queue holds the smallest of the offered ids; an element is marked
expanded exactly when its id has been taken. -/
structure Tracks (dist : ℕ → δ) (q : NeighborPriorityQueue δ) (V E : Set ℕ) : Prop where
  valid : q.Valid
  smallest : Smallest q.capacity (rank dist '' V) q.keys
  dist_eq : ∀ m ∈ q.data, m.distance = dist m.id
  taken : ∀ m ∈ q.data, m.expanded = true ↔ m.id ∈ E
  sub : E ⊆ V

namespace Tracks

variable {dist : ℕ → δ} {q : NeighborPriorityQueue δ} {V E : Set ℕ}

theorem empty {L : ℕ} (hL : 0 < L) : Tracks dist (NeighborPriorityQueue.empty L) ∅ ∅ where
  valid := empty_valid hL
  smallest := by rw [Set.image_empty]; exact Smallest.nil L
  dist_eq := by simp [NeighborPriorityQueue.empty]
  taken := by simp [NeighborPriorityQueue.empty]
  sub := Set.Subset.rfl

theorem mem (h : Tracks dist q V E) {m : Neighbor δ} (hm : m ∈ q.data) : m.id ∈ V := by
  obtain ⟨v, hv, he⟩ := h.smallest.mem _ (List.mem_map_of_mem (f := Neighbor.key) hm)
  rw [Neighbor.key, h.dist_eq m hm] at he
  rwa [← rank_inj.mp he]

theorem key_eq (h : Tracks dist q V E) {m : Neighbor δ} (hm : m ∈ q.data) :
    m.key = rank dist m.id := by
  rw [Neighbor.key, h.dist_eq m hm, rank]

theorem nodup_ids (h : Tracks dist q V E) : (q.data.map Neighbor.id).Nodup := by
  have hranks : q.keys = (q.data.map Neighbor.id).map (rank dist) := by
    rw [keys, List.map_map]
    exact List.map_congr_left fun m hm => h.key_eq hm
  refine List.Nodup.of_map (rank dist) ?_
  rw [← hranks]
  exact h.valid.sorted.imp fun hlt => ne_of_lt hlt

/-- An offered id that is not in the list is beyond a full list. -/
theorem out (h : Tracks dist q V E) {v : ℕ} (hv : v ∈ V) (hout : ∀ m ∈ q.data, m.id ≠ v) :
    q.data.length = q.capacity ∧ ∀ m ∈ q.data, rank dist m.id < rank dist v := by
  have hkey : rank dist v ∉ q.keys := by
    intro hk
    obtain ⟨m, hm, he⟩ := List.mem_map.mp hk
    rw [h.key_eq hm] at he
    exact hout m hm (rank_inj.mp he)
  obtain ⟨hfull, hlt⟩ := h.smallest.out _ (Set.mem_image_of_mem _ hv) hkey
  refine ⟨by simpa [keys] using hfull, fun m hm => ?_⟩
  rw [← h.key_eq hm]
  exact hlt _ (List.mem_map_of_mem hm)

/-- Offering an id once more changes nothing. -/
theorem insert_mem (h : Tracks dist q V E) {v : ℕ} (hv : v ∈ V) :
    q.insert (candidate dist v) = q := by
  rcases insert_cases h.valid (candidate dist v) with ⟨he, -⟩ | ⟨he, -⟩ | ⟨p, hs, hp, -⟩
  · exact he
  · exact he
  · exfalso
    by_cases hin : ∃ m ∈ q.data, m.id = v
    · -- its key would be above or below itself
      obtain ⟨m, hm, rfl⟩ := hin
      have hk : (candidate dist m.id).key ∈ q.data.map Neighbor.key := by
        rw [show (candidate dist m.id).key = m.key from (h.key_eq hm).symm]
        exact List.mem_map_of_mem hm
      rw [← List.take_append_drop p (q.data.map Neighbor.key), List.mem_append] at hk
      rcases hk with hk | hk
      · exact lt_irrefl _ (hs.below _ hk)
      · exact lt_irrefl _ (hs.above _ hk)
    · obtain ⟨hfull, hlt⟩ := h.out hv (fun m hm hid => hin ⟨m, hm, hid⟩)
      have hp' : p < q.data.length := by omega
      have habove := hs.above q.data[p].key (by
        rw [← List.map_drop, List.drop_eq_getElem_cons hp']
        exact List.mem_cons_self)
      rw [h.key_eq (List.getElem_mem hp')] at habove
      exact lt_asymm habove (hlt _ (List.getElem_mem hp'))

theorem insert (h : Tracks dist q V E) (v : ℕ) :
    Tracks dist (q.insert (candidate dist v)) (Insert.insert v V) E := by
  by_cases hv : v ∈ V
  · rwa [h.insert_mem hv, Set.insert_eq_of_mem hv]
  have hvE : v ∉ E := fun hE => hv (h.sub hE)
  have hid : ∀ m ∈ q.data, m.id ≠ v := fun m hm he => hv (he ▸ h.mem hm)
  refine ⟨insert_valid h.valid _, ?_, fun m hm => ?_, fun m hm => ?_,
    h.sub.trans (Set.subset_insert _ _)⟩
  · have := insert_smallest (candidate dist v) h.valid h.smallest
      (fun m hm he => absurd he (hid m hm))
    rwa [insert_capacity, Set.image_insert_eq]
  · rcases mem_insert hm with hm | rfl
    · exact h.dist_eq m hm
    · rfl
  · rcases mem_insert hm with hm | rfl
    · exact h.taken m hm
    · simpa [candidate] using hvE

theorem insertAll (h : Tracks dist q V E) (ids : List ℕ) :
    Tracks dist (ids.foldl (fun q v => q.insert (candidate dist v)) q) (V ∪ {v | v ∈ ids}) E := by
  induction ids generalizing q V with
  | nil => simpa using h
  | cons v ids ih =>
    have := ih (h.insert v)
    rw [List.foldl_cons]
    convert this using 1
    ext w
    simp only [Set.mem_union, Set.mem_ofPred_eq, List.mem_cons, Set.mem_insert_iff]
    tauto

/-- Taking the closest unexpanded element: an id not taken before. -/
theorem take (h : Tracks dist q V E) (hne : q.hasUnexpandedNode) :
    ∃ m, (closestUnexpanded q).1 = some m ∧ m.id ∈ V ∧ m.id ∉ E ∧ m.distance = dist m.id ∧
      Tracks dist (closestUnexpanded q).2 V (Insert.insert m.id E) := by
  obtain ⟨m, hget, hexp, h1, hdata, hcap, hkeys, hvalid⟩ := closestUnexpanded_spec h.valid hne
  obtain ⟨hi, hgi⟩ := List.getElem?_eq_some_iff.mp hget
  have hm : m ∈ q.data := List.mem_of_getElem? hget
  have hmE : m.id ∉ E := by
    rw [← h.taken m hm, hexp]
    simp
  have hmV := h.mem hm
  refine ⟨_, h1, hmV, hmE, h.dist_eq m hm, hvalid, ?_, ?_, ?_, ?_⟩
  · rw [hcap, hkeys]
    exact h.smallest
  · intro m' hm'
    rw [hdata] at hm'
    rcases List.mem_or_eq_of_mem_set hm' with hm' | rfl
    · exact h.dist_eq m' hm'
    · exact h.dist_eq m hm
  · intro m' hm'
    rw [hdata] at hm'
    obtain ⟨j, hj, rfl⟩ := List.mem_iff_getElem.mp hm'
    rw [List.getElem_set]
    split_ifs with hij
    · simp
    · -- another element has another id
      have hj' : j < q.data.length := by simpa using hj
      have hne' : q.data[j].id ≠ m.id := by
        intro he
        have hnd : q.keys.Nodup := h.valid.sorted.imp fun hlt => ne_of_lt hlt
        apply hij
        refine (@List.Nodup.getElem_inj_iff _ _ hnd _ (by simpa [keys] using hi) _
          (by simpa [keys] using hj')).mp ?_
        simp only [keys, List.getElem_map, hgi]
        rw [h.key_eq hm, h.key_eq (List.getElem_mem hj'), he]
      rw [h.taken _ (List.getElem_mem hj'), Set.mem_insert_iff]
      simp [hne']
  · rw [Set.insert_subset_iff]
    exact ⟨hmV, h.sub⟩

/-- When nothing is left to expand, the whole list has been taken. -/
theorem all_taken (h : Tracks dist q V E) (hne : q.hasUnexpandedNode = false) :
    ∀ m ∈ q.data, m.expanded = true ∧ m.id ∈ E := by
  intro m hm
  have hcur : q.data.length ≤ q.cur := Nat.le_of_not_lt (of_decide_eq_false hne)
  have := h.valid.before m (by rwa [List.take_of_length_le hcur])
  exact ⟨this, (h.taken m hm).mp this⟩

end Tracks

end HiDANN.Search
