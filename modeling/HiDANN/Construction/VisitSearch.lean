import HiDANN.Search.Tracking
import Mathlib.Algebra.Order.Ring.Nat
import Mathlib.Data.Finset.Card
import Mathlib.Data.Finset.Range

/-! `iterate_to_fixed_point_emit`: the best-first search of one partition's graph
that exports every node it expands, in the order of expansion. Distances are
those of one query. The search expands no node twice, so on a graph of `n` nodes
it stops after at most `n` expansions, with its whole list expanded. -/

namespace HiDANN.Construction

open Search NeighborPriorityQueue

/-- The queue, the ids offered to it, the exported ids with their distances, and
the two 32-bit counters of the result. -/
structure Emit (δ : Type*) where
  bestL : NeighborPriorityQueue δ
  inserted : List ℕ
  out : List (ℕ × δ)
  hops : ℕ
  cmps : ℕ

variable {δ : Type*} [LinearOrder δ]

/-- Offer the ids that have not been offered before, as `id_scratch` collects
them: an id twice in the list is collected twice. -/
def offer (dist : ℕ → δ) (st : Emit δ) (ids : List ℕ) : Emit δ :=
  let scratch := ids.filter fun v => v ∉ st.inserted
  { st with
    bestL := scratch.foldl (fun q v => q.insert (candidate dist v)) st.bestL
    inserted := st.inserted ++ scratch
    cmps := (st.cmps + scratch.length) % 2 ^ 32 }

/-- The initial ids, each offered on its own and not counted. -/
def emitStart (dist : ℕ → δ) (L : ℕ) (initIds : List ℕ) : Emit δ :=
  initIds.foldl (fun st v => { offer dist st [v] with cmps := 0 }) ⟨empty L, [], [], 0, 0⟩

def emitStep (graph : ℕ → List ℕ) (dist : ℕ → δ) (st : Emit δ) : Emit δ :=
  match st.bestL.closestUnexpanded with
  | (none, _) => st
  | (some cur, q) =>
    offer dist
      { st with bestL := q, out := st.out ++ [(cur.id, cur.distance)], hops := (st.hops + 1) % 2 ^ 32 }
      (graph cur.id)

def emitLoop (graph : ℕ → List ℕ) (dist : ℕ → δ) : ℕ → Emit δ → Emit δ
  | 0, st => st
  | fuel + 1, st =>
    if st.bestL.hasUnexpandedNode then emitLoop graph dist fuel (emitStep graph dist st) else st

/-- `iterate_to_fixed_point_emit` on a graph of `n` nodes. -/
def iterateToFixedPointEmit (n : ℕ) (graph : ℕ → List ℕ) (dist : ℕ → δ) (L : ℕ)
    (initIds : List ℕ) : Emit δ :=
  emitLoop graph dist n (emitStart dist L initIds)

/-- What holds in every round: the queue tracks the offered ids and the exported
ones, and no id has been exported twice. -/
structure EmitInv (n : ℕ) (dist : ℕ → δ) (L : ℕ) (st : Emit δ) : Prop where
  tracks : Tracks dist st.bestL {v | v ∈ st.inserted} {v | v ∈ st.out.map Prod.fst}
  capacity : st.bestL.capacity = L
  nodup : (st.out.map Prod.fst).Nodup
  dist_eq : ∀ p ∈ st.out, p.2 = dist p.1
  lt : ∀ v ∈ st.inserted, v < n

variable {n L : ℕ} {graph : ℕ → List ℕ} {dist : ℕ → δ} {st : Emit δ} {initIds : List ℕ}

theorem foldl_insert_capacity (q : NeighborPriorityQueue δ) (ids : List ℕ) :
    (ids.foldl (fun q v => q.insert (candidate dist v)) q).capacity = q.capacity := by
  induction ids generalizing q with
  | nil => rfl
  | cons v ids ih => rw [List.foldl_cons, ih, insert_capacity]

/-- Offering ids keeps the queue in step with what has been offered. -/
theorem offer_tracks {E : Set ℕ} (h : Tracks dist st.bestL {v | v ∈ st.inserted} E)
    (ids : List ℕ) :
    Tracks dist (offer dist st ids).bestL {v | v ∈ (offer dist st ids).inserted} E := by
  have hset : {v | v ∈ (offer dist st ids).inserted} =
      {v | v ∈ st.inserted} ∪ {v | v ∈ ids.filter fun v => v ∉ st.inserted} := by
    ext v
    exact List.mem_append
  rw [hset]
  exact h.insertAll _

theorem EmitInv.offer (h : EmitInv n dist L st) {ids : List ℕ} (hids : ∀ v ∈ ids, v < n) :
    EmitInv n dist L (offer dist st ids) where
  tracks := offer_tracks h.tracks ids
  capacity := (foldl_insert_capacity _ _).trans h.capacity
  nodup := h.nodup
  dist_eq := h.dist_eq
  lt v hv := by
    rcases List.mem_append.mp hv with hv | hv
    · exact h.lt v hv
    · exact hids v (List.mem_of_mem_filter hv)

theorem emitStart_inv (hL : 0 < L) (hinit : ∀ v ∈ initIds, v < n) :
    EmitInv n dist L (emitStart dist L initIds) := by
  have h0 : EmitInv n dist L (⟨empty L, [], [], 0, 0⟩ : Emit δ) :=
    ⟨by simpa using Tracks.empty hL, rfl, by simp, by simp, by simp⟩
  unfold emitStart
  generalize (⟨empty L, [], [], 0, 0⟩ : Emit δ) = st at h0
  induction initIds generalizing st with
  | nil => exact h0
  | cons v ids ih =>
    have hlt : ∀ w ∈ [v], w < n := by simpa using hinit v (by simp)
    have hv := h0.offer hlt
    exact ih (fun w hw => hinit w (by simp [hw])) _
      ⟨hv.tracks, hv.capacity, hv.nodup, hv.dist_eq, hv.lt⟩

/-- One round exports an id that has not been exported before. -/
theorem EmitInv.step (h : EmitInv n dist L st) (hg : ∀ v < n, ∀ w ∈ graph v, w < n)
    (hne : st.bestL.hasUnexpandedNode) :
    EmitInv n dist L (emitStep graph dist st) ∧
      (emitStep graph dist st).out.length = st.out.length + 1 := by
  obtain ⟨m, h1, hV, hE, hd, ht⟩ := h.tracks.take hne
  have hcap : (closestUnexpanded st.bestL).2.capacity = L := by
    obtain ⟨_, -, -, -, -, hc, -⟩ := closestUnexpanded_spec h.tracks.valid hne
    rw [hc, h.capacity]
  have heq : emitStep graph dist st = Construction.offer dist
      { st with
        bestL := (closestUnexpanded st.bestL).2
        out := st.out ++ [(m.id, m.distance)]
        hops := (st.hops + 1) % 2 ^ 32 } (graph m.id) := by
    rw [emitStep, ← Prod.mk.eta (p := closestUnexpanded st.bestL), h1]
  have hset : {v | v ∈ (st.out ++ [(m.id, m.distance)]).map Prod.fst} =
      insert m.id {v | v ∈ st.out.map Prod.fst} := by
    ext v
    simp [or_comm]
  rw [heq]
  refine ⟨EmitInv.offer ?_ (hg m.id (h.lt _ hV)), by simp [Construction.offer]⟩
  refine ⟨?_, hcap, ?_, ?_, h.lt⟩
  · rw [hset]
    exact ht
  · rw [List.map_append, List.nodup_append]
    refine ⟨h.nodup, by simp, fun a ha b hb => ?_⟩
    obtain rfl : b = m.id := by simpa using hb
    rintro rfl
    exact hE ha
  · intro p hp
    rcases List.mem_append.mp hp with hp | hp
    · exact h.dist_eq p hp
    · obtain rfl : p = (m.id, m.distance) := by simpa using hp
      exact hd

theorem EmitInv.length_le (h : EmitInv n dist L st) : st.out.length ≤ n := by
  have hsub : (st.out.map Prod.fst).toFinset ⊆ Finset.range n := by
    intro v hv
    exact Finset.mem_range.mpr (h.lt v (h.tracks.sub (List.mem_toFinset.mp hv)))
  have := Finset.card_le_card hsub
  rwa [List.toFinset_card_of_nodup h.nodup, List.length_map, Finset.card_range] at this

theorem emitLoop_inv (hg : ∀ v < n, ∀ w ∈ graph v, w < n) (fuel : ℕ) (h : EmitInv n dist L st)
    (hfuel : n ≤ st.out.length + fuel) :
    EmitInv n dist L (emitLoop graph dist fuel st) ∧
      (emitLoop graph dist fuel st).bestL.hasUnexpandedNode = false := by
  induction fuel generalizing st with
  | zero =>
    refine ⟨h, ?_⟩
    by_contra hne
    rw [Bool.not_eq_false] at hne
    obtain ⟨hs, hlen⟩ := h.step hg hne
    have := hs.length_le
    omega
  | succ fuel ih =>
    rw [emitLoop]
    split_ifs with hne
    · obtain ⟨hs, hlen⟩ := h.step hg hne
      exact ih hs (by omega)
    · exact ⟨h, by simpa using hne⟩

variable (graph dist) in
/-- The search ends with its list expanded, and exports distinct ids below `n`
with their distances. -/
theorem iterateToFixedPointEmit_spec (hL : 0 < L) (hinit : ∀ v ∈ initIds, v < n)
    (hg : ∀ v < n, ∀ w ∈ graph v, w < n) :
    EmitInv n dist L (iterateToFixedPointEmit n graph dist L initIds) ∧
      (iterateToFixedPointEmit n graph dist L initIds).bestL.hasUnexpandedNode = false :=
  emitLoop_inv hg n (emitStart_inv hL hinit) (by omega)

end HiDANN.Construction
