import HiDANN.Construction.EmitRefinement
import Mathlib.Order.Monotone.Defs

/-! Searches of a graph whose nodes have got other numbers. Where the numbers of the nodes keep
their order, the queue compares the same elements in the same way, so the search goes through the
renamed nodes in step with the search before. -/

namespace HiDANN.Search

open NeighborPriorityQueue

variable {δ : Type*} [LinearOrder δ] {ρ : ℕ → ℕ} {S : Set ℕ}

/-! ### The queue -/

def Neighbor.rename (ρ : ℕ → ℕ) (m : Neighbor δ) : Neighbor δ := { m with id := ρ m.id }

def NeighborPriorityQueue.rename (ρ : ℕ → ℕ) (q : NeighborPriorityQueue δ) :
    NeighborPriorityQueue δ :=
  { q with data := q.data.map (Neighbor.rename ρ) }

def NeighborPriorityQueue.Within (q : NeighborPriorityQueue δ) (S : Set ℕ) : Prop :=
  ∀ m ∈ q.data, m.id ∈ S

theorem lt_rename (hρ : StrictMonoOn ρ S) {a b : Neighbor δ} (ha : a.id ∈ S) (hb : b.id ∈ S) :
    (a.rename ρ).lt (b.rename ρ) ↔ a.lt b := by
  rw [Neighbor.lt, Neighbor.lt]
  exact or_congr_right (and_congr_right fun _ => hρ.lt_iff_lt ha hb)

namespace NeighborPriorityQueue

theorem bisect_rename (hρ : StrictMonoOn ρ S) {data : List (Neighbor δ)} {nbr : Neighbor δ}
    (hdata : ∀ m ∈ data, m.id ∈ S) (hnbr : nbr.id ∈ S) (fuel lo hi : ℕ) :
    bisect (data.map (Neighbor.rename ρ)) (nbr.rename ρ) fuel lo hi =
      bisect data nbr fuel lo hi := by
  induction fuel generalizing lo hi with
  | zero => rfl
  | succ fuel ih =>
    rw [bisect, bisect, List.getElem?_map]
    cases hget : data[(lo + hi) / 2]? with
    | none => rfl
    | some m =>
      have hm := hdata m (List.mem_of_getElem? hget)
      have hid : (m.rename ρ).id = (nbr.rename ρ).id ↔ m.id = nbr.id := hρ.injOn.eq_iff hm hnbr
      simp only [Option.map_some, lt_rename hρ hnbr hm, hid, ih]

variable {q : NeighborPriorityQueue δ}

theorem rejects_rename (hρ : StrictMonoOn ρ S) (hq : q.Within S) {nbr : Neighbor δ}
    (hnbr : nbr.id ∈ S) : (q.rename ρ).rejects (nbr.rename ρ) = q.rejects nbr := by
  have hlast : (q.rename ρ).data.getLast?.any (fun last => (last.lt (nbr.rename ρ) : Bool)) =
      q.data.getLast?.any fun last => (last.lt nbr : Bool) := by
    rw [rename, List.getLast?_map]
    cases hl : q.data.getLast? with
    | none => rfl
    | some last =>
      rw [Option.map_some, Option.any_some, Option.any_some]
      exact decide_eq_decide.mpr (lt_rename hρ (hq last (List.mem_of_getLast? hl)) hnbr)
  rw [rejects, rejects, hlast, size, size, rename, List.length_map]

theorem insert_rename (hρ : StrictMonoOn ρ S) (hq : q.Within S) {nbr : Neighbor δ}
    (hnbr : nbr.id ∈ S) : (q.rename ρ).insert (nbr.rename ρ) = (q.insert nbr).rename ρ := by
  rw [insert, insert, rejects_rename hρ hq hnbr]
  by_cases hrej : q.rejects nbr
  · rw [if_pos hrej, if_pos hrej]
  · have hsize : (q.rename ρ).size = q.size := List.length_map _
    have hbisect : bisect (q.rename ρ).data (nbr.rename ρ) q.size 0 q.size =
        bisect q.data nbr q.size 0 q.size := bisect_rename hρ hq hnbr _ _ _
    rw [if_neg hrej, if_neg hrej, hsize, hbisect]
    cases bisect q.data nbr q.size 0 q.size with
    | none => rfl
    | some lo =>
      simp only [rename, List.map_take, List.map_append, List.map_cons, List.map_drop]
      rfl

theorem Within.insert (hq : q.Within S) {nbr : Neighbor δ} (hnbr : nbr.id ∈ S) :
    (q.insert nbr).Within S := by
  intro m hm
  rcases mem_insert hm with hm | rfl
  · exact hq m hm
  · exact hnbr

omit [LinearOrder δ] in
theorem hasUnexpandedNode_rename (ρ : ℕ → ℕ) (q : NeighborPriorityQueue δ) :
    (q.rename ρ).hasUnexpandedNode = q.hasUnexpandedNode := by
  rw [hasUnexpandedNode, hasUnexpandedNode, size, size, rename, List.length_map]

omit [LinearOrder δ] in
theorem closestUnexpanded_rename (ρ : ℕ → ℕ) (q : NeighborPriorityQueue δ) :
    (q.rename ρ).closestUnexpanded =
      (q.closestUnexpanded.1.map (Neighbor.rename ρ), q.closestUnexpanded.2.rename ρ) := by
  rw [closestUnexpanded, closestUnexpanded]
  simp only [rename, List.getElem?_map]
  cases hget : q.data[q.cur]? with
  | none => rfl
  | some m =>
    have hset : (q.data.map (Neighbor.rename ρ)).set q.cur { m.rename ρ with expanded := true } =
        (q.data.set q.cur { m with expanded := true }).map (Neighbor.rename ρ) := by
      rw [List.map_set]
      rfl
    have hscan : ∀ l : List (Neighbor δ), ((l.map (Neighbor.rename ρ)).takeWhile
        Neighbor.expanded).length = (l.takeWhile Neighbor.expanded).length := by
      intro l
      rw [List.takeWhile_map, List.length_map]
      rfl
    simp only [Option.map_some]
    rw [hset, ← List.map_drop, hscan]
    rfl

omit [LinearOrder δ] in
theorem Within.closestUnexpanded (hq : q.Within S) :
    q.closestUnexpanded.2.Within S ∧ ∀ m, q.closestUnexpanded.1 = some m → m.id ∈ S := by
  rw [NeighborPriorityQueue.closestUnexpanded]
  cases hget : q.data[q.cur]? with
  | none => exact ⟨hq, by simp⟩
  | some m =>
    have hm := hq m (List.mem_of_getElem? hget)
    refine ⟨fun v hv => ?_, ?_⟩
    · rcases List.mem_or_eq_of_mem_set hv with hv | rfl
      · exact hq v hv
      · exact hm
    · rintro _ ⟨⟩
      exact hm

end NeighborPriorityQueue

end HiDANN.Search

namespace HiDANN.Construction

open Search NeighborPriorityQueue

variable {δ : Type*} [LinearOrder δ] {ρ : ℕ → ℕ} {S : Set ℕ} {graph graph' : ℕ → List ℕ}
  {dist dist' : ℕ → δ} {L : ℕ} {st : Emit δ}

/-! ### The search -/

def Emit.rename (ρ : ℕ → ℕ) (st : Emit δ) : Emit δ :=
  { st with
    bestL := st.bestL.rename ρ
    inserted := st.inserted.map ρ
    out := st.out.map fun e => (ρ e.1, e.2) }

structure Emit.Within (st : Emit δ) (S : Set ℕ) : Prop where
  queue : st.bestL.Within S
  inserted : ∀ v ∈ st.inserted, v ∈ S

/-- A graph and its distances, and those of the renamed nodes. -/
structure Renames (ρ : ℕ → ℕ) (S : Set ℕ) (graph graph' : ℕ → List ℕ) (dist dist' : ℕ → δ) :
    Prop where
  strictMono : StrictMonoOn ρ S
  closed : ∀ v ∈ S, ∀ w ∈ graph v, w ∈ S
  graph_eq : ∀ v ∈ S, graph' (ρ v) = (graph v).map ρ
  dist_eq : ∀ v ∈ S, dist' (ρ v) = dist v

theorem foldl_insert_rename (h : Renames ρ S graph graph' dist dist') {ids : List ℕ}
    (hids : ∀ v ∈ ids, v ∈ S) {q : NeighborPriorityQueue δ} (hq : q.Within S) :
    (ids.map ρ).foldl (fun q v => q.insert (candidate dist' v)) (q.rename ρ) =
        (ids.foldl (fun q v => q.insert (candidate dist v)) q).rename ρ ∧
      (ids.foldl (fun q v => q.insert (candidate dist v)) q).Within S := by
  induction ids generalizing q with
  | nil => exact ⟨rfl, hq⟩
  | cons v ids ih =>
    have hv := hids v List.mem_cons_self
    have hcand : candidate dist' (ρ v) = (candidate dist v).rename ρ := by
      rw [candidate, candidate, h.dist_eq v hv, Neighbor.rename]
    rw [List.map_cons, List.foldl_cons, List.foldl_cons, hcand, insert_rename h.strictMono hq hv]
    exact ih (fun w hw => hids w (List.mem_cons_of_mem _ hw)) (hq.insert hv)

theorem offer_rename (h : Renames ρ S graph graph' dist dist') {ids : List ℕ}
    (hids : ∀ v ∈ ids, v ∈ S) (hst : st.Within S) :
    offer dist' (st.rename ρ) (ids.map ρ) = (offer dist st ids).rename ρ ∧
      (offer dist st ids).Within S := by
  have hscratch : (ids.map ρ).filter (fun v => v ∉ (st.rename ρ).inserted) =
      (ids.filter fun v => v ∉ st.inserted).map ρ := by
    rw [List.filter_map]
    congr 1
    refine List.filter_congr fun v hv => ?_
    rw [Function.comp_apply, decide_eq_decide, not_iff_not, Emit.rename, List.mem_map]
    constructor
    · rintro ⟨w, hw, heq⟩
      rwa [← h.strictMono.injOn (hst.inserted w hw) (hids v hv) heq]
    · exact fun hin => ⟨v, hin, rfl⟩
  have hmem : ∀ v ∈ ids.filter (fun v => v ∉ st.inserted), v ∈ S :=
    fun v hv => hids v (List.mem_of_mem_filter hv)
  obtain ⟨hfold, hwithin⟩ := foldl_insert_rename h hmem hst.queue
  refine ⟨?_, hwithin, fun v hv => ?_⟩
  · simp only [offer, hscratch, List.length_map]
    simp only [Emit.rename, hfold, List.map_append]
  · rcases List.mem_append.mp hv with hv | hv
    · exact hst.inserted v hv
    · exact hmem v hv

theorem emitStep_rename (h : Renames ρ S graph graph' dist dist') (hst : st.Within S) :
    emitStep graph' dist' (st.rename ρ) = (emitStep graph dist st).rename ρ ∧
      (emitStep graph dist st).Within S := by
  obtain ⟨hq, hcur⟩ := hst.queue.closestUnexpanded
  have hnext : (st.rename ρ).bestL.closestUnexpanded = _ := closestUnexpanded_rename ρ st.bestL
  rw [emitStep, emitStep, hnext]
  rcases hc : st.bestL.closestUnexpanded with ⟨_ | cur, q⟩
  · exact ⟨rfl, hst⟩
  · rw [hc] at hq hcur
    have hin := hcur cur rfl
    dsimp only [Option.map_some, Neighbor.rename]
    rw [h.graph_eq cur.id hin]
    have hpopped : ({ st with
        bestL := q
        out := st.out ++ [(cur.id, cur.distance)]
        hops := (st.hops + 1) % 2 ^ 32 } : Emit δ).Within S := ⟨hq, hst.inserted⟩
    have hoffer := offer_rename h (h.closed cur.id hin) hpopped
    refine ⟨?_, hoffer.2⟩
    rw [← hoffer.1]
    simp only [Emit.rename, List.map_append, List.map_singleton]

/-- The search among renamed nodes is the renamed search. -/
theorem iterateToFixedPointEmit_rename (h : Renames ρ S graph graph' dist dist') (n L : ℕ)
    {initIds : List ℕ} (hinit : ∀ v ∈ initIds, v ∈ S) :
    iterateToFixedPointEmit n graph' dist' L (initIds.map ρ) =
        (iterateToFixedPointEmit n graph dist L initIds).rename ρ ∧
      (iterateToFixedPointEmit n graph dist L initIds).Within S := by
  have hstart : ∀ (ids : List ℕ) (st : Emit δ), (∀ v ∈ ids, v ∈ S) → st.Within S →
      (ids.map ρ).foldl (fun st v => { offer dist' st [v] with cmps := 0 }) (st.rename ρ) =
          (ids.foldl (fun st v => { offer dist st [v] with cmps := 0 }) st).rename ρ ∧
        (ids.foldl (fun st v => { offer dist st [v] with cmps := 0 }) st).Within S := by
    intro ids
    induction ids with
    | nil => exact fun st _ hst => ⟨rfl, hst⟩
    | cons v ids ih =>
      intro st hids hst
      obtain ⟨heq, hwithin⟩ := offer_rename h (fun w (hw : w ∈ [v]) =>
        hids w (List.mem_singleton.mp hw ▸ List.mem_cons_self)) hst
      rw [List.map_singleton] at heq
      rw [List.map_cons, List.foldl_cons, List.foldl_cons, heq]
      exact ih { offer dist st [v] with cmps := 0 } (fun w hw => hids w (List.mem_cons_of_mem _ hw))
        ⟨hwithin.queue, hwithin.inserted⟩
  have hloop : ∀ (fuel : ℕ) (st : Emit δ), st.Within S →
      emitLoop graph' dist' fuel (st.rename ρ) = (emitLoop graph dist fuel st).rename ρ ∧
        (emitLoop graph dist fuel st).Within S := by
    intro fuel
    induction fuel with
    | zero => exact fun st hst => ⟨rfl, hst⟩
    | succ fuel ih =>
      intro st hst
      have hne : (st.rename ρ).bestL.hasUnexpandedNode = st.bestL.hasUnexpandedNode :=
        hasUnexpandedNode_rename ρ st.bestL
      obtain ⟨hstep, hwithin⟩ := emitStep_rename h hst
      rw [emitLoop, emitLoop, hne]
      by_cases hgo : st.bestL.hasUnexpandedNode = true
      · rw [if_pos hgo, if_pos hgo, hstep]
        exact ih _ hwithin
      · rw [if_neg hgo, if_neg hgo]
        exact ⟨rfl, hst⟩
  have hempty : (⟨empty L, [], [], 0, 0⟩ : Emit δ).Within S :=
    ⟨fun m hm => absurd hm List.not_mem_nil, fun v hv => absurd hv List.not_mem_nil⟩
  obtain ⟨heq, hwithin⟩ := hstart initIds _ hinit hempty
  have heq' : emitStart dist' L (initIds.map ρ) = (emitStart dist L initIds).rename ρ := heq
  rw [iterateToFixedPointEmit, iterateToFixedPointEmit, heq']
  exact hloop n _ hwithin

/-! ### More rounds than needed -/

theorem emitLoop_of_done {fuel : ℕ} (h : st.bestL.hasUnexpandedNode = false) :
    emitLoop graph dist fuel st = st := by
  cases fuel with
  | zero => rfl
  | succ fuel => rw [emitLoop, h, if_neg Bool.false_ne_true]

theorem emitLoop_add (m n : ℕ) (st : Emit δ) :
    emitLoop graph dist (m + n) st = emitLoop graph dist n (emitLoop graph dist m st) := by
  induction m generalizing st with
  | zero => rw [Nat.zero_add, emitLoop]
  | succ m ih =>
    rw [Nat.succ_add, emitLoop, emitLoop]
    cases hne : st.bestL.hasUnexpandedNode with
    | false => rw [if_neg Bool.false_ne_true, if_neg Bool.false_ne_true, emitLoop_of_done hne]
    | true => rw [if_pos rfl, if_pos rfl, ih]

/-- Two numbers of rounds that both bring the search to its end. -/
theorem iterateToFixedPointEmit_of_done {m n : ℕ} {ids : List ℕ}
    (hm : (iterateToFixedPointEmit m graph dist L ids).bestL.hasUnexpandedNode = false)
    (hn : (iterateToFixedPointEmit n graph dist L ids).bestL.hasUnexpandedNode = false) :
    iterateToFixedPointEmit m graph dist L ids = iterateToFixedPointEmit n graph dist L ids := by
  rw [iterateToFixedPointEmit] at hm hn ⊢
  rw [iterateToFixedPointEmit]
  rcases Nat.le_total m n with h | h
  · obtain ⟨k, rfl⟩ := Nat.exists_eq_add_of_le h
    rw [emitLoop_add, emitLoop_of_done hm]
  · obtain ⟨k, rfl⟩ := Nat.exists_eq_add_of_le h
    rw [emitLoop_add, emitLoop_of_done hn]

end HiDANN.Construction
