import HiDANN.Library.Rounding
import HiDANN.Tools.NeighborQueue

/-! A query of the quality evaluator. The marks of the nodes that have been seen are the
number of the query, so the array of a thread is used again for the next one, and is filled
with zeros only when the number is back at zero. Each node is seen once, so its distance is
computed once and it is expanded at most once, and the search ends. What is seen is the start
and the neighbours of what is expanded, and always the nearest of it is expanded next. -/

namespace HiDANN.Tools

open Search (Neighbor)
open Rounding NeighborQueue

/-! ### The program -/

structure SearchScratch where
  seen : ℕ → ℕ
  token : ℕ

namespace SearchScratch

def new : SearchScratch := ⟨fun _ => 0, 1⟩

def nextQuery (s : SearchScratch) : SearchScratch :=
  let token := (s.token + 1) % 2 ^ 32
  if token = 0 then ⟨fun _ => 0, 1⟩ else ⟨s.seen, token⟩

def markIfNew (s : SearchScratch) (id : ℕ) : Bool × SearchScratch :=
  if s.seen id = s.token then (false, s) else (true, ⟨Function.update s.seen id s.token, s.token⟩)

end SearchScratch

/-- The lists of neighbours, one for every row of the base data, a 32-bit number of them. -/
structure Graph where
  adj : List (List ℕ)
  length_lt : adj.length < 2 ^ 32

/-- The row of a query. -/
structure GroundTruth (δ : Type*) where
  width : ℕ
  ids : ℕ → ℕ
  dists : ℕ → δ

/-- The variables of `evaluate_one_query`; `computed` are the nodes whose distances have been
computed, in this order. -/
structure QueryState (δ : Type*) where
  queue : NeighborQueue δ
  scratch : SearchScratch
  expandedOrder : List ℕ
  computed : List ℕ
  distCalcs : ℕ

structure SearchResult where
  «recall» : ℚ
  hop : ℕ
  distCalcs : ℕ

section

variable {δ : Type*} [LinearOrder δ]

/-- The loop over the ties, for as many steps as `fuel`. -/
def tieEnd (gt : GroundTruth δ) (cutoff : δ) : ℕ → ℕ → ℕ
  | 0, tie => tie
  | fuel + 1, tie =>
    if tie < gt.width ∧ gt.dists tie = cutoff then tieEnd gt cutoff fuel (tie + 1) else tie

/-- `calculate_recall`; the quotient is one of floats. -/
def calculateRecall (gt : GroundTruth δ) (res : List ℕ) (k : ℕ) : Except String ℚ :=
  if gt.width < k then .error "groundtruth width is smaller than recall cutoff"
  else
    let tie := tieEnd gt (gt.dists (if k = 0 then 2 ^ 32 - 1 else k - 1)) gt.width k
    let hits := ((List.range tie).filter fun i => gt.ids i ∈ res.take k).length
    .ok (roundTo 24 (roundTo 24 hits / roundTo 24 k))

variable (g : Graph) (dist : ℕ → δ)

/-- A neighbour of the node that is expanded. -/
def visit (s : QueryState δ) (u : ℕ) : QueryState δ :=
  if g.adj.length ≤ u then s
  else
    let (isNew, scratch) := s.scratch.markIfNew u
    if isNew then
      { s with
        queue := s.queue.insert (dist u) u
        scratch := scratch
        computed := s.computed ++ [u]
        distCalcs := (s.distCalcs + 1) % 2 ^ 32 }
    else s

/-- The search, for as many nodes as `fuel`. -/
def searchLoop : ℕ → QueryState δ → Option (QueryState δ)
  | 0, _ => none
  | fuel + 1, s =>
    if s.queue.hasUnexpandedNode then
      match s.queue.closestUnexpanded with
      | none => none
      | some (nb, queue) =>
        searchLoop fuel ((g.adj.getD nb.id []).foldl (visit g dist)
          { s with queue := queue, expandedOrder := s.expandedOrder ++ [nb.id] })
    else some s

def searchStart (l : ℕ) (scratch : SearchScratch) (startNode : ℕ) : QueryState δ where
  queue := (NeighborQueue.empty l).insert (dist startNode) startNode
  scratch := (scratch.nextQuery.markIfNew startNode).2
  expandedOrder := []
  computed := [startNode]
  distCalcs := 1

/-- `evaluate_one_query`, `none` when it has not ended; with the state that it ends in. -/
def evaluateOneQuery (gt : GroundTruth δ) (l k : ℕ) (scratch : SearchScratch) (startNode fuel : ℕ) :
    Except String (Option (SearchResult × QueryState δ)) :=
  if l < k then .error "L must be greater than or equal to recall cutoff"
  else if g.adj.length ≤ startNode then .error "search start node is outside graph"
  else match searchLoop g dist fuel (searchStart dist l scratch startNode) with
    | none => .ok none
    | some s =>
      let result := (s.queue.data.take (min k s.queue.data.length)).map Neighbor.id
      match calculateRecall gt result k with
      | .error e => .error e
      | .ok value => .ok (some (⟨value, s.expandedOrder.length % 2 ^ 32, s.distCalcs⟩, s))

end

/-- The scratch of a thread after some queries. -/
inductive Reached (δ : Type*) [LinearOrder δ] (g : Graph) : SearchScratch → Prop where
  | new : Reached δ g .new
  | query {scratch : SearchScratch} {dist : ℕ → δ} {gt : GroundTruth δ} {l k startNode fuel : ℕ}
      {r : SearchResult} {s : QueryState δ} : Reached δ g scratch →
      evaluateOneQuery g dist gt l k scratch startNode fuel = .ok (some (r, s)) → Reached δ g s.scratch

/-! ### Marks -/

/-- No mark is from a later query. -/
structure SearchScratch.Valid (s : SearchScratch) : Prop where
  token_pos : 0 < s.token
  token_lt : s.token < 2 ^ 32
  seen_le : ∀ id, s.seen id ≤ s.token

namespace SearchScratch

variable {s : SearchScratch}

theorem new_valid : new.Valid := ⟨Nat.one_pos, Nat.one_lt_two_pow (by decide), fun _ => Nat.zero_le _⟩

/-- The mark of the next query is new, and so it is when the marks start again. -/
theorem Valid.nextQuery (h : s.Valid) :
    s.nextQuery.Valid ∧ ∀ id, s.nextQuery.seen id ≠ s.nextQuery.token := by
  rw [SearchScratch.nextQuery]
  have hlt := h.token_lt
  split_ifs with hzero
  · exact ⟨⟨Nat.one_pos, Nat.one_lt_two_pow (by decide), fun _ => Nat.zero_le _⟩,
      fun _ => Nat.zero_ne_one⟩
  · have htoken : (s.token + 1) % 2 ^ 32 = s.token + 1 := by omega
    have hsmall : s.token + 1 < 2 ^ 32 := by omega
    rw [htoken]
    refine ⟨⟨Nat.succ_pos _, hsmall, fun id => ?_⟩, fun id => ?_⟩
    · exact (h.seen_le id).trans (Nat.le_succ _)
    · exact ((h.seen_le id).trans_lt (Nat.lt_succ_self _)).ne

theorem Valid.mark (h : s.Valid) (id : ℕ) :
    (⟨Function.update s.seen id s.token, s.token⟩ : SearchScratch).Valid := by
  refine ⟨h.token_pos, h.token_lt, fun v => ?_⟩
  dsimp only
  by_cases hv : v = id
  · rw [hv, Function.update_self]
  · rw [Function.update_of_ne hv]
    exact h.seen_le v

end SearchScratch

/-! ### The search -/

variable {δ : Type*} [LinearOrder δ] {g : Graph} {dist : ℕ → δ} {L : ℕ} {s : QueryState δ}

/-- What holds during a query. -/
structure Searching (g : Graph) (dist : ℕ → δ) (L : ℕ) (s : QueryState δ) : Prop where
  holds : s.queue.Holds dist L s.computed
  valid : s.scratch.Valid
  marked : ∀ id, s.scratch.seen id = s.scratch.token ↔ id ∈ s.computed
  computed_lt : ∀ u ∈ s.computed, u < g.adj.length
  nodup : s.computed.Nodup
  distCalcs_eq : s.distCalcs = s.computed.length
  expanded_iff : ∀ m ∈ s.queue.data, m.expanded = true ↔ m.id ∈ s.expandedOrder
  expanded_nodup : s.expandedOrder.Nodup
  expanded_sub : s.expandedOrder ⊆ s.computed

theorem length_le_of_lt {l : List ℕ} {n : ℕ} (hnd : l.Nodup) (hl : ∀ u ∈ l, u < n) : l.length ≤ n := by
  have hsub := List.subperm_of_subset hnd fun u hu => List.mem_range.mpr (hl u hu)
  simpa using hsub.length_le

theorem Searching.mark (h : Searching g dist L s) {u : ℕ} (hu : u < g.adj.length)
    (hnew : u ∉ s.computed) :
    Searching g dist L
      { s with
        queue := s.queue.insert (dist u) u
        scratch := ⟨Function.update s.scratch.seen u s.scratch.token, s.scratch.token⟩
        computed := s.computed ++ [u]
        distCalcs := (s.distCalcs + 1) % 2 ^ 32 } := by
  have hlt : ∀ v ∈ s.computed ++ [u], v < g.adj.length := by
    intro v hv
    rcases List.mem_append.mp hv with hv | hv
    · exact h.computed_lt v hv
    · rwa [List.mem_singleton.mp hv]
  have hnodup : (s.computed ++ [u]).Nodup := by
    refine List.nodup_append.mpr ⟨h.nodup, List.nodup_singleton u, ?_⟩
    rintro a ha b hb rfl
    exact hnew (List.mem_singleton.mp hb ▸ ha)
  refine ⟨h.holds.insert hnew, h.valid.mark u, fun id => ?_, hlt, hnodup, ?_, fun m hm => ?_,
    h.expanded_nodup, fun v hv => List.mem_append_left _ (h.expanded_sub hv)⟩
  · dsimp only
    rw [List.mem_append, List.mem_singleton]
    by_cases hid : id = u
    · rw [hid, Function.update_self]
      simp
    · rw [Function.update_of_ne hid, h.marked]
      simp [hid]
  · have hcount := length_le_of_lt hnodup hlt
    have hsmall := g.length_lt
    dsimp only
    rw [List.length_append, List.length_singleton] at hcount ⊢
    rw [h.distCalcs_eq, Nat.mod_eq_of_lt (by omega)]
  · rcases h.holds.mem_insert hnew hm with hm | rfl
    · exact h.expanded_iff m hm
    · exact ⟨fun hfalse => absurd hfalse Bool.false_ne_true, fun hin => absurd (h.expanded_sub hin) hnew⟩

theorem Searching.visit (h : Searching g dist L s) (u : ℕ) : Searching g dist L (visit g dist s u) := by
  rw [Tools.visit]
  split_ifs with hout
  · exact h
  · dsimp only [SearchScratch.markIfNew]
    by_cases hseen : s.scratch.seen u = s.scratch.token
    · rw [if_pos hseen]
      exact h
    · rw [if_neg hseen]
      exact h.mark (Nat.lt_of_not_le hout) ((h.marked u).not.mp hseen)

theorem Searching.visits (h : Searching g dist L s) (us : List ℕ) :
    Searching g dist L (us.foldl (Tools.visit g dist) s) := by
  induction us generalizing s with
  | nil => exact h
  | cons u us ih => exact ih (h.visit u)

/-- The node at the cursor has not been expanded before. -/
theorem Searching.expand (h : Searching g dist L s) (hne : s.queue.hasUnexpandedNode) :
    ∃ nb queue, s.queue.closestUnexpanded = some (nb, queue) ∧
      Searching g dist L { s with queue := queue, expandedOrder := s.expandedOrder ++ [nb.id] } := by
  obtain ⟨hcur, queue, hfalse, hclosest, hdata, hholds⟩ := h.holds.closestUnexpanded hne
  refine ⟨_, queue, hclosest, ?_⟩
  have hmem := List.getElem_mem hcur
  have hnew : (s.queue.data[s.queue.cur]).id ∉ s.expandedOrder := by
    rw [← h.expanded_iff _ hmem, hfalse]
    exact Bool.false_ne_true
  have hids : (s.queue.data.map Neighbor.id).Nodup := by
    have hkeys : (s.queue.data.map fun m => rankKey dist s.computed m.id).Nodup :=
      h.holds.smallest.sorted.imp fun hlt => hlt.ne
    rw [show (fun m : Neighbor δ => rankKey dist s.computed m.id) =
      rankKey dist s.computed ∘ Neighbor.id from rfl, ← List.map_map] at hkeys
    exact hkeys.of_map
  refine ⟨hholds, h.valid, h.marked, h.computed_lt, h.nodup, h.distCalcs_eq, fun m hm => ?_, ?_, ?_⟩
  · dsimp only at hm ⊢
    rw [hdata] at hm
    rw [List.mem_append, List.mem_singleton]
    obtain ⟨i, hi, rfl⟩ := List.getElem_of_mem hm
    have hi' : i < s.queue.data.length := by rwa [List.length_set] at hi
    rw [List.getElem_set]
    split_ifs with heq
    · exact ⟨fun _ => .inr rfl, fun _ => rfl⟩
    · -- another element, so another id
      have hother : (s.queue.data[i]).id ≠ (s.queue.data[s.queue.cur]).id := by
        intro hid
        have hpos : i < (s.queue.data.map Neighbor.id).length := by rwa [List.length_map]
        have hpos' : s.queue.cur < (s.queue.data.map Neighbor.id).length := by rwa [List.length_map]
        have hinj := @List.Nodup.getElem_inj_iff _ _ hids i hpos s.queue.cur hpos'
        rw [List.getElem_map, List.getElem_map] at hinj
        exact heq (hinj.mp hid).symm
      rw [h.expanded_iff _ (List.getElem_mem hi')]
      exact ⟨.inl, fun hor => hor.resolve_right hother⟩
  · refine List.nodup_append.mpr ⟨h.expanded_nodup, List.nodup_singleton _, ?_⟩
    rintro a ha b hb rfl
    exact hnew (List.mem_singleton.mp hb ▸ ha)
  · intro v hv
    rcases List.mem_append.mp hv with hv | hv
    · exact h.expanded_sub hv
    · rw [List.mem_singleton.mp hv]
      exact h.holds.inserted (s.queue.data[s.queue.cur]) hmem

theorem Searching.length_expanded_le (h : Searching g dist L s) :
    s.expandedOrder.length ≤ g.adj.length :=
  length_le_of_lt h.expanded_nodup fun u hu => h.computed_lt u (h.expanded_sub hu)

/-- The nearest node that has been seen and not expanded is expanded next. -/
theorem Searching.nearest (h : Searching g dist L s) {nb : Neighbor δ} {queue : NeighborQueue δ}
    (hclosest : s.queue.closestUnexpanded = some (nb, queue)) (hne : s.queue.hasUnexpandedNode) :
    nb.id ∈ s.computed ∧ ∀ u ∈ s.computed, u ∉ s.expandedOrder →
      rankKey dist s.computed nb.id ≤ rankKey dist s.computed u := by
  obtain ⟨hcur, queue', -, hclosest', -⟩ := h.holds.closestUnexpanded hne
  obtain ⟨rfl, -⟩ := Prod.mk.inj (Option.some.inj (hclosest.symm.trans hclosest'))
  have hmem := List.getElem_mem hcur
  refine ⟨h.holds.inserted s.queue.data[s.queue.cur] hmem, fun u hu hunexpanded => ?_⟩
  by_cases hin : rankKey dist s.computed u ∈ s.queue.data.map fun m => rankKey dist s.computed m.id
  · obtain ⟨m, hm, hkey⟩ := List.mem_map.mp hin
    have hid : u = m.id := (List.idxOf_inj hu).mp (congrArg (fun k => (ofLex k).2) hkey).symm
    obtain ⟨i, hi, rfl⟩ := List.getElem_of_mem hm
    have hge : s.queue.cur ≤ i := by
      by_contra hlt
      have hbefore := h.holds.cursor.before s.queue.data[i]
        (List.mem_take_iff_getElem.mpr ⟨i, by omega, rfl⟩)
      exact hunexpanded (hid ▸ (h.expanded_iff _ hm).mp hbefore)
    have hsorted := List.pairwise_map.mp h.holds.smallest.sorted
    rw [hid]
    rcases hge.eq_or_lt with heq | hlt
    · exact le_of_eq (by simp only [heq])
    · exact (List.pairwise_iff_getElem.mp hsorted _ _ hcur hi hlt).le
  · -- what is not among the nearest is behind all of them
    exact ((h.holds.smallest.out _ ⟨u, hu, rfl⟩ hin).2 _ (List.mem_map_of_mem hmem)).le

/-- The neighbours that exist have been seen afterwards, and what had been before. -/
theorem Searching.visits_computed (h : Searching g dist L s) (us : List ℕ) :
    s.computed <+: (us.foldl (Tools.visit g dist) s).computed ∧
      ∀ u, u ∈ (us.foldl (Tools.visit g dist) s).computed ↔
        u ∈ s.computed ∨ u ∈ us ∧ u < g.adj.length := by
  induction us generalizing s with
  | nil => exact ⟨List.prefix_refl _, by simp⟩
  | cons v us ih =>
    obtain ⟨hpre, hmem⟩ := ih (h.visit v)
    have hvisit : s.computed <+: (Tools.visit g dist s v).computed ∧
        ∀ u, u ∈ (Tools.visit g dist s v).computed ↔ u ∈ s.computed ∨ u = v ∧ u < g.adj.length := by
      rw [Tools.visit]
      split_ifs with hout
      · refine ⟨List.prefix_refl _, fun u => (or_iff_left ?_).symm⟩
        rintro ⟨rfl, hlt⟩
        omega
      · dsimp only [SearchScratch.markIfNew]
        by_cases hseen : s.scratch.seen v = s.scratch.token
        · rw [if_pos hseen]
          refine ⟨List.prefix_refl _, fun u => (or_iff_left_of_imp ?_).symm⟩
          rintro ⟨rfl, -⟩
          exact (h.marked u).mp hseen
        · rw [if_neg hseen]
          refine ⟨List.prefix_append _ _, fun u => ?_⟩
          rw [if_pos rfl, List.mem_append, List.mem_singleton]
          exact or_congr_right ⟨fun hu => ⟨hu, hu ▸ Nat.lt_of_not_le hout⟩, And.left⟩
    refine ⟨hvisit.1.trans hpre, fun u => ?_⟩
    rw [List.foldl_cons, hmem, hvisit.2, List.mem_cons, or_and_right, or_assoc]

theorem visits_expandedOrder (us : List ℕ) (s : QueryState δ) :
    (us.foldl (visit g dist) s).expandedOrder = s.expandedOrder := by
  induction us generalizing s with
  | nil => rfl
  | cons u us ih =>
    rw [List.foldl_cons, ih, visit]
    split_ifs
    · rfl
    · dsimp only
      split_ifs <;> rfl

/-! ### The graph -/

/-- What has been seen when some nodes have been expanded: the start, and their neighbours. -/
def Seen (g : Graph) (startNode : ℕ) (expanded : List ℕ) (u : ℕ) : Prop :=
  u = startNode ∨ u < g.adj.length ∧ ∃ v ∈ expanded, u ∈ g.adj.getD v []

theorem Seen.mono {startNode u : ℕ} {expanded expanded' : List ℕ} (h : Seen g startNode expanded u)
    (hsub : expanded ⊆ expanded') : Seen g startNode expanded' u :=
  h.imp_right fun ⟨hu, v, hv, hmem⟩ => ⟨hu, v, hsub hv, hmem⟩

/-- The distances of what has been seen are computed, and each node that is expanded is the
nearest of what has been seen by then and not expanded. -/
structure Follows (g : Graph) (dist : ℕ → δ) (startNode : ℕ) (s : QueryState δ) : Prop where
  computed_iff : ∀ u, u ∈ s.computed ↔ Seen g startNode s.expandedOrder u
  nearest : ∀ before v later, s.expandedOrder = before ++ v :: later → Seen g startNode before v ∧
    ∀ u, Seen g startNode before u → u ∉ before →
      rankKey dist s.computed v ≤ rankKey dist s.computed u

theorem Follows.step {startNode : ℕ} (hf : Follows g dist startNode s) (h : Searching g dist L s)
    {nb : Neighbor δ} {queue : NeighborQueue δ}
    (hclosest : s.queue.closestUnexpanded = some (nb, queue)) (hne : s.queue.hasUnexpandedNode)
    (hnext : Searching g dist L
      { s with queue := queue, expandedOrder := s.expandedOrder ++ [nb.id] }) :
    Follows g dist startNode ((g.adj.getD nb.id []).foldl (visit g dist)
      { s with queue := queue, expandedOrder := s.expandedOrder ++ [nb.id] }) := by
  obtain ⟨⟨new, hnew⟩, hmem⟩ := hnext.visits_computed (g.adj.getD nb.id [])
  obtain ⟨hin, hnearest⟩ := h.nearest hclosest hne
  constructor
  case computed_iff =>
    intro u
    rw [hmem, visits_expandedOrder]
    dsimp only
    rw [hf.computed_iff, Seen, Seen]
    constructor
    · rintro ((rfl | ⟨hu, v, hv, hadj⟩) | ⟨hadj, hu⟩)
      · exact .inl rfl
      · exact .inr ⟨hu, v, List.mem_append_left _ hv, hadj⟩
      · exact .inr ⟨hu, nb.id, List.mem_append_right _ List.mem_cons_self, hadj⟩
    · rintro (rfl | ⟨hu, v, hv, hadj⟩)
      · exact .inl (.inl rfl)
      · rcases List.mem_append.mp hv with hv | hv
        · exact .inl (.inr ⟨hu, v, hv, hadj⟩)
        · exact .inr ⟨List.mem_singleton.mp hv ▸ hadj, hu⟩
  case nearest =>
    intro before v later hsplit
    rw [visits_expandedOrder] at hsplit
    -- what is seen later does not change the ranks
    have hrank : ∀ u ∈ s.computed, rankKey dist ((g.adj.getD nb.id []).foldl (visit g dist)
        { s with queue := queue, expandedOrder := s.expandedOrder ++ [nb.id] }).computed u =
          rankKey dist s.computed u := by
      intro u hu
      rw [← hnew]
      exact rankKey_append dist hu new
    rcases List.eq_nil_or_concat' later with rfl | ⟨later, w, rfl⟩
    · -- the node that is expanded now
      obtain ⟨rfl, hv⟩ := List.append_inj' hsplit rfl
      obtain ⟨rfl, -⟩ := List.cons.inj hv
      refine ⟨(hf.computed_iff _).mp hin, fun u hu hnot => ?_⟩
      have hu := (hf.computed_iff u).mpr hu
      rw [hrank _ hin, hrank u hu]
      exact hnearest u hu hnot
    · rw [← List.cons_append, ← List.append_assoc] at hsplit
      obtain ⟨hbefore, -⟩ := List.append_inj' hsplit rfl
      have hsub : before ⊆ s.expandedOrder := fun u hu => hbefore ▸ List.mem_append_left _ hu
      have hseen : ∀ u, Seen g startNode before u → u ∈ s.computed :=
        fun u hu => (hf.computed_iff u).mpr (hu.mono hsub)
      obtain ⟨hv, hle⟩ := hf.nearest before v later hbefore
      refine ⟨hv, fun u hu hnot => ?_⟩
      rw [hrank u (hseen u hu), hrank v (hseen v hv)]
      exact hle u hu hnot

/-- What the loop ends in, whatever the number of its steps. -/
theorem searchLoop_sound {startNode fuel : ℕ} {t : QueryState δ} (h : Searching g dist L s)
    (hf : Follows g dist startNode s) (hrun : searchLoop g dist fuel s = some t) :
    Searching g dist L t ∧ Follows g dist startNode t ∧ ¬ t.queue.hasUnexpandedNode := by
  induction fuel generalizing s with
  | zero => cases hrun
  | succ fuel ih =>
    rw [searchLoop] at hrun
    split_ifs at hrun with hne
    · obtain ⟨nb, queue, hclosest, hnext⟩ := h.expand hne
      rw [hclosest] at hrun
      exact ih (hnext.visits _) (hf.step h hclosest hne hnext) hrun
    · obtain rfl := Option.some.inj hrun
      exact ⟨h, hf, hne⟩

/-- The search ends, since every step expands another node. -/
theorem searchLoop_spec {d : ℕ} (h : Searching g dist L s)
    (hd : g.adj.length < s.expandedOrder.length + d) :
    ∃ t, Searching g dist L t ∧ ¬ t.queue.hasUnexpandedNode ∧ ∀ fuel,
      g.adj.length < s.expandedOrder.length + fuel → searchLoop g dist fuel s = some t := by
  induction d generalizing s with
  | zero =>
    have := h.length_expanded_le
    omega
  | succ d ih =>
    by_cases hne : s.queue.hasUnexpandedNode
    · obtain ⟨nb, queue, hclosest, hnext⟩ := h.expand hne
      have hlen : ((g.adj.getD nb.id []).foldl (visit g dist)
          { s with queue := queue, expandedOrder := s.expandedOrder ++ [nb.id] }).expandedOrder.length =
          s.expandedOrder.length + 1 := by
        rw [visits_expandedOrder, List.length_append, List.length_singleton]
      obtain ⟨t, ht, hdone, hrun⟩ := ih (hnext.visits (g.adj.getD nb.id [])) (by omega)
      refine ⟨t, ht, hdone, fun fuel hfuel => ?_⟩
      cases fuel with
      | zero =>
        have := h.length_expanded_le
        omega
      | succ fuel =>
        rw [searchLoop, if_pos hne, hclosest]
        exact hrun fuel (by omega)
    · refine ⟨s, h, hne, fun fuel hfuel => ?_⟩
      cases fuel with
      | zero =>
        have := h.length_expanded_le
        omega
      | succ fuel => rw [searchLoop, if_neg hne]

/-- The start node is the first one. -/
theorem searching_start {scratch : SearchScratch} (hs : scratch.Valid) (dist : ℕ → δ) (L : ℕ)
    {startNode : ℕ} (hstart : startNode < g.adj.length) :
    Searching g dist L (searchStart dist L scratch startNode) := by
  obtain ⟨hvalid, hfresh⟩ := hs.nextQuery
  have hmark : scratch.nextQuery.markIfNew startNode = (true, ⟨Function.update scratch.nextQuery.seen
      startNode scratch.nextQuery.token, scratch.nextQuery.token⟩) := if_neg (hfresh startNode)
  have hfrom : Searching g dist L ⟨NeighborQueue.empty L, scratch.nextQuery, [], [], 0⟩ := by
    refine ⟨holds_empty dist L, hvalid, fun id => ?_, by simp, List.nodup_nil, rfl, by simp [empty],
      List.nodup_nil, List.nil_subset _⟩
    simp [hfresh id]
  have h := hfrom.mark hstart List.not_mem_nil
  rw [searchStart, hmark]
  exact h

theorem follows_start (dist : ℕ → δ) (L : ℕ) (scratch : SearchScratch) (startNode : ℕ) :
    Follows g dist startNode (searchStart dist L scratch startNode) := by
  refine ⟨fun u => ?_, fun before v later hsplit => ?_⟩
  · simp [searchStart, Seen]
  · exact absurd hsplit.symm (by simp [searchStart])

/-! ### The result -/

/-- A result and the state that it is computed from. -/
structure BestFirst (g : Graph) (dist : ℕ → δ) (startNode L : ℕ) (r : SearchResult)
    (s : QueryState δ) : Prop extends Follows g dist startNode s where
  computed_once : s.computed.Nodup
  distCalcs_eq : r.distCalcs = s.computed.length
  expanded_once : s.expandedOrder.Nodup
  hop_eq : r.hop = s.expandedOrder.length
  distance_eq : ∀ m ∈ s.queue.data, m.distance = dist m.id
  smallest : Smallest L {k | ∃ id ∈ s.computed, rankKey dist s.computed id = k}
    (s.queue.data.map fun m => rankKey dist s.computed m.id)
  length_eq : s.queue.data.length = min L s.computed.length
  all_expanded : ∀ m ∈ s.queue.data, m.expanded = true ∧ m.id ∈ s.expandedOrder

theorem Searching.bestFirst {startNode : ℕ} (h : Searching g dist L s)
    (hf : Follows g dist startNode s) (hdone : ¬ s.queue.hasUnexpandedNode) (value : ℚ) :
    BestFirst g dist startNode L ⟨value, s.expandedOrder.length % 2 ^ 32, s.distCalcs⟩ s := by
  have hhops : s.expandedOrder.length < 2 ^ 32 := h.length_expanded_le.trans_lt g.length_lt
  have hcur : s.queue.data.length ≤ s.queue.cur := by
    by_contra hlt
    exact hdone (decide_eq_true (Nat.lt_of_not_le hlt))
  have hexpanded : ∀ m ∈ s.queue.data, m.expanded = true := by
    intro m hm
    refine h.holds.cursor.before m ?_
    rwa [List.take_of_length_le hcur]
  refine ⟨hf, h.nodup, h.distCalcs_eq, h.expanded_nodup, Nat.mod_eq_of_lt hhops,
    h.holds.distance_eq, h.holds.smallest, ?_, fun m hm => ⟨hexpanded m hm, (h.expanded_iff m hm).mp (hexpanded m hm)⟩⟩
  have hnodup : (s.computed.map (rankKey dist s.computed)).Nodup := by
    refine h.nodup.map_on fun u hu v hv heq => ?_
    exact (List.idxOf_inj hu).mp (congrArg (fun k => (ofLex k).2) heq)
  have hlen := h.holds.smallest.length_eq hnodup fun k => List.mem_map
  rwa [List.length_map, List.length_map] at hlen

theorem evaluateOneQuery_bestFirst {gt : GroundTruth δ} {l k startNode fuel : ℕ}
    {scratch : SearchScratch} {r : SearchResult} (hs : scratch.Valid)
    (hres : evaluateOneQuery g dist gt l k scratch startNode fuel = .ok (some (r, s))) :
    s.scratch.Valid ∧ BestFirst g dist startNode l r s := by
  rw [evaluateOneQuery] at hres
  split_ifs at hres with hlk hout
  cases hloop : searchLoop g dist fuel (searchStart dist l scratch startNode) with
  | none =>
    rw [hloop] at hres
    cases hres
  | some t =>
    rw [hloop] at hres
    dsimp only at hres
    obtain ⟨ht, hf, hdone⟩ := searchLoop_sound
      (searching_start hs dist l (Nat.lt_of_not_le hout)) (follows_start dist l scratch startNode) hloop
    split at hres
    · cases hres
    · cases hres
      exact ⟨ht.valid, ht.bestFirst hf hdone _⟩

theorem Reached.valid {scratch : SearchScratch} (h : Reached δ g scratch) : scratch.Valid := by
  induction h with
  | new => exact SearchScratch.new_valid
  | query _ hres ih => exact (evaluateOneQuery_bestFirst ih hres).1

theorem calculateRecall_ok {gt : GroundTruth δ} {k : ℕ} (hk : k ≤ gt.width) (res : List ℕ) :
    ∃ value, calculateRecall gt res k = .ok value := by
  rw [calculateRecall, if_neg (Nat.not_lt.mpr hk)]
  exact ⟨_, rfl⟩

/-- After any queries of its thread, a query ends; and unless it fails, it has seen what is to be
seen and expanded the nearest of it each time, its counters are right and its queue holds the
nearest of the nodes that it has seen. -/
theorem evaluateOneQuery_spec {scratch : SearchScratch} (hs : Reached δ g scratch) (dist : ℕ → δ)
    (gt : GroundTruth δ) (l k startNode : ℕ) :
    ∃ out, (∀ fuel, g.adj.length < fuel →
        evaluateOneQuery g dist gt l k scratch startNode fuel = out) ∧ out ≠ .ok none ∧
      (k ≤ l → startNode < g.adj.length → k ≤ gt.width → ∃ r s, out = .ok (some (r, s))) ∧
      ∀ r s, out = .ok (some (r, s)) → BestFirst g dist startNode l r s := by
  refine ⟨evaluateOneQuery g dist gt l k scratch startNode (g.adj.length + 1), ?_⟩
  have hsound : ∀ r s, evaluateOneQuery g dist gt l k scratch startNode (g.adj.length + 1) =
      .ok (some (r, s)) → BestFirst g dist startNode l r s :=
    fun r s hres => (evaluateOneQuery_bestFirst hs.valid hres).2
  by_cases hlk : l < k
  · refine ⟨fun fuel _ => ?_, ?_, fun hk => absurd hk (Nat.not_le.mpr hlk), hsound⟩
    · rw [evaluateOneQuery, evaluateOneQuery, if_pos hlk, if_pos hlk]
    · rw [evaluateOneQuery, if_pos hlk]
      simp
  by_cases hout : g.adj.length ≤ startNode
  · refine ⟨fun fuel _ => ?_, ?_, fun _ hlt => absurd hlt (Nat.not_lt.mpr hout), hsound⟩
    · rw [evaluateOneQuery, evaluateOneQuery, if_neg hlk, if_neg hlk, if_pos hout, if_pos hout]
    · rw [evaluateOneQuery, if_neg hlk, if_pos hout]
      simp
  obtain ⟨t, ht, hdone, hrun⟩ := searchLoop_spec
    (searching_start hs.valid dist l (Nat.lt_of_not_le hout)) (d := g.adj.length + 1) (by simp [searchStart])
  have heq : ∀ fuel, g.adj.length < fuel →
      searchLoop g dist fuel (searchStart dist l scratch startNode) = some t := by
    intro fuel hfuel
    exact hrun fuel (by simpa [searchStart] using hfuel)
  refine ⟨fun fuel hfuel => ?_, ?_, fun _ _ hk => ?_, hsound⟩
  · rw [evaluateOneQuery, evaluateOneQuery, heq fuel hfuel, heq _ (Nat.lt_succ_self _)]
  · rw [evaluateOneQuery, if_neg hlk, if_neg hout, heq _ (Nat.lt_succ_self _)]
    dsimp only
    split <;> simp
  · obtain ⟨value, hrecall⟩ := calculateRecall_ok hk
      ((t.queue.data.take (min k t.queue.data.length)).map Neighbor.id)
    rw [evaluateOneQuery, if_neg hlk, if_neg hout, heq _ (Nat.lt_succ_self _)]
    dsimp only
    rw [hrecall]
    exact ⟨_, _, rfl⟩

/-- Three nodes on a line, with a repeated neighbour and one that does not exist. -/
def threeOnLine : Graph := ⟨[[1, 1, 7], [2, 0], [0]], by decide⟩

/-- The row of a query whose nearest node is node 2. -/
def nearestIsTwo : GroundTruth ℕ := ⟨1, fun _ => 2, fun _ => 0⟩

/-- The second query of a thread, for a list of two: each node leads to the next, which is
nearer, and the list drops the first. -/
theorem second_query_bestFirst : ∃ scratch r s, Reached ℕ threeOnLine scratch ∧
    (∀ fuel, 3 < fuel → evaluateOneQuery threeOnLine (fun v => 2 - v) nearestIsTwo 2 1 scratch 0
      fuel = .ok (some (r, s))) ∧
    BestFirst threeOnLine (fun v => 2 - v) 0 2 r s ∧ r.hop = 3 ∧ r.distCalcs = 3 ∧
      s.expandedOrder = [0, 1, 2] ∧ s.queue.data.map Neighbor.id = [2, 1] := by
  have hok : ∀ {α : Type} {e : Except String (Option α)} {a : α}, a ∈ e.toOption.join →
      e = .ok (some a) := by
    rintro α (e | a) b h
    · cases h
    · exact congrArg Except.ok h
  obtain ⟨⟨r, s⟩, hfirst, ⟨r', s'⟩, hsecond, hhop, hcalcs, horder, hqueue⟩ :
      ∃ p ∈ (evaluateOneQuery threeOnLine (fun v => v) nearestIsTwo 2 1 .new 0 4).toOption.join,
      ∃ q ∈ (evaluateOneQuery threeOnLine (fun v => 2 - v) nearestIsTwo 2 1 p.2.scratch 0
        4).toOption.join, q.1.hop = 3 ∧ q.1.distCalcs = 3 ∧ q.2.expandedOrder = [0, 1, 2] ∧
          q.2.queue.data.map Neighbor.id = [2, 1] := by
    decide +kernel
  have hscratch := Reached.new.query (hok hfirst)
  obtain ⟨out, hrun, -, -, hspec⟩ := evaluateOneQuery_spec hscratch (fun v => 2 - v)
    nearestIsTwo 2 1 0
  obtain rfl := (hrun 4 (by decide)).symm.trans (hok hsecond)
  exact ⟨s.scratch, r', s', hscratch, hrun, hspec r' s' rfl, hhop, hcalcs, horder, hqueue⟩

end HiDANN.Tools
