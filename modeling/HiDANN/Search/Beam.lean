import HiDANN.Search.Cache
import HiDANN.Search.Tracking
import Mathlib.Data.Finset.Card
import Mathlib.Data.Finset.Range
import Mathlib.Logic.Relation

/-! The traversal of `cached_beam_search_explicit`. A round takes up to
`beam_width` candidates from the queue: a cached one is expanded at once, the
others wait in the frontier, which is read from disk and expanded at the end of
the round. Distances are those of one query. -/

namespace HiDANN.Search

open NeighborPriorityQueue Relation

/-! ### The search -/

/-- The queue, the ids offered to it and the ids expanded, in order. -/
structure Traversal (δ : Type*) where
  retset : NeighborPriorityQueue δ
  visited : List ℕ
  expanded : List ℕ

/-- The traversal, the requests sent to the reader, and the counter `num_ios`. -/
structure BeamState (δ : Type*) where
  traversal : Traversal δ
  reads : List ℕ
  numIos : ℕ

variable {δ : Type*} [LinearOrder δ]

/-- An id is offered to the queue when it is seen for the first time. -/
def visit (dist : ℕ → δ) (t : Traversal δ) (v : ℕ) : Traversal δ :=
  if v ∈ t.visited then t
  else { t with visited := t.visited ++ [v], retset := t.retset.insert (candidate dist v) }

def expand (dist : ℕ → δ) (t : Traversal δ) (id : ℕ) (neighbors : List ℕ) : Traversal δ :=
  neighbors.foldl (visit dist) { t with expanded := t.expanded ++ [id] }

/-- Take the closest unexpanded candidate: expand it from the cache or put it
into the frontier. -/
def collectStep (dist : ℕ → δ) (cache : Cache) (s : Traversal δ × List ℕ) :
    Traversal δ × List ℕ :=
  match s.1.retset.closestUnexpanded with
  | (none, _) => s
  | (some nbr, q) =>
    match cache.neighbors nbr.id with
    | some neighbors => (expand dist { s.1 with retset := q } nbr.id neighbors, s.2)
    | none => ({ s.1 with retset := q }, s.2 ++ [nbr.id])

/-- The collecting loop; `num_seen` is `beam_width` less the fuel. -/
def collect (dist : ℕ → δ) (cache : Cache) (beamWidth : ℕ) :
    ℕ → Traversal δ × List ℕ → Traversal δ × List ℕ
  | 0, s => s
  | fuel + 1, s =>
    if s.1.retset.hasUnexpandedNode ∧ s.2.length < beamWidth then
      collect dist cache beamWidth fuel (collectStep dist cache s)
    else s

def beamRound (disk : ℕ → List ℕ) (dist : ℕ → δ) (cache : Cache) (beamWidth : ℕ)
    (s : BeamState δ) : BeamState δ :=
  let (t, frontier) := collect dist cache beamWidth beamWidth (s.traversal, [])
  { traversal := frontier.foldl (fun t id => expand dist t id (disk id)) t
    reads := s.reads ++ frontier
    numIos := (s.numIos + frontier.length) % 2 ^ 32 }

/-- The loop over the rounds, `none` when the fuel is not enough. -/
def beamLoop (disk : ℕ → List ℕ) (dist : ℕ → δ) (cache : Cache) (beamWidth ioLimit : ℕ) :
    ℕ → BeamState δ → Option (BeamState δ)
  | 0, _ => none
  | fuel + 1, s =>
    if s.traversal.retset.hasUnexpandedNode ∧ s.numIos < ioLimit then
      beamLoop disk dist cache beamWidth ioLimit fuel (beamRound disk dist cache beamWidth s)
    else some s

def beamStart (dist : ℕ → δ) (L start : ℕ) : BeamState δ :=
  ⟨visit dist ⟨empty L, [], []⟩ start, [], 0⟩

/-- The traversal of `cached_beam_search_explicit` from the medoid `start`. -/
def beamSearch (disk : ℕ → List ℕ) (dist : ℕ → δ) (cache : Cache) (beamWidth ioLimit L start : ℕ)
    (fuel : ℕ) : Option (BeamState δ) :=
  beamLoop disk dist cache beamWidth ioLimit fuel (beamStart dist L start)

/-! ### What every round keeps -/

/-- The queue tracks the visited ids, and the ids taken from it, which are the expanded and
the pending ones. Neighbours of expanded nodes have been visited, and nothing else but
the start node. -/
structure BeamInv (n : ℕ) (disk : ℕ → List ℕ) (dist : ℕ → δ) (L start : ℕ) (t : Traversal δ)
    (pending : List ℕ) : Prop where
  tracks : Tracks dist t.retset {v | v ∈ t.visited} {v | v ∈ t.expanded ++ pending}
  capacity : t.retset.capacity = L
  nodup : (t.expanded ++ pending).Nodup
  start_mem : start ∈ t.visited
  closed : ∀ u ∈ t.expanded, ∀ w ∈ disk u, w ∈ t.visited
  reached : ∀ v ∈ t.visited, v = start ∨ ∃ u ∈ t.expanded, v ∈ disk u
  reachable : ∀ v ∈ t.visited, ReflTransGen (fun u w => w ∈ disk u) start v
  lt : ∀ v ∈ t.visited, v < n

section Visit

variable {dist : ℕ → δ} {t : Traversal δ}

theorem mem_visit (t : Traversal δ) (v w : ℕ) :
    w ∈ (visit dist t v).visited ↔ w ∈ t.visited ∨ w = v := by
  unfold visit
  split_ifs with h
  · exact ⟨.inl, fun hw => hw.elim id fun he => he ▸ h⟩
  · simp

theorem visit_tracks {E : Set ℕ} (h : Tracks dist t.retset {v | v ∈ t.visited} E) (v : ℕ) :
    Tracks dist (visit dist t v).retset {w | w ∈ (visit dist t v).visited} E := by
  have hset : {w | w ∈ (visit dist t v).visited} = insert v {w | w ∈ t.visited} := by
    ext w
    rw [Set.mem_insert_iff, Set.mem_ofPred_eq, Set.mem_ofPred_eq, mem_visit, or_comm]
  rw [hset]
  have hins := h.insert v
  unfold visit
  split_ifs with hv
  · rwa [h.insert_mem hv] at hins
  · exact hins

theorem visits_spec {E : Set ℕ} (ids : List ℕ)
    (h : Tracks dist t.retset {v | v ∈ t.visited} E) :
    Tracks dist (ids.foldl (visit dist) t).retset
        {w | w ∈ (ids.foldl (visit dist) t).visited} E ∧
      (∀ w, w ∈ (ids.foldl (visit dist) t).visited ↔ w ∈ t.visited ∨ w ∈ ids) ∧
      (ids.foldl (visit dist) t).retset.capacity = t.retset.capacity ∧
      (ids.foldl (visit dist) t).expanded = t.expanded := by
  induction ids generalizing t with
  | nil => exact ⟨h, by simp, rfl, rfl⟩
  | cons v ids ih =>
    obtain ⟨htracks, hmem, hcap, hexp⟩ := ih (visit_tracks h v)
    have hcap' : (visit dist t v).retset.capacity = t.retset.capacity := by
      unfold visit
      split_ifs
      · rfl
      · exact insert_capacity _ _
    have hexp' : (visit dist t v).expanded = t.expanded := by
      unfold visit
      split_ifs <;> rfl
    refine ⟨htracks, fun w => ?_, hcap.trans hcap', hexp.trans hexp'⟩
    rw [List.foldl_cons, hmem, mem_visit, List.mem_cons, or_assoc]

end Visit

section Inv

variable {n L start : ℕ} {disk : ℕ → List ℕ} {dist : ℕ → δ} {t : Traversal δ} {pending : List ℕ}

theorem beamStart_inv (hL : 0 < L) (hstart : start < n) :
    BeamInv n disk dist L start (beamStart dist L start).traversal [] := by
  have hmem : ∀ v ∈ (beamStart dist L start).traversal.visited, v = start :=
    fun v h => List.mem_singleton.mp h
  have hempty : Tracks dist (⟨empty L, [], []⟩ : Traversal δ).retset
      {v | v ∈ (⟨empty L, [], []⟩ : Traversal δ).visited} {v | v ∈ ([] ++ [] : List ℕ)} := by
    have h : Tracks dist (empty L) ∅ ∅ := Tracks.empty hL
    simpa using h
  refine ⟨visit_tracks hempty start, insert_capacity _ _, List.nodup_nil, List.mem_singleton_self _,
    ?_, fun v h => .inl (hmem v h), fun v h => ?_, fun v h => ?_⟩
  · intro u hu
    cases hu
  · rw [hmem v h]
  · rwa [hmem v h]

theorem BeamInv.perm (h : BeamInv n disk dist L start t pending) {pending' : List ℕ}
    (hp : pending.Perm pending') : BeamInv n disk dist L start t pending' := by
  have hperm := hp.append_left t.expanded
  refine { h with tracks := ?_, nodup := hperm.nodup_iff.mp h.nodup }
  have hset : {v | v ∈ t.expanded ++ pending'} = {v | v ∈ t.expanded ++ pending} := by
    ext v
    exact hperm.mem_iff.symm
  rw [hset]
  exact h.tracks

theorem BeamInv.take (h : BeamInv n disk dist L start t pending)
    (hne : t.retset.hasUnexpandedNode) :
    ∃ m, (closestUnexpanded t.retset).1 = some m ∧ m.id < n ∧
      BeamInv n disk dist L start { t with retset := (closestUnexpanded t.retset).2 }
        (m.id :: pending) := by
  obtain ⟨m, hm, hV, hE, -, ht⟩ := h.tracks.take hne
  obtain ⟨-, -, -, -, -, hcap, -⟩ := closestUnexpanded_spec h.tracks.valid hne
  have hperm : (m.id :: (t.expanded ++ pending)).Perm (t.expanded ++ m.id :: pending) :=
    List.perm_middle.symm
  have hset : {v | v ∈ t.expanded ++ m.id :: pending} =
      insert m.id {v | v ∈ t.expanded ++ pending} := by
    ext v
    exact hperm.mem_iff.symm.trans List.mem_cons
  refine ⟨m, hm, h.lt _ hV, { h with
    tracks := ?_
    capacity := hcap.trans h.capacity
    nodup := hperm.nodup_iff.mp (List.nodup_cons.mpr ⟨hE, h.nodup⟩) }⟩
  rw [hset]
  exact ht

theorem BeamInv.expand {id : ℕ} (h : BeamInv n disk dist L start t (id :: pending))
    (hdisk : ∀ w ∈ disk id, w < n) :
    BeamInv n disk dist L start (expand dist t id (disk id)) pending := by
  obtain ⟨htracks, hmem, hcap, hexp⟩ := visits_spec
    (t := { t with expanded := t.expanded ++ [id] }) (disk id) h.tracks
  have hid : id ∈ t.visited := h.tracks.sub (by simp)
  have hsplit : t.expanded ++ id :: pending = (t.expanded ++ [id]) ++ pending := by simp
  refine ⟨?_, hcap.trans h.capacity, ?_, (hmem _).mpr (.inl h.start_mem), ?_, ?_, ?_, ?_⟩
  · rw [Search.expand, hexp, ← hsplit]
    exact htracks
  · rw [Search.expand, hexp, ← hsplit]
    exact h.nodup
  · intro u hu w hw
    rw [Search.expand, hexp, List.mem_append, List.mem_singleton] at hu
    refine (hmem w).mpr ?_
    rcases hu with hu | rfl
    · exact .inl (h.closed u hu w hw)
    · exact .inr hw
  · intro v hv
    rw [Search.expand, hexp]
    rcases (hmem v).mp hv with hv | hv
    · rcases h.reached v hv with rfl | ⟨u, hu, hvu⟩
      · exact .inl rfl
      · exact .inr ⟨u, List.mem_append_left _ hu, hvu⟩
    · exact .inr ⟨id, by simp, hv⟩
  · intro v hv
    rcases (hmem v).mp hv with hv | hv
    · exact h.reachable v hv
    · exact (h.reachable id hid).tail hv
  · intro v hv
    rcases (hmem v).mp hv with hv | hv
    · exact h.lt v hv
    · exact hdisk v hv

end Inv

/-! ### Rounds -/

section Rounds

variable {n L start beamWidth ioLimit : ℕ} {disk : ℕ → List ℕ} {dist : ℕ → δ} {cache : Cache}
  (hdisk : ∀ u < n, ∀ w ∈ disk u, w < n) (hcache : cache.Agrees disk)

include hdisk hcache

theorem collectStep_inv {s : Traversal δ × List ℕ} (h : BeamInv n disk dist L start s.1 s.2)
    (hne : s.1.retset.hasUnexpandedNode) :
    BeamInv n disk dist L start (collectStep dist cache s).1 (collectStep dist cache s).2 ∧
      ((collectStep dist cache s).1.expanded ++ (collectStep dist cache s).2).length =
        (s.1.expanded ++ s.2).length + 1 := by
  obtain ⟨m, hm, hlt, hinv⟩ := h.take hne
  have hstep : collectStep dist cache s = match cache.neighbors m.id with
      | some neighbors =>
        (expand dist { s.1 with retset := (closestUnexpanded s.1.retset).2 } m.id neighbors, s.2)
      | none => ({ s.1 with retset := (closestUnexpanded s.1.retset).2 }, s.2 ++ [m.id]) := by
    rw [collectStep, ← Prod.mk.eta (p := closestUnexpanded s.1.retset), hm]
  cases hc : cache.neighbors m.id with
  | none =>
    rw [hc] at hstep
    rw [hstep]
    refine ⟨hinv.perm ?_, ?_⟩
    · exact (List.perm_append_singleton m.id s.2).symm
    · simp
      omega
  | some neighbors =>
    rw [hc] at hstep
    obtain rfl := hcache m.id neighbors hc
    rw [hstep]
    obtain ⟨-, -, -, hexp⟩ := visits_spec
      (t := { s.1 with
        retset := (closestUnexpanded s.1.retset).2
        expanded := s.1.expanded ++ [m.id] }) (disk m.id) hinv.tracks
    refine ⟨hinv.expand (hdisk m.id hlt), ?_⟩
    simp only [expand, hexp]
    simp
    omega

theorem collect_inv (beamWidth fuel : ℕ) {s : Traversal δ × List ℕ}
    (h : BeamInv n disk dist L start s.1 s.2) :
    BeamInv n disk dist L start (collect dist cache beamWidth fuel s).1
        (collect dist cache beamWidth fuel s).2 ∧
      (s.1.expanded ++ s.2).length ≤ ((collect dist cache beamWidth fuel s).1.expanded ++
        (collect dist cache beamWidth fuel s).2).length := by
  induction fuel generalizing s with
  | zero => exact ⟨h, le_rfl⟩
  | succ fuel ih =>
    rw [collect]
    split_ifs with hc
    · obtain ⟨hstep, hlen⟩ := collectStep_inv hdisk hcache h hc.1
      obtain ⟨hinv, hle⟩ := ih hstep
      exact ⟨hinv, by omega⟩
    · exact ⟨h, le_rfl⟩

theorem collect_progress {t : Traversal δ} (hW : 0 < beamWidth)
    (h : BeamInv n disk dist L start t []) (hne : t.retset.hasUnexpandedNode) :
    t.expanded.length < ((collect dist cache beamWidth beamWidth (t, [])).1.expanded ++
      (collect dist cache beamWidth beamWidth (t, [])).2).length := by
  obtain ⟨fuel, hfuel⟩ := Nat.exists_eq_succ_of_ne_zero hW.ne'
  have hcond : (t, ([] : List ℕ)).1.retset.hasUnexpandedNode ∧
      (t, ([] : List ℕ)).2.length < beamWidth := ⟨hne, hW⟩
  obtain ⟨hstep, hlen⟩ := collectStep_inv hdisk hcache (s := (t, [])) h hne
  have hle := (collect_inv hdisk hcache beamWidth fuel hstep).2
  have heq : collect dist cache beamWidth beamWidth (t, []) =
      collect dist cache beamWidth fuel (collectStep dist cache (t, [])) := by
    conv_lhs => rw [hfuel, collect, ← hfuel, if_pos hcond]
  rw [heq]
  simp only [List.append_nil] at hlen
  omega

omit hcache in
theorem expandFrontier_inv {t : Traversal δ} {frontier : List ℕ}
    (h : BeamInv n disk dist L start t frontier) :
    BeamInv n disk dist L start (frontier.foldl (fun t id => expand dist t id (disk id)) t) [] ∧
      (frontier.foldl (fun t id => expand dist t id (disk id)) t).expanded =
        t.expanded ++ frontier := by
  induction frontier generalizing t with
  | nil => exact ⟨h, (List.append_nil _).symm⟩
  | cons id frontier ih =>
    have hid : id < n := h.lt _ (h.tracks.sub (by simp))
    obtain ⟨hinv, hexp⟩ := ih (h.expand (hdisk id hid))
    obtain ⟨-, -, -, he⟩ := visits_spec (t := { t with expanded := t.expanded ++ [id] }) (disk id)
      h.tracks
    refine ⟨hinv, ?_⟩
    rw [List.foldl_cons, hexp, expand, he]
    simp

theorem beamRound_inv {s : BeamState δ} (h : BeamInv n disk dist L start s.traversal []) :
    BeamInv n disk dist L start (beamRound disk dist cache beamWidth s).traversal [] :=
  (expandFrontier_inv hdisk
    (collect_inv hdisk hcache beamWidth beamWidth (s := (s.traversal, [])) h).1).1

theorem beamRound_progress {s : BeamState δ} (hW : 0 < beamWidth)
    (h : BeamInv n disk dist L start s.traversal [])
    (hne : s.traversal.retset.hasUnexpandedNode) : s.traversal.expanded.length <
      (beamRound disk dist cache beamWidth s).traversal.expanded.length := by
  have hexp := (expandFrontier_inv hdisk (collect_inv hdisk hcache beamWidth beamWidth
    (s := (s.traversal, [])) h).1).2
  have hlt := collect_progress hdisk hcache hW h hne
  rw [beamRound]
  dsimp only
  rw [hexp]
  exact hlt

end Rounds

theorem BeamInv.length_le {n L start : ℕ} {disk : ℕ → List ℕ} {dist : ℕ → δ} {t : Traversal δ}
    (h : BeamInv n disk dist L start t []) : t.expanded.length ≤ n := by
  have hnodup : t.expanded.Nodup := by simpa using h.nodup
  have hsub : t.expanded.toFinset ⊆ Finset.range n := by
    intro v hv
    refine Finset.mem_range.mpr (h.lt v (h.tracks.sub ?_))
    exact List.mem_append_left _ (List.mem_toFinset.mp hv)
  have := Finset.card_le_card hsub
  rwa [List.toFinset_card_of_nodup hnodup, Finset.card_range] at this

section Run

variable {n L start beamWidth ioLimit : ℕ} {disk : ℕ → List ℕ} {dist : ℕ → δ} {cache : Cache}
  (hdisk : ∀ u < n, ∀ w ∈ disk u, w < n) (hcache : cache.Agrees disk)

include hdisk hcache

/-- What a run ends with: nothing left to expand, or the limit reached. -/
theorem beamLoop_inv (fuel : ℕ) {s s' : BeamState δ}
    (h : BeamInv n disk dist L start s.traversal [])
    (hs : beamLoop disk dist cache beamWidth ioLimit fuel s = some s') :
    BeamInv n disk dist L start s'.traversal [] ∧
      (s'.traversal.retset.hasUnexpandedNode = false ∨ ioLimit ≤ s'.numIos) := by
  induction fuel generalizing s with
  | zero => cases hs
  | succ fuel ih =>
    rw [beamLoop] at hs
    split_ifs at hs with hc
    · exact ih (beamRound_inv hdisk hcache h) hs
    · obtain rfl := Option.some.inj hs
      refine ⟨h, ?_⟩
      rw [not_and_or, Bool.not_eq_true, not_lt] at hc
      exact hc

/-- Every round expands a node, so the rounds come to an end. -/
theorem beamLoop_isSome (hW : 0 < beamWidth) (fuel : ℕ) {s : BeamState δ}
    (h : BeamInv n disk dist L start s.traversal [])
    (hfuel : n < s.traversal.expanded.length + fuel) :
    (beamLoop disk dist cache beamWidth ioLimit fuel s).isSome := by
  induction fuel generalizing s with
  | zero =>
    have := h.length_le
    omega
  | succ fuel ih =>
    rw [beamLoop]
    split_ifs with hc
    · have := beamRound_progress hdisk hcache hW h hc.1
      exact ih (beamRound_inv hdisk hcache h) (by omega)
    · rfl

end Run

end HiDANN.Search
