import HiDANN.Library.Runs
import HiDANN.Memory.OccludeList
import Mathlib.Algebra.Order.BigOperators.Group.List

/-! The loop of `consolidate_deletes`. `process_delete` replaces the deleted neighbours of a
location by their own neighbours, and prunes what has become too many. The iterations are
interleaved between any two critical sections: each reads one neighbour list at a time and
writes its own at the end. The lists of deleted locations are read and never written. -/

namespace HiDANN.Memory

open Search Relation

variable {K : Type*} [Field K] [LinearOrder K]

/-- What the loop reads and does not change; `setOrder` is the order in which a set gives the
elements that have been inserted. `prune` has `range` as its degree. -/
structure ConsolidateArgs (K : Type*) where
  locations : List ℕ
  oldDeleteSet : Finset ℕ
  setOrder : List ℕ → List ℕ
  prune : PruneArgs K

/-- An iteration of the loop. -/
inductive Process where
  | waiting
  | expanding (rest expandedNodes : List ℕ) (modify : Bool)
  | writing (occludeListOutput : List ℕ)
  | finished

structure ConsolidateState where
  graph : ℕ → List ℕ
  process : ℕ → Process

def insertNew (set : List ℕ) (v : ℕ) : List ℕ := if v ∈ set then set else set ++ [v]

namespace ConsolidateArgs

variable (A : ConsolidateArgs K)

/-- The neighbours of a deleted neighbour of `loc`. -/
def insertNeighbors (loc : ℕ) (nbrs expandedNodes : List ℕ) : List ℕ :=
  nbrs.foldl (fun set j => if j ≠ loc ∧ j ∉ A.oldDeleteSet then insertNew set j else set)
    expandedNodes

/-- `expanded_nghrs_vec` with the distances from `loc`, sorted. -/
def expandedNghrs (loc : ℕ) (expandedNodes : List ℕ) : List (Neighbor K) :=
  PruneArgs.sortPool ((A.setOrder expandedNodes).map fun ngh =>
    ⟨ngh, A.prune.getDistance loc ngh, false⟩)

def pruneArgs (loc : ℕ) : PruneArgs K :=
  { A.prune with location := loc, deleteSet := A.oldDeleteSet }

/-- One step of the iteration of `loc`: up to the end of its next critical section, or what
it does between two. -/
def step (fuel loc : ℕ) (s : ConsolidateState) : Option ConsolidateState :=
  let goto (p : Process) : ConsolidateState := { s with process := Function.update s.process loc p }
  match s.process loc with
  | .waiting => some (goto (.expanding (s.graph loc) [] false))
  | .expanding (ngh :: rest) expandedNodes modify =>
    if ngh ∈ A.oldDeleteSet then
      some (goto (.expanding rest (A.insertNeighbors loc (s.graph ngh) expandedNodes) true))
    else some (goto (.expanding rest (insertNew expandedNodes ngh) modify))
  | .expanding [] expandedNodes modify =>
    if modify then
      if expandedNodes.length ≤ A.prune.degree then
        some { goto .finished with
          graph := Function.update s.graph loc (A.setOrder expandedNodes) }
      else
        ((A.pruneArgs loc).occludeList fuel (A.expandedNghrs loc expandedNodes)).map fun output =>
          goto (.writing output)
    else some (goto .finished)
  | .writing output =>
    some { goto .finished with graph := Function.update s.graph loc output }
  | .finished => none

def start (graph : ℕ → List ℕ) : ConsolidateState := ⟨graph, fun _ => .waiting⟩

def Step (s s' : ConsolidateState) : Prop :=
  ∃ loc ∈ A.locations, ∃ fuel, A.step fuel loc s = some s'

def Done (s : ConsolidateState) : Prop := ∀ loc ∈ A.locations, s.process loc = .finished

/-- What the caller promises: a deleted location is not processed. -/
structure Valid : Prop where
  live : ∀ loc ∈ A.locations, loc ∉ A.oldDeleteSet
  setOrder_perm : ∀ l, (A.setOrder l).Perm l
  dist_nonneg : ∀ u v, 0 ≤ A.prune.getDistance u v
  metric_ne : A.prune.metric ≠ .innerProduct
  alpha_ge : 1 ≤ A.prune.alpha

/-! ### What an iteration makes of a list -/

/-- Reached from `loc` by an edge, or over a deleted neighbour. -/
def Near (graph : ℕ → List ℕ) (nbrs : List ℕ) (loc v : ℕ) : Prop :=
  v ∉ A.oldDeleteSet ∧
    (v ∈ nbrs ∨ ∃ d ∈ nbrs, d ∈ A.oldDeleteSet ∧ v ∈ graph d ∧ v ≠ loc)

/-- The new list of `loc`: as it was if none of its neighbours has been deleted; otherwise all
that is near it, or a robust prune of that. -/
structure Consolidated (graph : ℕ → List ℕ) (loc : ℕ) (ids : List ℕ) : Prop where
  unchanged : (∀ d ∈ graph loc, d ∉ A.oldDeleteSet) → ids = graph loc
  changed : (∃ d ∈ graph loc, d ∈ A.oldDeleteSet) → ∃ expandedNodes : List ℕ,
    expandedNodes.Nodup ∧ (∀ v, v ∈ expandedNodes ↔ A.Near graph (graph loc) loc v) ∧
    if expandedNodes.length ≤ A.prune.degree then ids.Perm expandedNodes
    else (A.pruneArgs loc).RobustPrune (A.prune.getDistance loc)
      ((A.expandedNghrs loc expandedNodes).take A.prune.maxc) ids

variable {A} {graph : ℕ → List ℕ} {loc : ℕ} {ids : List ℕ}

omit [Field K] [LinearOrder K] in
theorem mem_insertNew {set : List ℕ} {v w : ℕ} : w ∈ insertNew set v ↔ w ∈ set ∨ w = v := by
  rw [insertNew]
  split_ifs with h
  · refine (or_iff_left_of_imp ?_).symm
    rintro rfl
    exact h
  · rw [List.mem_append, List.mem_singleton]

theorem nodup_insertNew {set : List ℕ} (h : set.Nodup) (v : ℕ) : (insertNew set v).Nodup := by
  rw [insertNew]
  split_ifs with hv
  · exact h
  · exact List.concat_eq_append ▸ h.concat hv

omit [Field K] [LinearOrder K] in
theorem insertNeighbors_spec {nbrs set : List ℕ} (hnd : set.Nodup) :
    (A.insertNeighbors loc nbrs set).Nodup ∧ ∀ w, w ∈ A.insertNeighbors loc nbrs set ↔
      w ∈ set ∨ w ∈ nbrs ∧ w ≠ loc ∧ w ∉ A.oldDeleteSet := by
  induction nbrs generalizing set with
  | nil => exact ⟨hnd, by simp [insertNeighbors]⟩
  | cons j nbrs ih =>
    have hcons : A.insertNeighbors loc (j :: nbrs) set = A.insertNeighbors loc nbrs
        (if j ≠ loc ∧ j ∉ A.oldDeleteSet then insertNew set j else set) := rfl
    rw [hcons]
    by_cases hj : j ≠ loc ∧ j ∉ A.oldDeleteSet
    · rw [if_pos hj]
      obtain ⟨hnd', hmem⟩ := ih (nodup_insertNew hnd j)
      refine ⟨hnd', fun w => ?_⟩
      rw [hmem, mem_insertNew, List.mem_cons]
      constructor
      · rintro ((hw | rfl) | ⟨hw, hrest⟩)
        · exact .inl hw
        · exact .inr ⟨.inl rfl, hj⟩
        · exact .inr ⟨.inr hw, hrest⟩
      · rintro (hw | ⟨rfl | hw, hrest⟩)
        · exact .inl (.inl hw)
        · exact .inl (.inr rfl)
        · exact .inr ⟨hw, hrest⟩
    · rw [if_neg hj]
      obtain ⟨hnd', hmem⟩ := ih hnd
      refine ⟨hnd', fun w => ?_⟩
      rw [hmem, List.mem_cons]
      constructor
      · rintro (hw | ⟨hw, hrest⟩)
        · exact .inl hw
        · exact .inr ⟨.inr hw, hrest⟩
      · rintro (hw | ⟨rfl | hw, hrest⟩)
        · exact .inl hw
        · exact absurd hrest hj
        · exact .inr ⟨hw, hrest⟩

/-- All that is near `loc`, in the order of a set. -/
def Expanded (A : ConsolidateArgs K) (graph : ℕ → List ℕ) (loc : ℕ) (nbrs expandedNodes : List ℕ) :
    Prop :=
  expandedNodes.Nodup ∧ ∀ v, v ∈ expandedNodes ↔ A.Near graph nbrs loc v

omit [Field K] [LinearOrder K] in
theorem Expanded.keep {done expandedNodes : List ℕ} {ngh : ℕ}
    (h : A.Expanded graph loc done expandedNodes) (hngh : ngh ∉ A.oldDeleteSet) :
    A.Expanded graph loc (done ++ [ngh]) (insertNew expandedNodes ngh) := by
  refine ⟨nodup_insertNew h.1 ngh, fun v => ?_⟩
  rw [mem_insertNew, h.2, Near, Near]
  simp only [List.mem_append, List.mem_singleton]
  constructor
  · rintro (⟨hv, hmem | ⟨d, hd, hrest⟩⟩ | rfl)
    · exact ⟨hv, .inl (.inl hmem)⟩
    · exact ⟨hv, .inr ⟨d, .inl hd, hrest⟩⟩
    · exact ⟨hngh, .inl (.inr rfl)⟩
  · rintro ⟨hv, (hmem | rfl) | ⟨d, hd | rfl, hrest⟩⟩
    · exact .inl ⟨hv, .inl hmem⟩
    · exact .inr rfl
    · exact .inl ⟨hv, .inr ⟨d, hd, hrest⟩⟩
    · exact absurd hrest.1 hngh

omit [Field K] [LinearOrder K] in
theorem Expanded.replace {done expandedNodes : List ℕ} {ngh : ℕ}
    (h : A.Expanded graph loc done expandedNodes) (hngh : ngh ∈ A.oldDeleteSet) :
    A.Expanded graph loc (done ++ [ngh]) (A.insertNeighbors loc (graph ngh) expandedNodes) := by
  obtain ⟨hnd, hmem⟩ : (A.insertNeighbors loc (graph ngh) expandedNodes).Nodup ∧ _ :=
    insertNeighbors_spec h.1
  refine ⟨hnd, fun v => ?_⟩
  rw [hmem, h.2, Near, Near]
  simp only [List.mem_append, List.mem_singleton]
  constructor
  · rintro (⟨hv, hold | ⟨d, hd, hrest⟩⟩ | ⟨hv, hloc, hnot⟩)
    · exact ⟨hv, .inl (.inl hold)⟩
    · exact ⟨hv, .inr ⟨d, .inl hd, hrest⟩⟩
    · exact ⟨hnot, .inr ⟨ngh, .inr rfl, hngh, hv, hloc⟩⟩
  · rintro ⟨hv, (hold | rfl) | ⟨d, hd | rfl, hrest⟩⟩
    · exact .inl ⟨hv, .inl hold⟩
    · exact absurd hngh hv
    · exact .inl ⟨hv, .inr ⟨d, hd, hrest⟩⟩
    · exact .inr ⟨hrest.2.1, hrest.2.2, hv⟩

/-- What an iteration has got so far. -/
def ProcessOk (A : ConsolidateArgs K) (graph : ℕ → List ℕ) (loc : ℕ) : Process → Prop
  | .waiting => True
  | .expanding rest expandedNodes modify => ∃ done, graph loc = done ++ rest ∧
      A.Expanded graph loc done expandedNodes ∧ (modify ↔ ∃ d ∈ done, d ∈ A.oldDeleteSet)
  | .writing output => A.Consolidated graph loc output
  | .finished => True

/-- Only an iteration that has finished has changed its list. -/
structure ConsolidateInv (A : ConsolidateArgs K) (graph : ℕ → List ℕ) (s : ConsolidateState) :
    Prop where
  outside : ∀ v ∉ A.locations, s.process v = .waiting
  before : ∀ v, s.process v ≠ .finished → s.graph v = graph v
  after : ∀ v, s.process v = .finished → A.Consolidated graph v (s.graph v)
  process : ∀ v, A.ProcessOk graph v (s.process v)

theorem start_inv (graph : ℕ → List ℕ) : A.ConsolidateInv graph (start graph) where
  outside _ _ := rfl
  before _ _ := rfl
  after _ h := nomatch h
  process _ := trivial

/-- The steps an iteration has left. -/
def remaining (graph : ℕ → List ℕ) (s : ConsolidateState) (loc : ℕ) : ℕ :=
  match s.process loc with
  | .waiting => (graph loc).length + 3
  | .expanding rest _ _ => rest.length + 2
  | .writing _ => 1
  | .finished => 0

namespace ConsolidateInv

variable {s : ConsolidateState}

theorem goto (h : A.ConsolidateInv graph s) (hloc : loc ∈ A.locations)
    (hnot : s.process loc ≠ .finished) {p : Process} (hp : A.ProcessOk graph loc p)
    (hne : p ≠ .finished) :
    A.ConsolidateInv graph { s with process := Function.update s.process loc p } where
  outside v hv := by
    have hvl : v ≠ loc := fun he => hv (he ▸ hloc)
    dsimp only
    rw [Function.update_of_ne hvl]
    exact h.outside v hv
  before v hv := by
    dsimp only at hv
    rcases eq_or_ne v loc with rfl | hvl
    · exact h.before v hnot
    · rw [Function.update_of_ne hvl] at hv
      exact h.before v hv
  after v hv := by
    dsimp only at hv
    rcases eq_or_ne v loc with rfl | hvl
    · rw [Function.update_self] at hv
      exact absurd hv hne
    · rw [Function.update_of_ne hvl] at hv
      exact h.after v hv
  process := (Function.forall_update_iff s.process fun v p => A.ProcessOk graph v p).mpr
    ⟨hp, fun v _ => h.process v⟩

theorem finish (h : A.ConsolidateInv graph s) (hloc : loc ∈ A.locations) {ids : List ℕ}
    (hids : A.Consolidated graph loc ids) :
    A.ConsolidateInv graph
      ⟨Function.update s.graph loc ids, Function.update s.process loc .finished⟩ where
  outside v hv := by
    have hvl : v ≠ loc := fun he => hv (he ▸ hloc)
    dsimp only
    rw [Function.update_of_ne hvl]
    exact h.outside v hv
  before v hv := by
    dsimp only at hv ⊢
    rcases eq_or_ne v loc with rfl | hvl
    · rw [Function.update_self] at hv
      exact absurd rfl hv
    · rw [Function.update_of_ne hvl] at hv ⊢
      exact h.before v hv
  after v hv := by
    dsimp only at hv ⊢
    rcases eq_or_ne v loc with rfl | hvl
    · rwa [Function.update_self]
    · rw [Function.update_of_ne hvl] at hv ⊢
      exact h.after v hv
  process := (Function.forall_update_iff s.process fun v p => A.ProcessOk graph v p).mpr
    ⟨trivial, fun v _ => h.process v⟩

end ConsolidateInv

/-! ### The new lists -/

omit [Field K] [LinearOrder K] in
theorem near_self_iff {nbrs : List ℕ} (h : ∀ d ∈ nbrs, d ∉ A.oldDeleteSet) {v : ℕ} :
    A.Near graph nbrs loc v ↔ v ∈ nbrs := by
  rw [Near]
  constructor
  · rintro ⟨-, hv | ⟨d, hd, hdel, -⟩⟩
    · exact hv
    · exact absurd hdel (h d hd)
  · exact fun hv => ⟨h v hv, .inl hv⟩

theorem consolidated_self (h : ∀ d ∈ graph loc, d ∉ A.oldDeleteSet) :
    A.Consolidated graph loc (graph loc) where
  unchanged _ := rfl
  changed := fun ⟨d, hd, hdel⟩ => absurd hdel (h d hd)

theorem consolidated_all (hA : A.Valid) {expandedNodes : List ℕ}
    (h : A.Expanded graph loc (graph loc) expandedNodes)
    (hdel : ∃ d ∈ graph loc, d ∈ A.oldDeleteSet) (hlen : expandedNodes.length ≤ A.prune.degree) :
    A.Consolidated graph loc (A.setOrder expandedNodes) where
  unchanged hnone := by
    obtain ⟨d, hd, hdel⟩ := hdel
    exact absurd hdel (hnone d hd)
  changed _ := ⟨expandedNodes, h.1, h.2, by
    rw [if_pos hlen]
    exact hA.setOrder_perm _⟩

section Robust

variable [IsStrictOrderedRing K] [Archimedean K]

/-- The prune of what is near ends, with a robust prune. -/
theorem exists_occludeList (hA : A.Valid) {expandedNodes : List ℕ} (hnd : expandedNodes.Nodup)
    (loc : ℕ) : ∃ fuel out, (∀ fuel' ≥ fuel, (A.pruneArgs loc).occludeList fuel'
        (A.expandedNghrs loc expandedNodes) = some out) ∧
      (A.pruneArgs loc).RobustPrune (A.prune.getDistance loc)
        ((A.expandedNghrs loc expandedNodes).take A.prune.maxc) out := by
  set pool : List (Neighbor K) := (A.setOrder expandedNodes).map fun ngh =>
    ⟨ngh, A.prune.getDistance loc ngh, false⟩ with hpool
  have hids : (pool.map Neighbor.id).Nodup := by
    have : pool.map Neighbor.id = A.setOrder expandedNodes := by
      rw [hpool, List.map_map]
      exact List.map_id _
    rw [this]
    exact (hA.setOrder_perm _).nodup_iff.mpr hnd
  have hperm := PruneArgs.sortPool_perm pool
  refine PruneArgs.exists_occludeList (A := A.pruneArgs loc) hA.dist_nonneg hA.metric_ne hA.alpha_ge
    (PruneArgs.sortPool_sorted hids) ((hperm.map _).nodup_iff.mpr hids) fun c hc => ?_
  obtain ⟨ngh, -, rfl⟩ := List.mem_map.mp (hperm.mem_iff.mp hc)
  rfl

theorem consolidated_prune (hA : A.Valid) {expandedNodes : List ℕ}
    (h : A.Expanded graph loc (graph loc) expandedNodes)
    (hdel : ∃ d ∈ graph loc, d ∈ A.oldDeleteSet) (hlen : ¬ expandedNodes.length ≤ A.prune.degree)
    {fuel : ℕ} {out : List ℕ} (hrun : (A.pruneArgs loc).occludeList fuel
      (A.expandedNghrs loc expandedNodes) = some out) : A.Consolidated graph loc out where
  unchanged hnone := by
    obtain ⟨d, hd, hdel⟩ := hdel
    exact absurd hdel (hnone d hd)
  changed _ := ⟨expandedNodes, h.1, h.2, by
    obtain ⟨fuel', out', hall, hrobust⟩ := exists_occludeList hA h.1 loc
    have hmax := (A.pruneArgs loc).occludeList_mono (le_max_left fuel fuel') hrun
    rw [hall _ (le_max_right fuel fuel')] at hmax
    rw [if_neg hlen, ← Option.some.inj hmax]
    exact hrobust⟩

/-! ### Every interleaving -/

theorem ConsolidateInv.step (hA : A.Valid) {s s' : ConsolidateState}
    (h : A.ConsolidateInv graph s) (hloc : loc ∈ A.locations) {fuel : ℕ}
    (hstep : A.step fuel loc s = some s') : A.ConsolidateInv graph s' ∧
      ∃ p, s'.process = Function.update s.process loc p ∧
        remaining graph s' loc < remaining graph s loc := by
  have hok := h.process loc
  rw [ConsolidateArgs.step] at hstep
  rw [remaining, remaining]
  cases hp : s.process loc with
  | waiting =>
    rw [hp] at hstep hok
    have hgraph : s.graph loc = graph loc := h.before loc (by rw [hp]; exact nofun)
    cases hstep
    have hnext : A.ProcessOk graph loc (.expanding (s.graph loc) [] false) := by
      refine ⟨[], hgraph.symm, ⟨List.nodup_nil, fun v => ?_⟩, by simp⟩
      simp [Near]
    refine ⟨h.goto hloc (by rw [hp]; exact nofun) hnext nofun, _, rfl, ?_⟩
    simp [hgraph]
  | expanding rest expandedNodes modify =>
    rw [hp] at hstep hok
    obtain ⟨done, hdone, hexp, hmod⟩ := hok
    have hnot : s.process loc ≠ .finished := by
      rw [hp]
      exact nofun
    cases rest with
    | cons ngh rest =>
      dsimp only at hstep
      rw [List.append_cons] at hdone
      split_ifs at hstep with hngh
      · cases hstep
        have hread : s.graph ngh = graph ngh := by
          refine h.before ngh ?_
          rw [h.outside ngh fun hin => hA.live ngh hin hngh]
          exact nofun
        rw [hread]
        have hnext : A.ProcessOk graph loc
            (.expanding rest (A.insertNeighbors loc (graph ngh) expandedNodes) true) :=
          ⟨done ++ [ngh], hdone, hexp.replace hngh,
            iff_of_true rfl ⟨ngh, List.mem_append_right _ List.mem_cons_self, hngh⟩⟩
        refine ⟨h.goto hloc hnot hnext nofun, _, rfl, ?_⟩
        simp
      · cases hstep
        have hnext : A.ProcessOk graph loc
            (.expanding rest (insertNew expandedNodes ngh) modify) := by
          refine ⟨done ++ [ngh], hdone, hexp.keep hngh, hmod.trans ?_⟩
          simp [hngh, or_and_right, exists_or]
        refine ⟨h.goto hloc hnot hnext nofun, _, rfl, ?_⟩
        simp
    | nil =>
      rw [List.append_nil] at hdone
      subst hdone
      dsimp only at hstep
      split_ifs at hstep with hmodify hlen
      · cases hstep
        refine ⟨h.finish hloc (consolidated_all hA hexp (hmod.mp hmodify) hlen), _, rfl, ?_⟩
        simp
      · obtain ⟨out, hout, rfl⟩ := Option.map_eq_some_iff.mp hstep
        have hnext : A.ProcessOk graph loc (.writing out) :=
          consolidated_prune hA hexp (hmod.mp hmodify) hlen hout
        refine ⟨h.goto hloc hnot hnext nofun, _, rfl, ?_⟩
        simp
      · cases hstep
        have hself : A.Consolidated graph loc (s.graph loc) := by
          rw [h.before loc hnot]
          exact consolidated_self fun d hd hdel => hmodify (hmod.mpr ⟨d, hd, hdel⟩)
        have hfin := h.finish hloc hself
        rw [Function.update_eq_self] at hfin
        refine ⟨hfin, _, rfl, ?_⟩
        simp
  | writing out =>
    rw [hp] at hstep hok
    cases hstep
    refine ⟨h.finish hloc hok, _, rfl, ?_⟩
    simp
  | finished =>
    rw [hp] at hstep
    cases hstep

end Robust

/-! ### When the loop has ended -/

omit [Field K] in
theorem mem_expandedNghrs (hperm : ∀ l, (A.setOrder l).Perm l) {expandedNodes : List ℕ}
    {v : ℕ} (hv : v ∈ (A.expandedNghrs loc expandedNodes).map Neighbor.id) : v ∈ expandedNodes := by
  obtain ⟨m, hm, rfl⟩ := List.mem_map.mp hv
  obtain ⟨ngh, hngh, rfl⟩ := List.mem_map.mp ((PruneArgs.sortPool_perm _).mem_iff.mp hm)
  exact (hperm _).mem_iff.mp hngh

/-- Whatever happens to a list, it has what is near and has not been deleted. -/
theorem Consolidated.near (hA : A.Valid) (h : A.Consolidated graph loc ids) {v : ℕ}
    (hv : v ∈ ids) : A.Near graph (graph loc) loc v := by
  by_cases hdel : ∃ d ∈ graph loc, d ∈ A.oldDeleteSet
  · obtain ⟨expandedNodes, -, hmem, hids⟩ := h.changed hdel
    rw [← hmem]
    split_ifs at hids
    · exact hids.mem_iff.mp hv
    · obtain ⟨hpool, -⟩ := hids.mem v hv
      exact mem_expandedNghrs hA.setOrder_perm (((List.take_sublist _ _).map _).mem hpool)
  · have hnone : ∀ d ∈ graph loc, d ∉ A.oldDeleteSet := fun d hd hin => hdel ⟨d, hd, hin⟩
    rw [h.unchanged hnone] at hv
    exact (near_self_iff hnone).mpr hv

theorem Consolidated.length_le (h : A.Consolidated graph loc ids)
    (hdel : ∃ d ∈ graph loc, d ∈ A.oldDeleteSet) : ids.length ≤ A.prune.degree := by
  obtain ⟨expandedNodes, -, -, hids⟩ := h.changed hdel
  split_ifs at hids with hlen
  · exact hids.length_eq.trans_le hlen
  · exact hids.length_le

/-- A new list has different nodes if the old one had. -/
theorem Consolidated.nodup (h : A.Consolidated graph loc ids) (hnd : (graph loc).Nodup) :
    ids.Nodup := by
  by_cases hdel : ∃ d ∈ graph loc, d ∈ A.oldDeleteSet
  · obtain ⟨expandedNodes, hnew, -, hids⟩ := h.changed hdel
    split_ifs at hids
    · exact hids.nodup_iff.mpr hnew
    · exact hids.nodup
  · rw [h.unchanged fun d hd hin => hdel ⟨d, hd, hin⟩]
    exact hnd

/-- Every edge leads to a location or to a deleted one. -/
def Closed (A : ConsolidateArgs K) (graph : ℕ → List ℕ) : Prop :=
  ∀ v, v ∈ A.locations ∨ v ∈ A.oldDeleteSet → ∀ w ∈ graph v,
    w ∈ A.locations ∨ w ∈ A.oldDeleteSet

/-- No path leads to a deleted location. -/
theorem ConsolidateInv.reach (hA : A.Valid) {s : ConsolidateState} (h : A.ConsolidateInv graph s)
    (hdone : A.Done s) (hclosed : A.Closed graph) {v w : ℕ} (hv : v ∈ A.locations)
    (hpath : ReflTransGen (fun u w => w ∈ s.graph u) v w) : w ∈ A.locations := by
  induction hpath with
  | refl => exact hv
  | tail _ hedge ih =>
    rename_i u w _
    obtain ⟨hnot, hw | ⟨d, hd, hdel, hw, -⟩⟩ := (h.after u (hdone u ih)).near hA hedge
    · exact (hclosed u (.inl ih) w hw).resolve_right hnot
    · exact (hclosed d (.inr hdel) w hw).resolve_right hnot

section Robust

variable [IsStrictOrderedRing K] [Archimedean K]

theorem ConsolidateInv.sum (hA : A.Valid) {s s' : ConsolidateState} (h : A.ConsolidateInv graph s)
    (hstep : A.Step s s') : A.ConsolidateInv graph s' ∧
      (A.locations.map (remaining graph s')).sum < (A.locations.map (remaining graph s)).sum := by
  obtain ⟨loc, hloc, fuel, hstep⟩ := hstep
  obtain ⟨hinv, p, hp, hlt⟩ := h.step hA hloc hstep
  refine ⟨hinv, List.sum_lt_sum _ _ (fun v _ => ?_) ⟨loc, hloc, hlt⟩⟩
  rcases eq_or_ne v loc with rfl | hv
  · exact hlt.le
  · rw [remaining, remaining, hp, Function.update_of_ne hv]

theorem ConsolidateInv.run (hA : A.Valid) {s : ConsolidateState}
    (hrun : ReflTransGen A.Step (start graph) s) : A.ConsolidateInv graph s :=
  Runs.inv_run (fun _ _ h hstep => (ConsolidateInv.sum hA h hstep).1) (start_inv graph) hrun

/-- An iteration that has not finished can go on. -/
theorem ConsolidateInv.exists_step (hA : A.Valid) {s : ConsolidateState}
    (h : A.ConsolidateInv graph s) (hnot : ¬ A.Done s) : ∃ s', A.Step s s' := by
  obtain ⟨loc, hloc, hp⟩ : ∃ loc ∈ A.locations, s.process loc ≠ .finished := by
    by_contra hall
    exact hnot fun loc hloc => not_not.mp fun hp => hall ⟨loc, hloc, hp⟩
  suffices hstep : ∃ fuel s', A.step fuel loc s = some s' by
    obtain ⟨fuel, s', hstep⟩ := hstep
    exact ⟨s', loc, hloc, fuel, hstep⟩
  have hok := h.process loc
  simp only [ConsolidateArgs.step]
  cases hs : s.process loc with
  | waiting => exact ⟨0, _, rfl⟩
  | expanding rest expandedNodes modify =>
    cases rest with
    | cons ngh rest =>
      dsimp only
      split_ifs <;> exact ⟨0, _, rfl⟩
    | nil =>
      rw [hs] at hok
      obtain ⟨done, -, hexp, -⟩ := hok
      obtain ⟨fuel, out, hall, -⟩ := exists_occludeList hA hexp.1 loc
      dsimp only
      split_ifs
      · exact ⟨0, _, rfl⟩
      · exact ⟨fuel, _, by rw [hall fuel le_rfl]; rfl⟩
      · exact ⟨0, _, rfl⟩
  | writing output => exact ⟨0, _, rfl⟩
  | finished => exact absurd hs hp

end Robust

theorem Consolidated.eq_singleton {A : ConsolidateArgs K} {graph : ℕ → List ℕ} {loc w : ℕ}
    {ids : List ℕ} (h : A.Consolidated graph loc ids)
    (hdel : ∃ d ∈ graph loc, d ∈ A.oldDeleteSet) (hdeg : 0 < A.prune.degree)
    (hnear : ∀ v, A.Near graph (graph loc) loc v ↔ v = w) : ids = [w] := by
  obtain ⟨expandedNodes, hnd, hmem, hids⟩ := h.changed hdel
  have hperm : expandedNodes.Perm [w] :=
    (List.perm_ext_iff_of_nodup hnd (List.nodup_singleton w)).mpr fun v =>
      ((hmem v).trans (hnear v)).trans List.mem_singleton.symm
  rw [if_pos (hperm.length_eq.trans_le hdeg)] at hids
  exact (hids.trans hperm).eq_singleton

/-- Points of a line: the one in the middle has been deleted. -/
def middleDeleted : ConsolidateArgs ℚ where
  locations := [0, 2]
  oldDeleteSet := {1}
  setOrder := id
  prune := PruneArgs.onLine

theorem middleDeleted_near (u v : ℕ) :
    middleDeleted.Near (fun v => if v = 1 then [0, 2] else [1]) [1] u v ↔
      (v = 0 ∨ v = 2) ∧ v ≠ u := by
  constructor
  · rintro ⟨hlive, hmem | ⟨d, hd, -, hv, hne⟩⟩
    · exact absurd (List.mem_singleton.mp hmem ▸ Finset.mem_singleton_self 1) hlive
    · cases List.mem_singleton.mp hd
      exact ⟨by simpa using hv, hne⟩
  · rintro ⟨hv, hne⟩
    have hlive : v ∉ middleDeleted.oldDeleteSet := by rcases hv with rfl | rfl <;> decide
    exact ⟨hlive, .inr ⟨1, List.mem_singleton_self 1, Finset.mem_singleton_self 1,
      by simpa using hv, hne⟩⟩

end ConsolidateArgs

end HiDANN.Memory
