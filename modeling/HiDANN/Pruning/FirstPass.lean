import HiDANN.Construction.StagedRuns
import HiDANN.Pruning.Output

/-! The first-pass graph does not depend on the threads of the construction. A
candidate row is put together from the neighbours of the node and from what each
pair names for it; these parts lie in different partitions, so the row holds
distinct ids whatever their order, and pruning does not see the order. -/

namespace HiDANN.Pruning

open Construction Format

variable {ν δ : Type*} [LinearOrder δ] [Zero δ] [One δ] [Mul δ] [Div δ] {J : Job ν δ}

/-! ### The rows -/

/-- A candidate row of `g` with distinct ids of other nodes. -/
structure ProperRow (N g : ℕ) (ids : List ℕ) : Prop where
  nodup : ids.Nodup
  not_self : g ∉ ids
  lt : ∀ v ∈ ids, v < N

theorem ProperRow.perm {N g : ℕ} {ids ids' : List ℕ} (h : ProperRow N g ids) (hp : ids'.Perm ids) :
    ProperRow N g ids' where
  nodup := hp.nodup_iff.mpr h.nodup
  not_self hmem := h.not_self (hp.mem_iff.mp hmem)
  lt v hv := h.lt v (hp.mem_iff.mp hv)

section Node

variable {t li : ℕ} (ht : t < J.parts.P)

include ht

/-- What a pair names for a node lies in the range of the other partition. -/
theorem crossPart_range {j : ℕ} (hj : j < J.parts.P) (hne : j ≠ t) {v : ℕ}
    (hv : v ∈ crossPart J t j li) : J.parts.first j ≤ v ∧ v < J.parts.first (j + 1) :=
  (crossIds_spec _ ht hj (Ne.symm hne)).1 v (List.mem_of_mem_take hv)

theorem crossPart_nodup {j : ℕ} (hj : j < J.parts.P) (hne : j ≠ t) :
    (crossPart J t j li).Nodup :=
  (crossIds_spec _ ht hj (Ne.symm hne)).2.sublist (List.take_sublist _ _)

/-- What several other partitions' pairs name lies in the ranges of these. -/
theorem mem_crossParts {js : List ℕ} (hjs : ∀ j ∈ js, j < J.parts.P ∧ j ≠ t) {v : ℕ}
    (hv : v ∈ js.flatMap fun j => crossPart J t j li) :
    ∃ j < J.parts.P, j ≠ t ∧ J.parts.first j ≤ v ∧ v < J.parts.first (j + 1) := by
  obtain ⟨j, hmem, hv⟩ := List.mem_flatMap.mp hv
  obtain ⟨hj, hne⟩ := hjs j hmem
  exact ⟨j, hj, hne, crossPart_range ht hj hne hv⟩

/-- The ranges of different partitions share no id. -/
theorem nodup_crossParts {js : List ℕ} (hjs : ∀ j ∈ js, j < J.parts.P ∧ j ≠ t) (hnd : js.Nodup) :
    (js.flatMap fun j => crossPart J t j li).Nodup := by
  rw [List.nodup_flatMap]
  constructor
  · intro j hmem
    obtain ⟨hj, hne⟩ := hjs j hmem
    exact crossPart_nodup ht hj hne
  · refine List.Pairwise.imp_of_mem ?_ hnd
    intro i j hi hj hij v hvi hvj
    obtain ⟨hi, hit⟩ := hjs i hi
    obtain ⟨hj, hjt⟩ := hjs j hj
    exact hij (J.parts.part_unique (crossPart_range ht hi hit hvi)
      (crossPart_range ht hj hjt hvj))

/-- The candidates of a node are distinct ids of other nodes. -/
theorem properRow_candidates (hli : li < J.parts.size t)
    (hnd : ∀ nb ∈ J.parts.adj t, nb.Nodup) (file : Option PairsFile) :
    ProperRow J.parts.N (J.parts.first t + li) (Construction.candidates J file t li) := by
  classical
  have hN : ∀ u < J.parts.P, J.parts.first (u + 1) ≤ J.parts.N := fun u hu =>
    (J.parts.first_le (show u + 1 ≤ J.parts.P from hu)).trans_eq J.parts.first_P
  have hself := selfIds_spec (X := J.parts) li ht
  have hnbs : (J.parts.neighbours t li).Nodup := by
    have hl : li < (J.parts.adj t).length := by
      rwa [J.parts.adj_length t ht]
    rw [Partitions.neighbours, List.getD_eq_getElem _ _ hl]
    exact hnd _ (List.getElem_mem hl)
  have hown : ∀ v ∈ logged (selfIds J.parts t li), J.parts.first t ≤ v ∧
      v < J.parts.first (t + 1) ∧ v ≠ J.parts.first t + li := by
    intro v hv
    have h := hself.1 v (List.mem_of_mem_take hv)
    rwa [J.parts.globalId_eq ht hli] at h
  have hmem : J.parts.first t ≤ J.parts.first t + li ∧
      J.parts.first t + li < J.parts.first (t + 1) := by
    rw [J.parts.first_succ]
    omega
  have hsel : ∀ j ∈ (List.range J.P).filter fun j => j ≠ t ∧ Allows file t j,
      j < J.parts.P ∧ j ≠ t := by
    intro j hj
    obtain ⟨hj, hsel⟩ := List.mem_filter.mp hj
    rw [decide_eq_true_eq] at hsel
    exact ⟨List.mem_range.mp hj, hsel.1⟩
  refine ⟨?_, fun hg => ?_, fun v hv => ?_⟩
  · rw [Construction.candidates, List.nodup_append]
    refine ⟨(hself.2 hnbs).sublist (List.take_sublist _ _),
      nodup_crossParts ht hsel (List.nodup_range.filter _), ?_⟩
    rintro v hv w hw rfl
    obtain ⟨j, hj, hne, hrange⟩ := mem_crossParts ht hsel hw
    obtain ⟨h1, h2, -⟩ := hown v hv
    exact hne (J.parts.part_unique hrange ⟨h1, h2⟩)
  · rcases List.mem_append.mp hg with hg | hg
    · exact (hown _ hg).2.2 rfl
    · obtain ⟨j, hj, hne, hrange⟩ := mem_crossParts ht hsel hg
      exact hne (J.parts.part_unique hrange hmem)
  · rcases List.mem_append.mp hv with hv | hv
    · exact (hown v hv).2.1.trans_le (hN t ht)
    · obtain ⟨j, hj, -, hrange⟩ := mem_crossParts ht hsel hv
      exact hrange.2.trans_le (hN j hj)

end Node

/-! ### Two executions -/

/-- An execution of dump, pairs and compaction, in one process or in several. -/
def Executed (J : Job ν δ) (file : Option PairsFile) (fs out : Files) : Prop :=
  ∃ ω keep, Single J ω file keep fs out ∨ Staged J ω file keep fs out

theorem Executed.yields {file : Option PairsFile} {fs out : Files} (h : Executed J file fs out) :
    Yields J file out := by
  obtain ⟨ω, keep, h | h⟩ := h
  · exact h.yields
  · exact h.yields

theorem Executed.pair {file : Option PairsFile} {fs out : Files} (h : Executed J file fs out) :
    ∃ row, Fits J.parts.N row ∧ out.cand .idx = candIdx J.parts.N row ∧
      out.cand .ids = candIds J.parts.N row := by
  have hends : ∃ keep fs₁, Script.Prog.Ends (compaction J.toBuckets J.P keep) fs₁ ⟨⟩ out := by
    obtain ⟨ω, keep, h | h⟩ := h
    · obtain ⟨-, mask, -, -, logs, -, hends⟩ := (single_iff J).mp h
      exact ⟨keep, _, hends⟩
    · obtain ⟨fs₁, fs₂, -, -, h₃⟩ := h
      exact ⟨keep, fs₂, ((compact_iff J).mp h₃).2⟩
  obtain ⟨keep, fs₁, hends⟩ := hends
  obtain ⟨hl, rfl⟩ := (compaction_ends_iff ..).mp hends
  exact ⟨logRow J.toBuckets fs₁, fits_of_withinLimit J.toBuckets fs₁ hl, rfl, rfl⟩

/-- For partition graphs without repeated neighbours, two executions with the same
pairs, whatever their threads and the order of their records, leave candidate rows
of distinct ids of other nodes, each row a permutation of the other's, and pruning
either pair, with whatever memory and threads, writes the same graph. -/
theorem first_pass_deterministic {ε : Type*} [LinearOrder ε] (J : Job ν δ)
    (file : Option PairsFile) (hnd : ∀ t < J.P, ∀ nb ∈ J.parts.adj t, nb.Nodup)
    {fs fs' out out' : Files} (h : Executed J file fs out) (h' : Executed J file fs' out')
    (dist : ℕ → ℕ → ε) (a : Args) :
    (∀ g < J.parts.N, ProperRow J.parts.N g (candRow (out.cand .idx) (out.cand .ids) g) ∧
      (candRow (out'.cand .idx) (out'.cand .ids) g).Perm
        (candRow (out.cand .idx) (out.cand .ids) g)) ∧
    ∀ b b' sched sched' graph graph',
      ourPruning dist J.parts.N a b sched (out.cand .idx) (out.cand .ids) = .ok graph →
      ourPruning dist J.parts.N a b' sched' (out'.cand .idx) (out'.cand .ids) = .ok graph' →
      graph = graph' := by
  have hperm : ∀ g < J.parts.N, (candRow (out'.cand .idx) (out'.cand .ids) g).Perm
      (candRow (out.cand .idx) (out.cand .ids) g) := by
    intro g hg
    obtain ⟨t, ht, li, hli, rfl⟩ := J.parts.exists_node hg
    exact (h'.yields t ht li hli).trans (h.yields t ht li hli).symm
  refine ⟨fun g hg => ⟨?_, hperm g hg⟩, ?_⟩
  · obtain ⟨t, ht, li, hli, rfl⟩ := J.parts.exists_node hg
    exact (properRow_candidates ht hli (hnd t ht) file).perm (h.yields t ht li hli)
  · intro b b' sched sched' graph graph' hg hg'
    obtain ⟨row, hf, hidx, hids⟩ := h.pair
    obtain ⟨row', hf', hidx', hids'⟩ := h'.pair
    rw [hidx, hids] at hg hperm
    rw [hidx', hids'] at hg' hperm
    have hadj : adjacency dist J.parts.N a row = adjacency dist J.parts.N a row' := by
      refine List.map_congr_left fun g hg => ?_
      have hg := List.mem_range.mp hg
      have hp := hperm g hg
      rw [candRow_eq hf hg, candRow_eq hf' hg] at hp
      exact prune_perm dist a (hg.trans J.parts.N_lt) hp.symm
    rw [(graphFile_of_ok hf J.parts.N_lt hg).eq, (graphFile_of_ok hf' J.parts.N_lt hg').eq, hadj]

/-! ### Two executions of one job -/

omit [LinearOrder δ] [Zero δ] [One δ] [Mul δ] [Div δ] in
/-- Pruning what compaction leaves is pruning the rows of the logs. -/
theorem ourPruning_compacted {ε : Type*} [LinearOrder ε] (dist : ℕ → ℕ → ε) (a : Args) {fs : Files}
    (hl : WithinLimit J.toBuckets fs) (keep : Bool) {b : Budget} (hb : b.effectiveBatchBudget ≠ 0)
    (sched : Schedule) :
    ourPruning dist J.parts.N a b sched ((compacted J.toBuckets fs J.P keep).cand .idx)
        ((compacted J.toBuckets fs J.P keep).cand .ids) =
      .ok (memIndex (adjacency dist J.parts.N a (logRow J.toBuckets fs)) 0 0) := by
  have h : ourPruning dist J.parts.N a b sched _ _ = _ :=
    ourPruning_eq (fits_of_withinLimit J.toBuckets fs hl) J.parts.N_lt
  rwa [if_neg hb, if_neg (show ¬ J.toBuckets.N < J.parts.N from lt_irrefl _)] at h

/-- The one thread of a process, in the order of the code. -/
def oneByOne : List (Op (Fin 1)) :=
  (allRecords fourPoints ⟨false, 0, fun _ => false⟩).flatMap (Staging.callOps 0) ++ [.flush 0]

/-- Two threads, of which the second has the records of the pair and writes before the first. -/
def twoAtOnce : List (Op (Fin 2)) :=
  (selfDump fourPoints.parts).flatMap (fun r => Staging.callOps (if r.gid < 2 then 0 else 1) r) ++
    (crossRecords fourPoints ⟨false, 0, fun _ => false⟩ 0 1).flatMap (Staging.callOps 1) ++
      [.flush 1, .flush 0]

theorem fourPoints_executed {T : ℕ} {ops : List (Op (Fin T))} {s : Staging (Fin T)}
    (hrun : (Staging.fresh (openAll fourPoints.toBuckets.B true built)).run fourPoints.toBuckets
      ops = some s)
    (hf : s.Flushed)
    (hcalls : (calls ops).Perm (allRecords fourPoints ⟨false, 0, fun _ => false⟩)) :
    WithinLimit fourPoints.toBuckets (built.withLogs fourPoints.toBuckets.B s.logs) ∧
      Executed fourPoints none built (compacted fourPoints.toBuckets
        (built.withLogs fourPoints.toBuckets.B s.logs) fourPoints.P false) := by
  have hcompletes := fourPoints_completes (.inl rfl)
  have hmask : loadCrossPairMask fourPoints.P none = .ok ⟨false, 0, fun _ => false⟩ := rfl
  have hsurvives : SurvivesRange fourPoints twoThreads ⟨false, 0, fun _ => false⟩ 0
      (fourPoints.P - 1) := by
    refine (survivesRange_iff hmask (Nat.sub_le _ _)).mpr
      ⟨fun i _ hi t _ => ⟨Nat.one_ne_zero, [1], List.mem_cons_self, List.cons_ne_nil 1 []⟩, ?_⟩
    rw [Nat.sub_zero, ← List.range_eq_range']
    exact hcompletes.single
  obtain ⟨hl, hout⟩ := single_of_logged hmask false rfl hsurvives
    ((candidatesFit_iff fourPoints_lawful).mpr hcompletes.writes) ⟨T, ops, s, hrun, hf, hcalls, rfl⟩
  exact ⟨hl, twoThreads, false, .inl hout⟩

theorem four_points_deterministic : ∃ out out',
    Executed fourPoints none built out ∧ Executed fourPoints none built out' ∧
    candRow (out.cand .idx) (out.cand .ids) 1 = [0, 2] ∧
    candRow (out'.cand .idx) (out'.cand .ids) 1 = [2, 0] ∧
    (∀ g < 4, ProperRow 4 g (candRow (out.cand .idx) (out.cand .ids) g) ∧
      (candRow (out'.cand .idx) (out'.cand .ids) g).Perm
        (candRow (out.cand .idx) (out.cand .ids) g)) ∧
    ourPruning apart 4 twoByOne ⟨0, 1⟩ inOrder (out.cand .idx) (out.cand .ids) =
      .ok (memIndex [[1], [0, 2], [1, 3], [2]] 0 0) ∧
    ourPruning apart 4 twoByOne ⟨0, 1000⟩ backwards (out'.cand .idx) (out'.cand .ids) =
      .ok (memIndex [[1], [0, 2], [1, 3], [2]] 0 0) := by
  obtain ⟨s, hrun, hf, hrow, hadj⟩ : ∃ s ∈ (Staging.fresh (openAll fourPoints.toBuckets.B true
      built)).run fourPoints.toBuckets oneByOne, s.Flushed ∧
      logRow fourPoints.toBuckets (built.withLogs fourPoints.toBuckets.B s.logs) 1 = [0, 2] ∧
      adjacency apart 4 twoByOne (logRow fourPoints.toBuckets
        (built.withLogs fourPoints.toBuckets.B s.logs)) = [[1], [0, 2], [1, 3], [2]] := by
    decide +kernel
  obtain ⟨s', hrun', hf', hrow'⟩ : ∃ s ∈ (Staging.fresh (openAll fourPoints.toBuckets.B true
      built)).run fourPoints.toBuckets twoAtOnce, s.Flushed ∧
      logRow fourPoints.toBuckets (built.withLogs fourPoints.toBuckets.B s.logs) 1 = [2, 0] := by
    decide +kernel
  obtain ⟨hl, hout⟩ := fourPoints_executed hrun hf (by decide +kernel)
  obtain ⟨hl', hout'⟩ := fourPoints_executed hrun' hf' (by decide +kernel)
  obtain ⟨hrows, hgraphs⟩ := first_pass_deterministic fourPoints none (by decide) hout hout' apart
    twoByOne
  have hgraph := ourPruning_compacted apart twoByOne hl false (b := ⟨0, 1⟩) Nat.one_ne_zero inOrder
  have hgraph' := ourPruning_compacted apart twoByOne hl' false (b := ⟨0, 1000⟩) (by decide)
    backwards
  have hsame := hgraphs _ _ _ _ _ _ hgraph hgraph'
  rw [← hsame] at hgraph'
  rw [show fourPoints.parts.N = 4 from rfl, hadj] at hgraph hgraph'
  refine ⟨_, _, hout, hout', ?_, ?_, hrows, hgraph, hgraph'⟩
  · exact (candRow_compacted _ _ hl _ _ (by decide)).trans hrow
  · exact (candRow_compacted _ _ hl' _ _ (by decide)).trans hrow'

end HiDANN.Pruning
