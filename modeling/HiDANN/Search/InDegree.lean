import HiDANN.Search.CacheGen
import HiDANN.Search.CacheLoad
import Mathlib.Algebra.BigOperators.Group.List.Basic
import Mathlib.Data.Nat.ModEq
import Mathlib.Logic.Relation

/-! The in-degrees of the cache list generator, and the nodes that fill its list up. The
threads count the edges of a batch in a map of their own and add its entries to common
counters of 32 bits. Whatever the threads do in between, the counters end with the
in-degrees modulo `2 ^ 32`; and from in-degrees that fit, the queue keeps the nodes of
highest in-degree, and of smaller id among equals, since it is offered the ids in order. -/

namespace HiDANN.Search

open Relation

/-! ### The scan -/

/-- `++local_increments[u]`, with the entries in some order. -/
def increment : List (ℕ × ℕ) → ℕ → List (ℕ × ℕ)
  | [], u => [(u, 1)]
  | (w, n) :: entries, u =>
    if w = u then (w, (n + 1) % 2 ^ 32) :: entries else (w, n) :: increment entries u

/-- The ends of the edges that are counted for some nodes. -/
def edgesFrom (g : NodeGraph) (ids : List ℕ) : List ℕ :=
  ids.flatMap fun i => (g.neighbors (i % 2 ^ 32)).filter (· < g.numNodes)

def localIncrements (g : NodeGraph) (ids : List ℕ) : List (ℕ × ℕ) :=
  (edgesFrom g ids).foldl increment []

/-- The batches from node `i` on, for as many as `fuel`. -/
def batchesFrom (numNodes ioBatchSize : ℕ) : ℕ → ℕ → List (List ℕ)
  | 0, _ => []
  | fuel + 1, i =>
    if i < numNodes then
      List.range' i (min ioBatchSize (numNodes - i)) ::
        batchesFrom numNodes ioBatchSize fuel (i + ioBatchSize)
    else []

/-- The counters, the batches that no thread has begun, and for every thread the entries
that it still has to add. -/
structure ScanState where
  inDegrees : ℕ → ℕ
  unclaimed : List (List ℕ)
  threads : List (List (ℕ × ℕ))

def scanStart (g : NodeGraph) (env : CacheEnv) (numThreads : ℕ) : ScanState where
  inDegrees _ := 0
  unclaimed := batchesFrom g.numNodes env.batchSize g.numNodes 0
  threads := List.replicate numThreads []

/-- A thread that has nothing to add counts a batch, or a thread adds an entry atomically. -/
inductive ScanStep (g : NodeGraph) : ScanState → ScanState → Prop where
  | count {d : ℕ → ℕ} {before after : List (List ℕ)} {batch : List ℕ}
      {left right : List (List (ℕ × ℕ))} {entries : List (ℕ × ℕ)} :
      entries.Perm (localIncrements g batch) →
      ScanStep g ⟨d, before ++ batch :: after, left ++ [] :: right⟩
        ⟨d, before ++ after, left ++ entries :: right⟩
  | add {d : ℕ → ℕ} {batches : List (List ℕ)} {left right : List (List (ℕ × ℕ))} {v n : ℕ}
      {entries : List (ℕ × ℕ)} :
      ScanStep g ⟨d, batches, left ++ ((v, n) :: entries) :: right⟩
        ⟨Function.update d v ((d v + n) % 2 ^ 32), batches, left ++ entries :: right⟩

def ScanState.Finished (s : ScanState) : Prop := s.unclaimed = [] ∧ ∀ entries ∈ s.threads, entries = []

/-! ### What is counted -/

variable {g : NodeGraph}

/-- What some entries add to the counter of a node. -/
def due (v : ℕ) (entries : List (ℕ × ℕ)) : ℕ :=
  (entries.map fun e => if e.1 = v then e.2 else 0).sum

theorem due_cons (v : ℕ) (e : ℕ × ℕ) (entries : List (ℕ × ℕ)) :
    due v (e :: entries) = (if e.1 = v then e.2 else 0) + due v entries := List.sum_cons

theorem due_increment (v u : ℕ) (entries : List (ℕ × ℕ)) :
    due v (increment entries u) ≡ due v entries + if u = v then 1 else 0 [MOD 2 ^ 32] := by
  induction entries with
  | nil =>
    rw [increment, due_cons, Nat.add_comm]
  | cons e entries ih =>
    obtain ⟨w, n⟩ := e
    rw [increment]
    by_cases hw : w = u
    · subst hw
      rw [if_pos rfl, due_cons, due_cons]
      by_cases hv : w = v
      · rw [if_pos hv, if_pos hv, if_pos hv, Nat.add_right_comm]
        exact (Nat.mod_modEq _ _).add_right _
      · rw [if_neg hv, if_neg hv, if_neg hv]
        rfl
    · rw [if_neg hw, due_cons, due_cons, Nat.add_assoc]
      exact ih.add_left _

/-- A thread counts every edge of its batch. -/
theorem due_localIncrements (v : ℕ) (ids : List ℕ) :
    due v (localIncrements g ids) ≡ (edgesFrom g ids).count v [MOD 2 ^ 32] := by
  have hfold : ∀ (us : List ℕ) (entries : List (ℕ × ℕ)),
      due v (us.foldl increment entries) ≡ due v entries + us.count v [MOD 2 ^ 32] := by
    intro us
    induction us with
    | nil => exact fun entries => Nat.ModEq.refl _
    | cons u us ih =>
      intro entries
      have hcount : (u :: us).count v = (if u = v then 1 else 0) + us.count v := by
        rw [List.count_cons, Nat.add_comm]
        simp only [beq_iff_eq]
      rw [List.foldl_cons, hcount, ← Nat.add_assoc]
      exact (ih _).trans ((due_increment v u entries).add_right _)
  have h := hfold (edgesFrom g ids) []
  rwa [show due v [] = 0 from rfl, Nat.zero_add] at h

/-- What has been added, what the threads have to add and what no thread has counted. -/
def ScanState.total (g : NodeGraph) (v : ℕ) (s : ScanState) : ℕ :=
  s.inDegrees v + (s.threads.map (due v)).sum +
    (s.unclaimed.map fun batch => (edgesFrom g batch).count v).sum

theorem ScanStep.total_modEq {s s' : ScanState} (h : ScanStep g s s') (v : ℕ) :
    s'.total g v ≡ s.total g v [MOD 2 ^ 32] := by
  cases h with
  | @count d before after batch left right entries hperm =>
    have hdue : due v entries ≡ (edgesFrom g batch).count v [MOD 2 ^ 32] := by
      rw [due, (hperm.map _).sum_eq]
      exact due_localIncrements v batch
    have hnone : due v [] = 0 := rfl
    simp only [ScanState.total, List.map_append, List.map_cons, List.sum_append, List.sum_cons, hnone]
    rw [Nat.ModEq] at hdue ⊢
    omega
  | @add d batches left right w n entries =>
    simp only [ScanState.total, List.map_append, List.map_cons, List.sum_append, List.sum_cons, due_cons]
    rw [Nat.ModEq]
    by_cases hv : w = v
    · subst hv
      rw [Function.update_self, if_pos rfl]
      omega
    · rw [Function.update_of_ne (Ne.symm hv), if_neg hv]
      omega

theorem ScanStep.lt {s s' : ScanState} (h : ScanStep g s s') {v : ℕ} (hlt : s.inDegrees v < 2 ^ 32) :
    s'.inDegrees v < 2 ^ 32 := by
  cases h with
  | count => exact hlt
  | @add d batches left right w n entries =>
    dsimp only
    by_cases hv : v = w
    · subst hv
      rw [Function.update_self]
      exact Nat.mod_lt _ (by decide)
    · rwa [Function.update_of_ne hv]

/-! ### The batches -/

theorem flatten_batchesFrom {numNodes ioBatchSize : ℕ} (hpos : 0 < ioBatchSize) {fuel i : ℕ}
    (hfuel : numNodes ≤ i + fuel) :
    (batchesFrom numNodes ioBatchSize fuel i).flatten = List.range' i (numNodes - i) := by
  induction fuel generalizing i with
  | zero =>
    rw [show numNodes - i = 0 by omega]
    rfl
  | succ fuel ih =>
    rw [batchesFrom]
    split_ifs with hlt
    · rw [List.flatten_cons, ih (by omega)]
      rcases Nat.le_total ioBatchSize (numNodes - i) with hle | hle
      · rw [Nat.min_eq_left hle, List.range'_append_1]
        congr 1
        omega
      · rw [Nat.min_eq_right hle, show numNodes - (i + ioBatchSize) = 0 by omega, List.range'_zero,
          List.append_nil]
    · rw [show numNodes - i = 0 by omega]
      rfl

theorem count_edgesFrom_flatten (v : ℕ) (batches : List (List ℕ)) :
    (batches.map fun batch => (edgesFrom g batch).count v).sum =
      (edgesFrom g batches.flatten).count v := by
  induction batches with
  | nil => rfl
  | cons batch batches ih =>
    rw [List.map_cons, List.sum_cons, ih, List.flatten_cons, edgesFrom, edgesFrom, edgesFrom,
      List.flatMap_append, List.count_append]

theorem total_scanStart (env : CacheEnv) (numThreads v : ℕ) :
    (scanStart g env numThreads).total g v = (edgesFrom g (List.range g.numNodes)).count v := by
  have hflat := flatten_batchesFrom env.batchSize_pos (Nat.zero_add g.numNodes).ge
  have hdue : ((List.replicate numThreads []).map (due v)).sum = 0 := by
    rw [List.map_replicate, List.sum_replicate]
    exact Nat.mul_zero _
  rw [ScanState.total, scanStart, count_edgesFrom_flatten, hflat, hdue, List.range_eq_range']
  simp

/-- Nothing is lost in a run of the threads. -/
theorem scan_total {env : CacheEnv} {numThreads : ℕ} {s : ScanState}
    (hrun : ReflTransGen (ScanStep g) (scanStart g env numThreads) s) (v : ℕ) :
    s.total g v ≡ (edgesFrom g (List.range g.numNodes)).count v [MOD 2 ^ 32] ∧
      s.inDegrees v < 2 ^ 32 := by
  induction hrun with
  | refl =>
    rw [total_scanStart]
    exact ⟨Nat.ModEq.refl _, Nat.two_pow_pos 32⟩
  | tail _ hstep ih => exact ⟨(hstep.total_modEq v).trans ih.1, hstep.lt ih.2⟩

theorem scan_inDegrees {env : CacheEnv} {numThreads : ℕ} {s : ScanState}
    (hrun : ReflTransGen (ScanStep g) (scanStart g env numThreads) s) (hfin : s.Finished) (v : ℕ) :
    s.inDegrees v = inDegrees g v := by
  obtain ⟨htotal, hlt⟩ := scan_total hrun v
  have hdue : (s.threads.map (due v)).sum = 0 := by
    refine List.sum_eq_zero fun n hn => ?_
    obtain ⟨entries, hentries, rfl⟩ := List.mem_map.mp hn
    rw [hfin.2 entries hentries]
    rfl
  rw [ScanState.total, hdue, hfin.1, List.map_nil, List.sum_nil, Nat.add_zero, Nat.add_zero] at htotal
  rw [← Nat.mod_eq_of_lt hlt]
  exact htotal

theorem exists_finished (d : ℕ → ℕ) (batches : List (List ℕ)) (entries : List (ℕ × ℕ)) :
    ∃ s, ReflTransGen (ScanStep g) ⟨d, batches, [entries]⟩ s ∧ s.Finished := by
  induction batches generalizing d entries with
  | nil =>
    induction entries generalizing d with
    | nil => exact ⟨_, .refl, rfl, fun entries hentries => List.mem_singleton.mp hentries⟩
    | cons e entries ih =>
      obtain ⟨s, hrun, hfin⟩ := ih (Function.update d e.1 ((d e.1 + e.2) % 2 ^ 32))
      exact ⟨s, hrun.head (@ScanStep.add g d _ [] [] e.1 e.2 entries), hfin⟩
  | cons batch batches ihb =>
    induction entries generalizing d with
    | nil =>
      obtain ⟨s, hrun, hfin⟩ := ihb d (localIncrements g batch)
      have hstep : ScanStep g ⟨d, batch :: batches, [[]]⟩ ⟨d, batches, [localIncrements g batch]⟩ :=
        @ScanStep.count g d [] batches batch [] [] _ (List.Perm.refl _)
      exact ⟨s, hrun.head hstep, hfin⟩
    | cons e entries ih =>
      obtain ⟨s, hrun, hfin⟩ := ih (Function.update d e.1 ((d e.1 + e.2) % 2 ^ 32))
      exact ⟨s, hrun.head (@ScanStep.add g d _ [] [] e.1 e.2 entries), hfin⟩

theorem exists_scan (g : NodeGraph) (env : CacheEnv) :
    ∃ s, ReflTransGen (ScanStep g) (scanStart g env 1) s ∧ s.Finished :=
  exists_finished _ _ _

/-! ### The queue -/

theorem NodeIndegree.key_lt_iff (a b : NodeIndegree) :
    a.key < b.key ↔ b.degree < a.degree ∨ a.degree = b.degree ∧ a.id < b.id := by
  rw [NodeIndegree.key, NodeIndegree.key, Prod.Lex.toLex_lt_toLex]
  simp

variable (ops : IndegreeQueue) {selected : List ℕ} {needed : ℕ}

theorem id_lt_of_mem_offered {m : ℕ} (hm : m ≤ 2 ^ 32) {a : NodeIndegree}
    (ha : a ∈ offered g selected (List.range m)) : a.id < m := by
  have hid : a.id ∈ (offered g selected (List.range m)).map NodeIndegree.id := List.mem_map_of_mem ha
  rw [map_id_offered hm] at hid
  exact List.mem_range.mp (List.mem_filter.mp hid).1

/-- Among ids in order it is enough to compare the degrees. -/
theorem topUpStep_eq {m : ℕ} (hm : m < 2 ^ 32) (hout : m ∉ selected) {pq : List NodeIndegree}
    (hlt : ∀ a ∈ pq, a.id < m) :
    topUpStep ops g needed selected pq m = TopK.step ops needed pq (scanned g m) := by
  rw [topUpStep, Nat.mod_eq_of_lt hm, if_neg hout]
  have hscanned : scanned g m = ⟨m, inDegrees g m⟩ := by rw [scanned, Nat.mod_eq_of_lt hm]
  cases pq with
  | nil =>
    rw [hscanned]
    rfl
  | cons top rest =>
    have hbelow : (scanned g m).key < top.key ↔ top.degree < inDegrees g m := by
      have hid := hlt top List.mem_cons_self
      rw [NodeIndegree.key_lt_iff, hscanned]
      dsimp only
      omega
    rw [TopK.step.eq_def]
    rw [hscanned] at hbelow ⊢
    exact if_congr Iff.rfl rfl (if_congr hbelow.symm rfl rfl)

theorem offered_concat (is : List ℕ) (i : ℕ) :
    offered g selected (is ++ [i]) =
      offered g selected is ++ if i % 2 ^ 32 ∈ selected then [] else [scanned g i] := by
  rw [offered, offered, List.filter_append, List.map_append, List.filter_singleton]
  by_cases hi : i % 2 ^ 32 ∈ selected
  · rw [if_pos hi, decide_eq_false (not_not.mpr hi)]
    rfl
  · rw [if_neg hi, decide_eq_true hi]
    rfl

theorem topUpQueue_select (hwide : g.numNodes ≤ 2 ^ 32) :
    topUpQueue ops g needed selected =
      TopK.select ops needed (offered g selected (List.range g.numNodes)) := by
  have hprefix : ∀ m ≤ 2 ^ 32, (List.range m).foldl (topUpStep ops g needed selected) [] =
      TopK.select ops needed (offered g selected (List.range m)) := by
    intro m
    induction m with
    | zero => exact fun _ => rfl
    | succ m ih =>
      intro hm
      have hm' : m % 2 ^ 32 = m := Nat.mod_eq_of_lt hm
      rw [List.range_succ, List.foldl_append, ih (by omega), List.foldl_cons, List.foldl_nil]
      rw [offered_concat, hm']
      by_cases hin : m ∈ selected
      · rw [topUpStep, hm', if_pos hin, if_pos hin, List.append_nil]
      · have hqueue := TopK.select_selected ops needed (offered g selected (List.range m))
        rw [if_neg hin, topUpStep_eq ops hm hin fun a ha =>
          id_lt_of_mem_offered (by omega) (hqueue.mem ha)]
        exact (List.foldl_concat ..).symm
  exact hprefix g.numNodes hwide

/-! ### The nodes that are appended -/

def edgesInto (g : NodeGraph) (v : ℕ) : ℕ := ((List.range g.numNodes).flatMap g.neighbors).count v

def Precedes (g : NodeGraph) (u v : ℕ) : Prop :=
  edgesInto g v < edgesInto g u ∨ edgesInto g u = edgesInto g v ∧ u < v

/-- The first `needed` nodes that are not selected, in their order. -/
structure FirstNodes (g : NodeGraph) (selected : List ℕ) (needed : ℕ) (l : List ℕ) : Prop where
  outside : ∀ v ∈ l, v < g.numNodes ∧ v ∉ selected
  ordered : l.Pairwise (Precedes g)
  length_eq : l.length = min needed ((List.range g.numNodes).filter (· ∉ selected)).length
  first : ∀ v < g.numNodes, v ∉ selected → v ∉ l → ∀ u ∈ l, Precedes g u v

theorem edgesFrom_range (hwide : g.numNodes ≤ 2 ^ 32) :
    edgesFrom g (List.range g.numNodes) = (List.range g.numNodes).flatMap g.neighbors := by
  refine List.flatMap_congr fun i hi => ?_
  have hlt := List.mem_range.mp hi
  rw [Nat.mod_eq_of_lt (hlt.trans_le hwide), List.filter_eq_self]
  intro v hv
  exact decide_eq_true (g.neighbors_lt i hlt v hv).1

theorem inDegrees_eq (hwide : g.numNodes ≤ 2 ^ 32) (v : ℕ) :
    inDegrees g v = edgesInto g v % 2 ^ 32 := by
  rw [edgesInto, ← edgesFrom_range hwide]
  rfl

theorem precedes_of_key_le {a b : NodeIndegree} (ha : a.degree = edgesInto g a.id)
    (hb : b.degree = edgesInto g b.id) (hle : a.key ≤ b.key) (hne : a.id ≠ b.id) :
    Precedes g a.id b.id := by
  have hlt : a.key < b.key := by
    refine lt_of_le_of_ne hle fun heq => hne ?_
    exact congrArg (fun k => (ofLex k).2) heq
  rw [NodeIndegree.key_lt_iff, ha, hb] at hlt
  exact hlt

/-- Degrees that fit are the true ones. -/
theorem degree_of_mem_offered (hwide : g.numNodes ≤ 2 ^ 32)
    (hfit : ∀ v < g.numNodes, edgesInto g v < 2 ^ 32) {a : NodeIndegree}
    (ha : a ∈ offered g selected (List.range g.numNodes)) : a.degree = edgesInto g a.id := by
  obtain ⟨i, hi, rfl⟩ := List.mem_map.mp ha
  have hlt := List.mem_range.mp (List.mem_filter.mp hi).1
  rw [scanned, Nat.mod_eq_of_lt (hlt.trans_le hwide)]
  exact (inDegrees_eq hwide i).trans (Nat.mod_eq_of_lt (hfit i hlt))

theorem topK_firstNodes (hwide : g.numNodes ≤ 2 ^ 32)
    (hfit : ∀ v < g.numNodes, edgesInto g v < 2 ^ 32) :
    FirstNodes g selected needed (topK ops g needed selected) := by
  have hqueue := TopK.select_selected ops needed (offered g selected (List.range g.numNodes))
  rw [← topUpQueue_select ops hwide] at hqueue
  rw [topK]
  set pq := topUpQueue ops g needed selected
  set drained := TopK.drain ops pq.length pq with hdrained
  have hperm : drained.Perm pq := TopK.drain_perm rfl hqueue.isHeap
  obtain ⟨rest, hrest, hleast⟩ := hqueue.exists_rest
  have hids : (offered g selected (List.range g.numNodes)).map NodeIndegree.id = _ :=
    map_id_offered hwide
  have hnodup : ((pq ++ rest).map NodeIndegree.id).Nodup := by
    rw [(hrest.map _).nodup_iff, hids]
    exact List.nodup_range.filter _
  have hdegree : ∀ a ∈ pq ++ rest, a.degree = edgesInto g a.id := fun a ha =>
    degree_of_mem_offered hwide hfit (hrest.mem_iff.mp ha)
  have hmem : ∀ u, u ∈ (drained.map NodeIndegree.id).reverse ↔ ∃ a ∈ pq, a.id = u := by
    intro u
    rw [List.mem_reverse, (hperm.map _).mem_iff, List.mem_map]
  rw [List.map_append] at hnodup
  refine ⟨fun v hv => ?_, ?_, ?_, fun v hv hout hnot u hu => ?_⟩
  · obtain ⟨a, ha, rfl⟩ := (hmem v).mp hv
    have hoffered := List.mem_map_of_mem (f := NodeIndegree.id) (hqueue.mem ha)
    rw [hids] at hoffered
    simpa using hoffered
  · rw [List.pairwise_reverse, List.pairwise_map]
    have hdistinct : drained.Pairwise fun a b => a.id ≠ b.id := by
      rw [← List.pairwise_map, ← List.nodup_iff_pairwise_ne, (hperm.map _).nodup_iff]
      exact (List.nodup_append.mp hnodup).1
    have hsorted := TopK.drain_decreasing rfl hqueue.isHeap
    refine (hsorted.and hdistinct).imp_of_mem fun {a b} ha hb hab => ?_
    exact precedes_of_key_le (hdegree b (List.mem_append_left _ (hperm.mem_iff.mp hb)))
      (hdegree a (List.mem_append_left _ (hperm.mem_iff.mp ha))) hab.1 hab.2.symm
  · rw [List.length_reverse, List.length_map, hperm.length_eq, hqueue.length_eq, ← hids,
      List.length_map]
  · obtain ⟨a, ha, rfl⟩ := (hmem u).mp hu
    have hoffered : v ∈ (pq ++ rest).map NodeIndegree.id := by
      rw [(hrest.map _).mem_iff, hids, List.mem_filter, List.mem_range]
      exact ⟨hv, decide_eq_true hout⟩
    obtain ⟨b, hb, rfl⟩ := List.mem_map.mp hoffered
    have hbrest : b ∈ rest := (List.mem_append.mp hb).resolve_left fun hin =>
      hnot ((hmem b.id).mpr ⟨b, hin, rfl⟩)
    have hne : a.id ≠ b.id := fun heq => hnot ((hmem b.id).mpr ⟨a, ha, heq⟩)
    exact precedes_of_key_le (hdegree a (List.mem_append_left _ ha)) (hdegree b hb)
      (hleast a ha b hbrest) hne

/-- Whatever the batches and the threads, the counters hold the in-degrees and the first nodes
are appended, if and only if every in-degree fits its counter. -/
theorem inDegree_topUp_iff (hwide : g.numNodes ≤ 2 ^ 32) :
    (∀ env numThreads s, ReflTransGen (ScanStep g) (scanStart g env numThreads) s → s.Finished →
        (∀ v < g.numNodes, s.inDegrees v = edgesInto g v) ∧ (∀ v, s.inDegrees v = inDegrees g v) ∧
          ∀ needed selected, FirstNodes g selected needed (topK ops g needed selected)) ↔
      ∀ v < g.numNodes, edgesInto g v < 2 ^ 32 := by
  constructor
  · intro h v hv
    obtain ⟨s, hrun, hfin⟩ := exists_scan g ⟨none, none⟩
    have hcount := (h ⟨none, none⟩ 1 s hrun hfin).1 v hv
    rw [← hcount]
    exact (scan_total hrun v).2
  · intro hfit env numThreads s hrun hfin
    refine ⟨fun v hv => ?_, scan_inDegrees hrun hfin, fun needed selected =>
      topK_firstNodes ops hwide hfit⟩
    rw [scan_inDegrees hrun hfin, inDegrees_eq hwide, Nat.mod_eq_of_lt (hfit v hv)]

/-- Node 2 with its two edges comes first. -/
theorem threeNodes_topUp :
    ∃ s, ReflTransGen (ScanStep threeNodes) (scanStart threeNodes ⟨none, none⟩ 1) s ∧ s.Finished ∧
      s.inDegrees 2 = 2 ∧ FirstNodes threeNodes [0] 1 (topK indegreeQueue threeNodes 1 [0]) := by
  have hfit : ∀ v < threeNodes.numNodes, edgesInto threeNodes v < 2 ^ 32 := by decide
  obtain ⟨s, hrun, hfin⟩ := exists_scan threeNodes ⟨none, none⟩
  have h := (inDegree_topUp_iff indegreeQueue (by decide)).mpr hfit ⟨none, none⟩ 1 s hrun hfin
  exact ⟨s, hrun, hfin, h.2.1 2, h.2.2 1 [0]⟩

/-- Many nodes with full lists of the first one. -/
def crowdedNodes : NodeGraph where
  numNodes := 67108864
  neighbors _ := List.replicate 64 0
  neighbors_lt u _ v hv := by
    rw [List.eq_of_mem_replicate hv]
    decide

theorem crowdedNodes_edgesInto : edgesInto crowdedNodes 0 = 2 ^ 32 := by
  have hcount : ∀ n, ((List.range n).flatMap fun _ => List.replicate 64 0).count 0 = n * 64 := by
    intro n
    induction n with
    | zero => rfl
    | succ n ih =>
      rw [List.range_succ, List.flatMap_append, List.count_append, ih, Nat.succ_mul]
      rfl
  exact hcount 67108864

/-- The counter of the first one is back at zero. -/
theorem crowdedNodes_miscounted :
    ¬ ∀ env numThreads s, ReflTransGen (ScanStep crowdedNodes) (scanStart crowdedNodes env numThreads) s →
      s.Finished →
        (∀ v < crowdedNodes.numNodes, s.inDegrees v = edgesInto crowdedNodes v) ∧
          (∀ v, s.inDegrees v = inDegrees crowdedNodes v) ∧ ∀ needed selected,
            FirstNodes crowdedNodes selected needed (topK indegreeQueue crowdedNodes needed selected) := by
  intro h
  obtain ⟨s, hrun, hfin⟩ := exists_scan crowdedNodes ⟨none, none⟩
  have hcount := (h ⟨none, none⟩ 1 s hrun hfin).1 0 (by decide)
  have hlt := (scan_total hrun 0).2
  rw [hcount, crowdedNodes_edgesInto] at hlt
  exact absurd hlt (lt_irrefl _)

end HiDANN.Search
