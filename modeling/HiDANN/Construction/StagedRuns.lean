import HiDANN.Construction.Refinement
import Mathlib.Algebra.Order.BigOperators.Group.List

/-! When the staged construction does what the one in a single process does. What a node gets is
its own neighbours and, for every allowed pair with its partition, the ids that the greedy rule
keeps of the other partition. Both ways give that, where they end: but a thread of the single
process keeps its arena from anchor to anchor, and in the staged run it starts with none for each,
so that one may end and the other not. -/

namespace HiDANN.Construction

open FallibleFold Scatter Format Search

variable {ν δ : Type*} [LinearOrder δ] [Zero δ] [One δ] [Mul δ] [Div δ]

namespace Job

variable (J : Job ν δ) (file : Option PairsFile)

/-! ### The rows -/

omit [Zero δ] [One δ] [Mul δ] [Div δ] in
/-- The candidates of an id: its neighbours but itself, and for each partition that is allowed with
its own the ids that the rule keeps. A record has as many of them as 16 bits count. -/
def rowOf (g : ℕ) : List ℕ :=
  let t := J.parts.partOf g
  let li := g - J.parts.first t
  logged (((J.parts.neighbours t li).map fun v => J.parts.first t + v).filter fun v => v ≠ g) ++
    ((List.range J.P).filter fun j => j ≠ t ∧ Allows file t j).flatMap fun j =>
      logged (crossRule J.parts J.pairs t j li)

omit [Zero δ] [One δ] [Mul δ] [Div δ] in
/-- A row has the neighbours of its node and at most `R` ids of each partition. -/
theorem length_rowOf_le (g : ℕ) :
    (J.rowOf file g).length ≤
      (J.parts.neighbours (J.parts.partOf g) (g - J.parts.first (J.parts.partOf g))).length +
        J.P * J.pairs.R := by
  have hlogged : ∀ ids : List ℕ, (logged ids).length ≤ ids.length := fun ids =>
    (List.take_sublist _ ids).length_le
  have hrule : ∀ t j li, (logged (crossRule J.parts J.pairs t j li)).length ≤ J.pairs.R := by
    intro t j li
    refine (hlogged _).trans ((List.length_filter_le _ _).trans ?_)
    rw [List.length_map]
    exact Selection.length_select_le _ _ (Nat.zero_le _) _
  rw [Job.rowOf, List.length_append]
  refine Nat.add_le_add ((hlogged _).trans ((List.length_filter_le _ _).trans_eq
    (List.length_map _))) ?_
  rw [List.length_flatMap]
  refine (List.sum_le_card_nsmul _ J.pairs.R fun n hn => ?_).trans ?_
  · obtain ⟨j, -, rfl⟩ := List.mem_map.mp hn
    exact hrule _ _ _
  · rw [List.length_map, smul_eq_mul]
    exact Nat.mul_le_mul_right _ ((List.length_filter_le _ _).trans_eq List.length_range)

variable {J}

theorem rowOf_eq (hJ : J.pairs.Lawful) {g : ℕ} (hg : g < J.parts.N) :
    J.rowOf file g = candidatesOf J file g := by
  obtain ⟨t, ht, li, hli, rfl⟩ := J.parts.exists_node hg
  have hpart : J.parts.partOf (J.parts.first t + li) = t :=
    Partitions.partOf_eq ht ⟨Nat.le_add_right _ _, Nat.add_lt_add_left hli _⟩
  have hown : ((J.parts.neighbours t li).map fun v => J.parts.first t + v).filter
      (fun v => v ≠ J.parts.first t + li) = selfIds J.parts t li := by
    rw [selfIds, J.parts.globalId_eq ht hli]
    congr 1
    exact List.map_congr_left fun v hv => (J.parts.globalId_eq ht (J.parts.neighbours_lt ht hv)).symm
  rw [candidatesOf_node file ht hli, candidates, rowOf]
  simp only [hpart, Nat.add_sub_cancel_left, hown]
  congr 1
  refine List.flatMap_congr fun j hj => ?_
  have hj := List.mem_range.mp (List.mem_of_mem_filter hj)
  rw [crossPart, crossIds_eq_rule hJ ht hj]

/-! ### What ends a process -/

variable (J)

/-- An index that both ways load: an anchor's or a target's. -/
def Loaded (t : ℕ) : Prop := t + 1 < J.P ∨ ∃ i < t, t < J.P ∧ Allows file i t

omit [LinearOrder δ] [Zero δ] [One δ] [Mul δ] [Div δ] in
theorem loadIndex_ok_iff (t : ℕ) :
    J.loadIndex t = .ok () ↔ J.parts.D ≠ 0 ∧ ∃ nb ∈ J.parts.adj t, nb ≠ [] := by
  have hmax : ∀ (l : List (List ℕ)) (r : ℕ),
      (l.map List.length).foldl max r = 0 ↔ r = 0 ∧ ∀ nb ∈ l, nb = [] := by
    intro l
    induction l with
    | nil => simp
    | cons nb l ih =>
      intro r
      rw [List.map_cons, List.foldl_cons, ih, Nat.max_eq_zero_iff, and_assoc, List.forall_mem_cons,
        List.length_eq_zero_iff]
  have hL := J.pairs.L_pos
  simp only [loadIndex, hmax, true_and]
  split_ifs with h
  · refine iff_of_false (by simp) ?_
    rintro ⟨hD, nb, hnb, hne⟩
    rcases h with h | h | h
    · omega
    · exact hne (h nb hnb)
    · exact hD h
  · rw [not_or, not_or] at h
    push Not at h
    exact iff_of_true rfl ⟨h.2.2, h.2.1⟩

end Job

/-- The pairs of an anchor, with the last target first. -/
def anchorPairs (P : ℕ) (file : Option PairsFile) (i : ℕ) : List (Side × Side) :=
  ((List.range' (i + 1) (P - 1 - i)).reverse.filter fun j => Allows file i j).map (pairOf i)

theorem crossSteps_eq_anchorPairs {P : ℕ} {file : Option PairsFile} {mask : CrossPairMask}
    (hmask : loadCrossPairMask P file = .ok mask) (b e : ℕ) :
    crossSteps P (-1) mask b e = (List.range' b (e - b)).flatMap (anchorPairs P file) := by
  rw [crossSteps_eq]
  refine List.flatMap_congr fun i _ => ?_
  rw [anchorPairs, partners]
  congr 1
  refine List.filter_congr fun j hj => decide_eq_decide.mpr ?_
  rw [List.mem_reverse, List.mem_range'_1] at hj
  rw [crossPairSelected_iff hmask (by omega) (by omega) (by omega)]
  exact and_iff_right (by omega)

theorem mem_anchorPairs {P i t : ℕ} {file : Option PairsFile} (hi : i < P) :
    t ∈ (anchorPairs P file i).map (fun p => p.2.index) ↔ i < t ∧ t < P ∧ Allows file i t := by
  simp only [anchorPairs, List.map_map, List.mem_map, List.mem_filter, List.mem_reverse,
    List.mem_range'_1, decide_eq_true_eq, Function.comp_apply, pairOf, exists_eq_right]
  constructor
  · rintro ⟨hrange, hallows⟩
    exact ⟨by omega, by omega, hallows⟩
  · rintro ⟨hlt, hP, hallows⟩
    exact ⟨by omega, hallows⟩

/-! ### The refinement -/

/-- Nothing ends either way: each index that is loaded has a neighbour in its lists, no bucket has
more candidates than one write transfers, and the arena of each thread has room in the single
process and in the process of each anchor. -/
structure Completes (J : Job ν δ) (ω : Team) (file : Option PairsFile) : Prop where
  loads : ∀ t, J.Loaded file t → J.parts.D ≠ 0 ∧ ∃ nb ∈ J.parts.adj t, nb ≠ []
  writes : ∀ b < J.toBuckets.B,
    4 * offset (fun u => (J.rowOf file (J.toBuckets.bucketBase b + u)).length)
      (J.toBuckets.bucketLimit b - J.toBuckets.bucketBase b) ≤ Posix.maxRwCount
  single : ∀ k < ω.threads, Room 0 (threadNodes J.parts J.pairs ω k
    ((List.range (J.P - 1)).flatMap (anchorPairs J.P file)))
  staged : ∀ i < J.P - 1, ∀ k < ω.threads,
    Room 0 (threadNodes J.parts J.pairs ω k (anchorPairs J.P file i))

/-- The staged run does what the single process does: both end and give every id its candidates,
the same for all files that allow the same pairs, and each allowed pair is processed once. -/
structure Refines (J : Job ν δ) (ω : Team) (file : Option PairsFile) : Prop where
  ends : ∀ keep fs, fs.hasSubindexes J.P = true →
    (∃ out, Single J ω file keep fs out) ∧ ∃ out, Staged J ω file keep fs out
  rows : ∀ keep fs out, Single J ω file keep fs out ∨ Staged J ω file keep fs out →
    ∀ g < J.parts.N, (candRow (out.cand .idx) (out.cand .ids) g).Perm (J.rowOf file g)
  same : ∀ file', (∀ i < J.P, ∀ j < J.P, i ≠ j → (Allows file i j ↔ Allows file' i j)) →
    ∀ ω' keep keep' fs fs' out out', Single J ω file keep fs out →
      Single J ω' file' keep' fs' out' ∨ Staged J ω' file' keep' fs' out' →
      ∀ g < J.parts.N, (candRow (out'.cand .idx) (out'.cand .ids) g).Perm
        (candRow (out.cand .idx) (out.cand .ids) g)
  once : ∀ mask, loadCrossPairMask J.P file = .ok mask → ProcessedOnce J file mask

variable {J : Job ν δ} {ω : Team} {file : Option PairsFile} {mask : CrossPairMask}

theorem candidatesFit_iff (hJ : J.pairs.Lawful) : CandidatesFit J file ↔ ∀ b < J.toBuckets.B,
    4 * offset (fun u => (J.rowOf file (J.toBuckets.bucketBase b + u)).length)
      (J.toBuckets.bucketLimit b - J.toBuckets.bucketBase b) ≤ Posix.maxRwCount := by
  refine forall₂_congr fun b _ => ?_
  have hlen : ∀ u < J.toBuckets.bucketLimit b - J.toBuckets.bucketBase b,
      (candidatesOf J file (J.toBuckets.bucketBase b + u)).length =
        (J.rowOf file (J.toBuckets.bucketBase b + u)).length := by
    intro u hu
    have hlimit : J.toBuckets.bucketLimit b ≤ J.parts.N := min_le_right _ _
    rw [Job.rowOf_eq file hJ (by omega)]
  rw [offset_congr hlen]

omit [Zero δ] [One δ] [Mul δ] [Div δ] in
theorem survivesRange_iff (hmask : loadCrossPairMask J.P file = .ok mask) {b e : ℕ} (he : e ≤ J.P) :
    SurvivesRange J ω mask b e ↔
      (∀ i, b ≤ i → i < e → ∀ t, t = i ∨ i < t ∧ t < J.P ∧ Allows file i t →
        J.parts.D ≠ 0 ∧ ∃ nb ∈ J.parts.adj t, nb ≠ []) ∧
      ∀ k < ω.threads, Room 0 (threadNodes J.parts J.pairs ω k
        ((List.range' b (e - b)).flatMap (anchorPairs J.P file))) := by
  rw [SurvivesRange, Job.Survives, crossSteps_eq_anchorPairs hmask]
  refine and_congr ?_ (forall₂_congr fun k _ => exists_arena_iff 0 0 _)
  simp only [← Job.loadIndex_ok_iff, List.mem_append, List.mem_range'_1, List.map_flatMap,
    List.mem_flatMap]
  constructor
  · intro h i hbi hie t ht
    rcases ht with rfl | ht
    · exact h _ (.inl ⟨hbi, by omega⟩)
    · exact h t (.inr ⟨i, ⟨hbi, by omega⟩, (mem_anchorPairs (by omega)).mpr ht⟩)
  · rintro h t (⟨hbt, hte⟩ | ⟨i, ⟨hbi, hie⟩, ht⟩)
    · exact h t hbt (by omega) t (.inl rfl)
    · exact h i hbi (by omega) t (.inr ((mem_anchorPairs (by omega)).mp ht))

theorem rows_of_ends (hJ : J.pairs.Lawful) {keep : Bool} {fs out : Files}
    (h : Single J ω file keep fs out ∨ Staged J ω file keep fs out) {g : ℕ} (hg : g < J.parts.N) :
    (candRow (out.cand .idx) (out.cand .ids) g).Perm (J.rowOf file g) := by
  rw [Job.rowOf_eq file hJ hg]
  obtain ⟨t, ht, li, hli, rfl⟩ := J.parts.exists_node hg
  rw [candidatesOf_node file ht hli]
  exact h.elim (fun h => h.yields t ht li hli) fun h => h.yields t ht li hli

theorem rowOf_congr {file' : Option PairsFile}
    (hsame : ∀ i < J.P, ∀ j < J.P, i ≠ j → (Allows file i j ↔ Allows file' i j)) {g : ℕ}
    (hJ : J.pairs.Lawful) (hg : g < J.parts.N) : J.rowOf file g = J.rowOf file' g := by
  rw [Job.rowOf_eq file hJ hg, Job.rowOf_eq file' hJ hg]
  obtain ⟨t, ht, li, hli, rfl⟩ := J.parts.exists_node hg
  rw [candidatesOf_node file ht hli, candidatesOf_node file' ht hli, candidates_congr ht hsame]

def twoThreads : Team where
  threads := 2
  rounds n k := if k = 0 then List.range' 0 ((n + 1) / 2) else List.range' ((n + 1) / 2) (n / 2)
  all n := by
    have hsum : (n + 1) / 2 + n / 2 = n := by omega
    have hhalves : List.range' 0 ((n + 1) / 2) ++ List.range' ((n + 1) / 2) (n / 2) =
        List.range n := by
      rw [List.range_eq_range', ← hsum, ← List.range'_append_1, Nat.zero_add, hsum]
    exact List.Perm.of_eq ((congrArg _ (List.append_nil _)).trans hhalves)

/-- Four points on a line, two in each partition, which are neighbours of each other. -/
def fourPoints : Job ℕ ℕ where
  parts := twoPairs fun t v => 3 * t + v
  pairs := {
    R := 2
    L := 2
    compare := fun q v => (q - v) ^ 2 + (v - q) ^ 2
    l2sqr := fun q v => (q - v) ^ 2 + (v - q) ^ 2
    tiny := 0
    L_pos := Nat.two_pos }
  buckets := 2

/-- The pair on one line. -/
def pairOnce : PairsFile := ⟨"once", some "0 1\n".toList⟩

/-- The pair in both orientations, one of them twice, and a comment. -/
def pairOften : PairsFile := ⟨"often", some "# pairs\n1 0\n\n0 1\n1 0\n".toList⟩

def built : Files where
  cand _ := []
  logs _ := none
  subindex _ := true
  subdata _ := true

theorem rowOf_fourPoints : ∀ g < 4,
    fourPoints.rowOf (some pairOnce) g = [[1], [0, 2], [3, 1], [2]].getD g [] := by
  decide

theorem fourPoints_lawful : fourPoints.pairs.Lawful :=
  ⟨unitLaws_nat, fun _ _ => Nat.zero_le _, fun _ _ => Nat.zero_le _⟩

theorem fourPoints_completes {file : Option PairsFile}
    (hfile : file = none ∨ file = some pairOnce ∨ file = some pairOften) :
    Completes fourPoints twoThreads file := by
  have hpairs : anchorPairs fourPoints.P file 0 = [pairOf 0 1] := by
    rcases hfile with rfl | rfl | rfl <;> decide
  have hroom : ∀ k < 2,
      Room 0 (threadNodes fourPoints.parts fourPoints.pairs twoThreads k [pairOf 0 1]) := by
    intro k hk
    refine (exists_arena_iff 0 0 _).mp ?_
    match k, hk with
    | 0, _ => exact ⟨_, rfl⟩
    | 1, _ => exact ⟨_, rfl⟩
  refine ⟨fun t _ => ⟨Nat.one_ne_zero, [1], List.mem_cons_self, List.cons_ne_nil 1 []⟩, ?_, ?_, ?_⟩
  · rcases hfile with rfl | rfl | rfl <;> decide
  · intro k hk
    rw [show List.range (fourPoints.P - 1) = [0] from rfl, List.flatMap_singleton, hpairs]
    exact hroom k hk
  · intro i hi k hk
    rw [Nat.lt_one_iff.mp hi, hpairs]
    exact hroom k hk

theorem fourPoints_same : ∀ i < 2, ∀ j < 2, i ≠ j →
    (Allows (some pairOnce) i j ↔ Allows (some pairOften) i j) := by
  decide

omit [Zero δ] [One δ] [Mul δ] [Div δ] in
/-- A search that starts at a node without neighbours visits only that. -/
theorem exportVisited_of_isolated {X : Partitions ν} {A : PairArgs ν δ} {t : ℕ} (q : ν)
    (hsize : 2 ≤ X.size t) (hnone : X.neighbours t (X.start t) = []) :
    exportVisited X A t q = [(X.start t, A.compare q (X.vec t (X.start t)))] := by
  obtain ⟨n, hn⟩ := Nat.exists_eq_add_of_le' hsize
  obtain ⟨L, hL⟩ := Nat.exists_eq_add_of_le' (show 1 ≤ A.L from A.L_pos)
  set dist : ℕ → δ := fun v => A.compare q (X.vec t v)
  have hstart : emitStart dist (L + 1) [X.start t] =
      ⟨⟨[⟨X.start t, dist (X.start t), false⟩], L + 1, 0⟩, [X.start t], [], 0, 0⟩ := by
    simp [emitStart, offer, NeighborPriorityQueue.empty, NeighborPriorityQueue.insert,
      NeighborPriorityQueue.rejects, NeighborPriorityQueue.size, NeighborPriorityQueue.bisect,
      candidate]
  have hstep : emitStep (X.neighbours t) dist (emitStart dist (L + 1) [X.start t]) =
      ⟨⟨[⟨X.start t, dist (X.start t), true⟩], L + 1, 1⟩, [X.start t],
        [(X.start t, dist (X.start t))], 1, 0⟩ := by
    simp [hstart, emitStep, offer, NeighborPriorityQueue.closestUnexpanded, hnone]
  have hmore : (emitStart dist (L + 1) [X.start t]).bestL.hasUnexpandedNode = true := by
    rw [hstart]
    rfl
  rw [exportVisited, iterateToFixedPointEmit, hn, hL, emitLoop, if_pos hmore, hstep, emitLoop]
  rfl

theorem globalId_ne {X : Partitions ν} {i j v w : ℕ} (hi : i < X.P) (hj : j < X.P) (hij : i ≠ j)
    (hv : v < X.size i) (hw : w < X.size j) : X.globalId i v ≠ X.globalId j w := by
  rw [X.globalId_eq hi hv, X.globalId_eq hj hw]
  intro he
  have hmem : X.first i ≤ X.first i + v ∧ X.first i + v < X.first (i + 1) :=
    ⟨Nat.le_add_right _ _, Nat.add_lt_add_left hv _⟩
  refine hij (X.part_unique hmem ?_)
  rw [he]
  exact ⟨Nat.le_add_right _ _, Nat.add_lt_add_left hw _⟩

omit [Zero δ] [One δ] [Mul δ] [Div δ] in
/-- All entries of such a pool are kept when the node is not its own neighbour. -/
theorem nodeSizes_of_isolated {X : Partitions ν} {A : PairArgs ν δ} {i j li : ℕ} (hi : i < X.P)
    (hj : j < X.P) (hij : i ≠ j) (hli : li < X.size i) (hsize : 2 ≤ X.size j)
    (hnone : X.neighbours j (X.start j) = []) (hself : li ∉ X.neighbours i li) :
    (nodeSizes X A ⟨i, i⟩ ⟨j, j⟩ li).n = 1 + (X.neighbours i li).length ∧
      (nodeSizes X A ⟨i, i⟩ ⟨j, j⟩ li).m = 1 + (X.neighbours i li).length := by
  have hvisited := exportVisited_of_isolated (A := A) (X.vec i li) hsize hnone
  constructor
  · simp only [nodeSizes, hvisited, List.length_singleton]
  · simp only [nodeSizes, crossPool, hvisited, List.map_cons, List.map_nil]
    rw [List.filter_eq_self.mpr, List.filter_eq_self.mpr, List.length_append, List.length_map,
      List.length_singleton]
    · intro c hc
      obtain ⟨lid, hlid, rfl⟩ := List.mem_map.mp hc
      have hlt := X.neighbours_lt hi hlid
      rw [decide_eq_true_eq, X.globalId_eq hi hlt, X.globalId_eq hi hli]
      intro he
      exact hself (Nat.add_left_cancel he ▸ hlid)
    · intro c hc
      rw [List.mem_singleton.mp hc, decide_eq_true_eq]
      exact globalId_ne hj hi hij.symm (X.start_lt j hj) hli

def oneThread : Team where
  threads := 1
  rounds n _ := List.range n
  all _ := List.Perm.of_eq (List.append_nil _)

/-- How many neighbours the second node of a partition has. -/
def wideDegree : ℕ → ℕ
  | 0 => 1366
  | 1 => 1360
  | _ => 1

def wideAdj (t : ℕ) : List (List ℕ) :=
  [] :: List.range' 2 (wideDegree t) :: List.replicate 1366 []

theorem wideDegree_le : ∀ t, 0 < wideDegree t ∧ wideDegree t ≤ 1366
  | 0 => by decide
  | 1 => by decide
  | _ + 2 => (by decide : 0 < 1 ∧ 1 ≤ 1366)

theorem partSize_wide (t : ℕ) : partSize 4104 3 t = 1368 := by
  rw [partSize, if_neg (by omega)]

theorem lt_of_mem_wideAdj {t v : ℕ} {nb : List ℕ} (hnb : nb ∈ wideAdj t) (hv : v ∈ nb) :
    2 ≤ v ∧ v < 1368 := by
  have := (wideDegree_le t).2
  rw [wideAdj, List.mem_cons, List.mem_cons] at hnb
  rcases hnb with rfl | rfl | hnb
  · exact absurd hv List.not_mem_nil
  · rw [List.mem_range'_1] at hv
    omega
  · rw [List.eq_of_mem_replicate hnb] at hv
    exact absurd hv List.not_mem_nil

/-- Three partitions, in each of which the second node has all the neighbours. -/
def wide : Job ℕ ℕ where
  parts := {
    N := 4104
    D := 1
    P := 3
    N_lt := by decide
    P_pos := Nat.succ_pos 2
    P_le := by decide
    adj := wideAdj
    start := fun _ => 0
    vec := fun t v => 1368 * t + v
    adj_length := fun t _ => by
      rw [partSize_wide, wideAdj, List.length_cons, List.length_cons, List.length_replicate]
    adj_lt := fun t _ nb hnb v hv => by
      rw [partSize_wide]
      exact (lt_of_mem_wideAdj hnb hv).2
    start_lt := fun t _ => by
      rw [partSize_wide]
      decide }
  pairs := {
    R := 1366
    L := 1
    compare := apart
    l2sqr := apart
    tiny := 1
    L_pos := Nat.one_pos }
  buckets := 1

theorem wide_lawful : wide.pairs.Lawful :=
  ⟨unitLaws_nat, fun _ _ => Nat.zero_le _, fun _ _ => Nat.zero_le _⟩

theorem neighbours_wide (t : ℕ) : wide.parts.neighbours t 0 = [] ∧
    wide.parts.neighbours t 1 = List.range' 2 (wideDegree t) ∧
    ∀ v, wide.parts.neighbours t (v + 2) = [] := by
  refine ⟨rfl, rfl, fun v => ?_⟩
  change (List.replicate 1366 ([] : List ℕ)).getD v [] = []
  rw [List.getD_eq_getElem?_getD, List.getElem?_replicate]
  split_ifs <;> rfl

theorem length_neighbours_wide (t li : ℕ) : (wide.parts.neighbours t li).length ≤ 1366 := by
  match li with
  | 0 => exact Nat.zero_le _
  | 1 =>
    rw [(neighbours_wide t).2.1, List.length_range']
    exact (wideDegree_le t).2
  | v + 2 =>
    rw [(neighbours_wide t).2.2]
    exact Nat.zero_le _

theorem nodeSizes_wide {i j li : ℕ} (hi : i < 3) (hj : j < 3) (hij : i ≠ j) (hli : li < 1368) :
    (nodeSizes wide.parts wide.pairs ⟨i, i⟩ ⟨j, j⟩ li).n =
        1 + (wide.parts.neighbours i li).length ∧
      (nodeSizes wide.parts wide.pairs ⟨i, i⟩ ⟨j, j⟩ li).m =
        1 + (wide.parts.neighbours i li).length := by
  have hsize : ∀ t, wide.parts.size t = 1368 := partSize_wide
  refine nodeSizes_of_isolated hi hj hij ?_ ?_ (neighbours_wide j).1 ?_
  · rwa [hsize]
  · rw [hsize]
    decide
  · match li with
    | 0 =>
      rw [(neighbours_wide i).1]
      exact List.not_mem_nil
    | 1 =>
      rw [(neighbours_wide i).2.1, List.mem_range'_1]
      omega
    | v + 2 =>
      rw [(neighbours_wide i).2.2]
      exact List.not_mem_nil

/-- The nodes of the one thread, the first two of them apart. -/
theorem threadNodes_wide {i j : ℕ} (hi : i < 3) (hj : j < 3) (hij : i ≠ j)
    (pairs : List (Side × Side)) (hpairs : ∀ p ∈ pairs, ∃ i < 3, ∃ j < 3, i ≠ j ∧ p = pairOf i j) :
    ∃ v w rest, threadNodes wide.parts wide.pairs oneThread 0 (pairOf i j :: pairs) =
        v :: w :: rest ∧
      v.n = 1 ∧ v.m = 1 ∧ w.n = 1 + wideDegree i ∧ w.m = 1 + wideDegree i ∧
        ∀ u ∈ rest, u.n ≤ 1367 := by
  have hsize : ∀ t, wide.parts.size t = 1368 := partSize_wide
  have hle : ∀ i < 3, ∀ j < 3, i ≠ j → ∀ li < 1368,
      (nodeSizes wide.parts wide.pairs ⟨i, i⟩ ⟨j, j⟩ li).n ≤ 1367 := by
    intro i hi j hj hij li hli
    rw [(nodeSizes_wide hi hj hij hli).1]
    exact Nat.add_le_add_left (length_neighbours_wide i li) 1
  have hrange : List.range 1368 = 0 :: 1 :: List.range' 2 1366 := by
    rw [List.range_eq_range', List.range'_succ, List.range'_succ]
  refine ⟨nodeSizes wide.parts wide.pairs ⟨i, i⟩ ⟨j, j⟩ 0,
    nodeSizes wide.parts wide.pairs ⟨i, i⟩ ⟨j, j⟩ 1,
    (List.range' 2 1366).map (nodeSizes wide.parts wide.pairs ⟨i, i⟩ ⟨j, j⟩) ++
      (List.range 1368).map (nodeSizes wide.parts wide.pairs ⟨j, j⟩ ⟨i, i⟩) ++
        threadNodes wide.parts wide.pairs oneThread 0 pairs, ?_, ?_, ?_, ?_, ?_, ?_⟩
  · simp only [threadNodes, List.flatMap_cons, pairOf, oneThread, hsize]
    conv_lhs => rw [hrange, List.map_cons, List.map_cons, ← hrange]
    simp only [List.cons_append]
  · rw [(nodeSizes_wide hi hj hij (by decide)).1, (neighbours_wide i).1]
    rfl
  · rw [(nodeSizes_wide hi hj hij (by decide)).2, (neighbours_wide i).1]
    rfl
  · rw [(nodeSizes_wide hi hj hij (by decide)).1, (neighbours_wide i).2.1, List.length_range']
  · rw [(nodeSizes_wide hi hj hij (by decide)).2, (neighbours_wide i).2.1, List.length_range']
  · intro u hu
    simp only [threadNodes, oneThread, hsize, List.mem_append, List.mem_map, List.mem_range'_1,
      List.mem_range, List.mem_flatMap] at hu
    rcases hu with (⟨li, hli, rfl⟩ | ⟨li, hli, rfl⟩) | ⟨p, hp, ⟨li, hli, rfl⟩ | ⟨li, hli, rfl⟩⟩
    · exact hle i hi j hj hij li (by omega)
    · exact hle j hj i hi hij.symm li hli
    · obtain ⟨i, hi, j, hj, hij, rfl⟩ := hpairs p hp
      exact hle i hi j hj hij li hli
    · obtain ⟨i, hi, j, hj, hij, rfl⟩ := hpairs p hp
      exact hle j hj i hi hij.symm li hli

theorem anchorPairs_wide : anchorPairs 3 none 0 = [pairOf 0 2, pairOf 0 1] ∧
    anchorPairs 3 none 1 = [pairOf 1 2] := by
  decide

/-- After the widest node the arena is large enough for all others. -/
theorem room_wide : Room 0 (threadNodes wide.parts wide.pairs oneThread 0
    ((List.range 2).flatMap (anchorPairs 3 none))) := by
  have hall : (List.range 2).flatMap (anchorPairs 3 none) =
      [pairOf 0 2, pairOf 0 1, pairOf 1 2] := by decide
  obtain ⟨v, w, rest, hnodes, hvn, hvm, hwn, hwm, hrest⟩ := threadNodes_wide (i := 0) (j := 2)
    (by decide) (by decide) (by decide) [pairOf 0 1, pairOf 1 2] (by
      intro p hp
      rcases List.mem_pair.mp hp with rfl | rfl
      · exact ⟨0, by decide, 1, by decide, by decide, rfl⟩
      · exact ⟨1, by decide, 2, by decide, by decide, rfl⟩)
  have hv : grown 0 v = 16384 := by
    rw [grown, hvn]
    decide
  have hw : grown 16384 w = 24576 := by
    rw [grown, hwn]
    decide
  rw [hall, hnodes]
  refine room_cons.mpr ⟨.inr ?_, room_cons.mpr ⟨.inr ?_, ?_⟩⟩
  · rw [hv, hvn, hvm]
    decide
  · rw [hv, hw, hwn, hwm]
    decide
  · rw [hv, hw]
    exact room_of_large fun u hu => by have := hrest u hu; omega

/-- An arena that starts empty is 4 bytes too small for the second node. -/
theorem not_room_wide :
    ¬ Room 0 (threadNodes wide.parts wide.pairs oneThread 0 (anchorPairs 3 none 1)) := by
  obtain ⟨v, w, rest, hnodes, hvn, hvm, hwn, hwm, -⟩ := threadNodes_wide (i := 1) (j := 2)
    (by decide) (by decide) (by decide) [] (by simp)
  have hv : grown 0 v = 16384 := by
    rw [grown, hvn]
    decide
  have hw : grown 16384 w = 16384 := by
    rw [grown, hwn]
    decide
  rw [anchorPairs_wide.2, hnodes, room_cons, room_cons, hv]
  rintro ⟨-, hfits | hfits, -⟩
  · rw [hwm] at hfits
    exact absurd hfits (by decide)
  · rw [hw, hwn, hwm] at hfits
    exact absurd hfits (by decide)

theorem wide_fits : CandidatesFit wide none := by
  rw [candidatesFit_iff wide_lawful]
  intro b hb
  have hrow : ∀ u, (wide.rowOf none (wide.toBuckets.bucketBase b + u)).length ≤ 5464 := by
    intro u
    refine (Job.length_rowOf_le wide none _).trans (Nat.add_le_add_right (length_neighbours_wide _ _) _)
  have hoffset := offset_le_mul hrow
    (wide.toBuckets.bucketLimit b - wide.toBuckets.bucketBase b)
  have hlimit : wide.toBuckets.bucketLimit b ≤ 4104 := min_le_right _ _
  have hlimits := Nat.mul_le_mul_right 5464 ((Nat.sub_le _ (wide.toBuckets.bucketBase b)).trans hlimit)
  have hmax : Posix.maxRwCount = 0x7ffff000 := rfl
  omega

end HiDANN.Construction
