import HiDANN.Library.Scatter
import HiDANN.Construction.Arena
import HiDANN.Construction.Buckets
import HiDANN.Construction.BucketLog
import HiDANN.Construction.Occlude
import HiDANN.Construction.PairMask
import HiDANN.Construction.VisitSearch

/-! The records of self-dump and of the processing of partition pairs. The nodes
are split into `P` ranges of consecutive ids, each with a graph over local ids.
Self-dump names each node's own neighbours; a pair searches the other
partition's graph for every node of both, prunes what was visited together with
the own neighbours, and names the survivors of the other partition. The pool of a
node and its factors lie in the arena of the node's thread. -/

namespace HiDANN.Construction

open Scatter Search

/-! ### Partitions -/

def partSize (N P t : ℕ) : ℕ := N / P + if t < N % P then 1 else 0

def makeOffsets (N P t : ℕ) : ℕ := offset (partSize N P) t

theorem makeOffsets_P {N P : ℕ} (hP : 0 < P) : makeOffsets N P P = N := by
  have hk : ∀ k, k ≤ P → makeOffsets N P k = k * (N / P) + min k (N % P) := by
    intro k hk
    induction k with
    | zero => simp [makeOffsets, offset]
    | succ k ih =>
      rw [makeOffsets, offset, ← makeOffsets, ih (by omega), partSize, Nat.succ_mul]
      split_ifs <;> omega
  rw [hk P le_rfl, min_eq_right (Nat.mod_lt N hP).le]
  exact Nat.div_add_mod N P

/-- The input of pair processing: `P` nonempty partitions of `N` points, each
with the adjacency lists of its graph file over local ids, its start node and
its vectors. An index of no points is never built. -/
structure Partitions (ν : Type*) where
  N : ℕ
  D : ℕ
  P : ℕ
  N_lt : N < 2 ^ 32
  P_pos : 0 < P
  P_le : P ≤ N
  adj : ℕ → List (List ℕ)
  start : ℕ → ℕ
  vec : ℕ → ℕ → ν
  adj_length : ∀ t < P, (adj t).length = partSize N P t
  adj_lt : ∀ t < P, ∀ nb ∈ adj t, ∀ v ∈ nb, v < partSize N P t
  start_lt : ∀ t < P, start t < partSize N P t

namespace Partitions

variable {ν δ : Type*} (X : Partitions ν)

def size (t : ℕ) : ℕ := partSize X.N X.P t

def first (t : ℕ) : ℕ := makeOffsets X.N X.P t

/-- End of a partition's ids: the next first id, or `N` for the last partition. -/
def last (t : ℕ) : ℕ := if t + 1 < X.P then X.first (t + 1) else X.N

/-- `get_neighbours` of a loaded index. -/
def neighbours (t v : ℕ) : List ℕ := (X.adj t).getD v []

theorem first_succ (t : ℕ) : X.first (t + 1) = X.first t + X.size t := rfl

theorem first_P : X.first X.P = X.N := makeOffsets_P X.P_pos

theorem last_eq {t : ℕ} (ht : t < X.P) : X.last t = X.first (t + 1) := by
  unfold last
  split_ifs with h
  · rfl
  · rw [← X.first_P, show X.P = t + 1 by omega]

theorem first_le {t u : ℕ} (h : t ≤ u) : X.first t ≤ X.first u := offset_le _ h

theorem exists_part {g : ℕ} (hg : g < X.N) : ∃ t < X.P, X.first t ≤ g ∧ g < X.first (t + 1) := by
  have h : ∀ k, g < X.first k → ∃ t < k, X.first t ≤ g ∧ g < X.first (t + 1) := by
    intro k hk
    induction k with
    | zero => exact absurd hk (Nat.not_lt_zero g)
    | succ k ih =>
      rcases Nat.lt_or_ge g (X.first k) with hlt | hge
      · obtain ⟨t, ht, h⟩ := ih hlt
        exact ⟨t, by omega, h⟩
      · exact ⟨k, by omega, hge, hk⟩
  exact h X.P (by rwa [X.first_P])

theorem exists_node {g : ℕ} (hg : g < X.N) :
    ∃ t < X.P, ∃ li < X.size t, g = X.first t + li := by
  obtain ⟨t, ht, h1, h2⟩ := X.exists_part hg
  obtain ⟨li, rfl⟩ := Nat.exists_eq_add_of_le h1
  rw [X.first_succ] at h2
  exact ⟨t, ht, li, by omega, rfl⟩

theorem part_unique {g t u : ℕ} (ht : X.first t ≤ g ∧ g < X.first (t + 1))
    (hu : X.first u ≤ g ∧ g < X.first (u + 1)) : t = u := by
  rcases Nat.lt_trichotomy t u with h | h | h
  · have := X.first_le (show t + 1 ≤ u from h)
    omega
  · exact h
  · have := X.first_le (show u + 1 ≤ t from h)
    omega

theorem neighbours_lt {t v w : ℕ} (ht : t < X.P) (hw : w ∈ X.neighbours t v) : w < X.size t := by
  unfold neighbours at hw
  rcases Nat.lt_or_ge v (X.adj t).length with hv | hv
  · rw [List.getD_eq_getElem _ _ hv] at hw
    exact X.adj_lt t ht _ (List.getElem_mem hv) w hw
  · rw [List.getD_eq_default _ _ hv] at hw
    cases hw

def globalId (t v : ℕ) : ℕ := (X.first t + v) % 2 ^ 32

theorem globalId_eq {t v : ℕ} (ht : t < X.P) (hv : v < X.size t) :
    X.globalId t v = X.first t + v := by
  have h1 := X.first_le (show t + 1 ≤ X.P from ht)
  have h2 := X.N_lt
  rw [X.first_P, X.first_succ] at h1
  exact Nat.mod_eq_of_lt (by omega)

theorem globalId_lt {t v : ℕ} (ht : t < X.P) (hv : v < X.size t) : X.globalId t v < X.N := by
  have := X.first_le (show t + 1 ≤ X.P from ht)
  rw [X.globalId_eq ht hv]
  rw [X.first_P, X.first_succ] at this
  omega

end Partitions

/-! ### Appending -/

/-- The call of `append_record` for the ids of a node; the length is a 16-bit
argument, and a call with length 0 returns at once. -/
def appendIds (gid : ℕ) (ids : List ℕ) : List Record :=
  if h : 0 < ids.length % 2 ^ 16 then
    [{ gid := gid % 2 ^ 32
       ids := (ids.take (ids.length % 2 ^ 16)).map fun v => v % 2 ^ 32
       gid_lt := Nat.mod_lt _ (by norm_num)
       ids_lt := by
        intro v hv
        obtain ⟨w, -, rfl⟩ := List.mem_map.mp hv
        exact Nat.mod_lt _ (by norm_num)
       ids_pos := by
        rw [List.length_map, List.length_take]
        exact lt_min h (Nat.pos_of_ne_zero fun h0 => by simp [h0] at h)
       ids_le := by
        rw [List.length_map, List.length_take]
        exact (min_le_left _ _).trans_lt (Nat.mod_lt _ (by norm_num)) }]
  else []

/-- What a call adds to the candidates of its node. -/
def logged (ids : List ℕ) : List ℕ := ids.take (ids.length % 2 ^ 16)

/-! ### Self-dump -/

section Records

variable {ν δ : Type*} (X : Partitions ν)

/-- `out` of the self-dump loop: the neighbours of a node other than itself. -/
def selfIds (t li : ℕ) : List ℕ :=
  ((X.neighbours t li).map (X.globalId t)).filter fun v => v ≠ X.globalId t li

def selfDump : List Record :=
  (List.range X.P).flatMap fun t => (List.range (X.size t)).flatMap fun li =>
    appendIds (X.globalId t li) (selfIds X t li)

/-! ### Cross pairs -/

/-- A partition as the loop sees it: the number its range is taken from, and the
partition whose index is loaded. -/
structure Side where
  part : ℕ
  index : ℕ

/-- The parameters of pair processing: the distance of the graph search, that of
the pruning, the stand-in for a zero distance, the list size and the degree. -/
structure PairArgs (ν δ : Type*) where
  compare : ν → ν → δ
  l2sqr : ν → ν → δ
  tiny : δ
  L : ℕ
  R : ℕ
  L_pos : 0 < L

variable [LinearOrder δ] [Zero δ] [One δ] [Mul δ] [Div δ] (A : PairArgs ν δ)

/-- `PairAccessorPtr::get`. -/
def pairAccessor (i j : Side) : PairAccessor ν δ where
  get gid :=
    if X.first i.part ≤ gid ∧ gid < X.last i.part then
      some (X.vec i.index (gid - X.first i.part))
    else if X.first j.part ≤ gid ∧ gid < X.last j.part then
      some (X.vec j.index (gid - X.first j.part))
    else none
  l2sqr := A.l2sqr
  tiny := A.tiny

omit [Zero δ] [One δ] [Mul δ] [Div δ] in
/-- `iterate_and_export_visited` on a loaded index. -/
def exportVisited (t : ℕ) (q : ν) : List (ℕ × δ) :=
  (iterateToFixedPointEmit (X.size t) (X.neighbours t) (fun v => A.compare q (X.vec t v)) A.L
    [X.start t]).out

omit [Zero δ] [One δ] [Mul δ] [Div δ] in
/-- The pool of a node: what the search of the other partition visited and the
node's own neighbours, without the node. -/
def crossPool (own other : Side) (li : ℕ) : List (CN δ) :=
  let q := X.vec own.index li
  ((exportVisited X A other.index q).map fun p => CN.mk (X.globalId other.part p.1) p.2).filter
      (fun c => c.id ≠ X.globalId own.part li) ++
    ((X.neighbours own.index li).map fun lid =>
      CN.mk (X.globalId own.part lid) (A.l2sqr q (X.vec own.index lid))).filter
      (fun c => c.id ≠ X.globalId own.part li)

omit [Zero δ] [One δ] [Mul δ] [Div δ] in
/-- What a node asks of the arena of its thread. -/
def nodeSizes (own other : Side) (li : ℕ) : NodeSizes where
  n := (exportVisited X A other.index (X.vec own.index li)).length +
    (X.neighbours own.index li).length
  m := (crossPool X A own other li).length
  m_le := by
    rw [crossPool, List.length_append]
    refine Nat.add_le_add ((List.length_filter_le _ _).trans_eq (List.length_map _)) ?_
    exact (List.length_filter_le _ _).trans_eq (List.length_map _)

/-- The ids of the other partition that survive the prune. -/
def crossIds (acc : PairAccessor ν δ) (own other : Side) (li : ℕ) : List ℕ :=
  (occludeListPtr acc (X.globalId own.part li) (crossPool X A own other li) A.R).filter
    fun v => X.first other.part ≤ v ∧ v < X.last other.part

/-- One of the two loops over the nodes of a pair. -/
def crossLoop (acc : PairAccessor ν δ) (own other : Side) : List Record :=
  (List.range (X.size own.part)).flatMap fun li =>
    appendIds (X.globalId own.part li) (crossIds X A acc own other li)

/-- The records of a pair, in both directions. -/
def pairRecords (p : Side × Side) : List Record :=
  crossLoop X A (pairAccessor X A p.1 p.2) p.1 p.2 ++
    crossLoop X A (pairAccessor X A p.1 p.2) p.2 p.1

/-- The threads of the parallel loops. `schedule(static)` gives each round of a loop to one of them,
and a thread makes its rounds in order. -/
structure Team where
  threads : ℕ
  rounds : ℕ → ℕ → List ℕ
  all : ∀ n, ((List.range threads).flatMap (rounds n)).Perm (List.range n)

omit [Zero δ] [One δ] [Mul δ] [Div δ] in
/-- The nodes of a thread, which keeps its arena from pair to pair. -/
def threadNodes (ω : Team) (k : ℕ) (pairs : List (Side × Side)) : List NodeSizes :=
  pairs.flatMap fun p =>
    (ω.rounds (X.size p.1.part) k).map (nodeSizes X A p.1 p.2) ++
      (ω.rounds (X.size p.2.part) k).map (nodeSizes X A p.2 p.1)

end Records

/-! ### What the records add to a node -/

theorem appendIds_gid_lt {N gid : ℕ} {ids : List ℕ} (hg : gid < N) :
    ∀ r ∈ appendIds gid ids, r.gid < N := by
  intro r hr
  unfold appendIds at hr
  split_ifs at hr
  · rw [List.mem_singleton.mp hr]
    exact (Nat.mod_le _ _).trans_lt hg
  · cases hr

theorem selfDump_gid_lt {ν : Type*} (X : Partitions ν) : ∀ r ∈ selfDump X, r.gid < X.N := by
  intro r hr
  simp only [selfDump, List.mem_flatMap, List.mem_range] at hr
  obtain ⟨t, ht, li, hli, hr⟩ := hr
  exact appendIds_gid_lt (X.globalId_lt ht hli) r hr

theorem map_mod_eq {ids : List ℕ} (h : ∀ v ∈ ids, v < 2 ^ 32) :
    (ids.map fun v => v % 2 ^ 32) = ids := by
  conv_rhs => rw [← List.map_id ids]
  exact List.map_congr_left fun v hv => Nat.mod_eq_of_lt (h v hv)

theorem appended_appendIds {gid : ℕ} {ids : List ℕ} (hg : gid < 2 ^ 32)
    (hids : ∀ v ∈ ids, v < 2 ^ 32) (g : ℕ) :
    appended (appendIds gid ids) g = if gid = g then logged ids else [] := by
  unfold appendIds
  split_ifs with h hgid hgid
  · rw [appended_singleton, if_pos ((Nat.mod_eq_of_lt hg).trans hgid)]
    exact map_mod_eq fun v hv => hids v (List.mem_of_mem_take hv)
  · rw [appended_singleton, if_neg fun he => hgid ((Nat.mod_eq_of_lt hg).symm.trans he)]
  · rw [logged, Nat.eq_zero_of_not_pos h, List.take_zero]
    rfl
  · rfl

/-- A loop over consecutive nodes adds to each node what its own round names. -/
theorem appended_loop {b n : ℕ} {f : ℕ → List ℕ} (hb : b + n ≤ 2 ^ 32)
    (hids : ∀ li < n, ∀ v ∈ f li, v < 2 ^ 32) (g : ℕ) :
    appended ((List.range n).flatMap fun li => appendIds (b + li) (f li)) g =
      if b ≤ g ∧ g < b + n then logged (f (g - b)) else [] := by
  induction n with
  | zero => simp [appended]
  | succ n ih =>
    rw [List.range_succ, List.flatMap_append, appended_append,
      ih (by omega) (fun li hli => hids li (by omega)), List.flatMap_singleton,
      appended_appendIds (by omega) (hids n (by omega))]
    by_cases h : b + n = g
    · subst h
      simp
    · rw [if_neg h, List.append_nil]
      have : g < b + (n + 1) ↔ g < b + n := by omega
      simp only [this]

/-! ### The ids themselves -/

section Ids

variable {ν δ : Type*} {X : Partitions ν}

/-- The self-dump ids of a node: its partition's, not its own, and distinct
where its neighbours are. -/
theorem selfIds_spec {t : ℕ} (li : ℕ) (ht : t < X.P) :
    (∀ v ∈ selfIds X t li, X.first t ≤ v ∧ v < X.first (t + 1) ∧ v ≠ X.globalId t li) ∧
      ((X.neighbours t li).Nodup → (selfIds X t li).Nodup) := by
  have hglob : ∀ w ∈ X.neighbours t li, X.globalId t w = X.first t + w :=
    fun w hw => X.globalId_eq ht (X.neighbours_lt ht hw)
  constructor
  · intro v hv
    simp only [selfIds, List.mem_filter, List.mem_map, decide_eq_true_eq] at hv
    obtain ⟨⟨w, hw, rfl⟩, hne⟩ := hv
    have := X.neighbours_lt ht hw
    rw [X.first_succ]
    exact ⟨by rw [hglob w hw]; omega, by rw [hglob w hw]; omega, hne⟩
  · intro hnd
    refine List.Nodup.filter _ ((List.nodup_map_iff_inj_on hnd).mpr fun v hv w hw he => ?_)
    rw [hglob v hv, hglob w hw] at he
    omega

variable [LinearOrder δ] [Zero δ] [One δ] [Mul δ] [Div δ] {A : PairArgs ν δ}

omit [Zero δ] [One δ] [Mul δ] [Div δ] in
theorem exportVisited_spec {t : ℕ} (ht : t < X.P) (q : ν) :
    ((exportVisited X A t q).map Prod.fst).Nodup ∧
      ∀ p ∈ exportVisited X A t q, p.1 < X.size t := by
  obtain ⟨h, -⟩ := iterateToFixedPointEmit_spec (X.neighbours t) (fun v => A.compare q (X.vec t v))
    A.L_pos (List.forall_mem_singleton.mpr (X.start_lt t ht))
    (fun v _ w hw => X.neighbours_lt ht hw)
  exact ⟨h.nodup, fun p hp => h.lt _ (h.tracks.sub (List.mem_map_of_mem hp))⟩

/-- The ids a pair adds to a node: ids of the other partition, each once. -/
theorem crossIds_spec (acc : PairAccessor ν δ) {i j li : ℕ} (hi : i < X.P) (hj : j < X.P)
    (hij : i ≠ j) :
    (∀ v ∈ crossIds X A acc ⟨i, i⟩ ⟨j, j⟩ li, X.first j ≤ v ∧ v < X.first (j + 1)) ∧
      (crossIds X A acc ⟨i, i⟩ ⟨j, j⟩ li).Nodup := by
  have hmem : ∀ v ∈ crossIds X A acc ⟨i, i⟩ ⟨j, j⟩ li, X.first j ≤ v ∧ v < X.first (j + 1) := by
    intro v hv
    simpa [X.last_eq hj] using (List.mem_filter.mp hv).2
  refine ⟨hmem, ?_⟩
  -- of the pool only the visited part lies in the other partition, and it has no id twice
  set keep : ℕ → Bool := fun v => X.first j ≤ v ∧ v < X.last j with hkeep
  obtain ⟨hnd, hlt⟩ := exportVisited_spec (A := A) hj (X.vec i li)
  have hsub := (occludeListPtr_spec acc (X.globalId i li)
    (crossPool X A ⟨i, i⟩ ⟨j, j⟩ li) A.R).1.filter keep
  have hperm := ((sortPool_perm (crossPool X A ⟨i, i⟩ ⟨j, j⟩ li)).map CN.id).filter keep
  refine List.Nodup.sublist hsub (hperm.nodup_iff.mpr ?_)
  have hown : ((((X.neighbours i li).map fun lid =>
      CN.mk (X.globalId i lid) (A.l2sqr (X.vec i li) (X.vec i lid))).filter
        (fun c => c.id ≠ X.globalId i li)).map CN.id).filter keep = [] := by
    rw [List.filter_eq_nil_iff]
    intro v hv hk
    simp only [List.mem_map, List.mem_filter] at hv
    obtain ⟨-, ⟨⟨lid, hlid, rfl⟩, -⟩, rfl⟩ := hv
    have hs := X.neighbours_lt hi hlid
    rw [X.globalId_eq hi hs, hkeep] at hk
    simp only [Bool.decide_and, Bool.and_eq_true, decide_eq_true_eq, X.last_eq hj] at hk
    refine hij (X.part_unique (g := X.first i + lid) ⟨by omega, ?_⟩ hk)
    rw [X.first_succ]
    omega
  rw [crossPool, List.map_append, List.filter_append, hown, List.append_nil]
  refine List.Nodup.filter _ (List.Nodup.sublist ((List.filter_sublist).map CN.id) ?_)
  rw [List.map_map]
  have hcomp : (CN.id ∘ fun p : ℕ × δ => CN.mk (X.globalId j p.1) p.2) =
      X.globalId j ∘ Prod.fst := rfl
  rw [hcomp, ← List.map_map]
  refine (List.nodup_map_iff_inj_on hnd).mpr fun v hv w hw he => ?_
  obtain ⟨p, hp, rfl⟩ := List.mem_map.mp hv
  obtain ⟨p', hp', rfl⟩ := List.mem_map.mp hw
  rw [X.globalId_eq hj (hlt p hp), X.globalId_eq hj (hlt p' hp')] at he
  omega

end Ids

end HiDANN.Construction
