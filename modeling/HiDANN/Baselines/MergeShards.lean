import HiDANN.Baselines.Sogaic
import HiDANN.Format.MemIndex
import HiDANN.Library.FallibleFold

/-! The merged graph. The points are in one or more shards, and every shard has a graph of its
own, over its own numbering. `merge_shards` goes through the points in order, unites the lists
that a point has in its shards, and shuffles and cuts what is too long. -/

namespace HiDANN.Baselines

open Bytes Format

/-! ### Shards -/

/-- A point goes to each of its closest centers. -/
def shardPoint (closest : ℕ → List ℕ) (idmap : ℕ → List ℕ) (id : ℕ) : ℕ → List ℕ :=
  (closest id).foldl (fun idmap shard => Function.update idmap shard
    (idmap shard ++ [id % 2 ^ 32])) idmap

def shardBlock (closest : ℕ → List ℕ) (numPoints blockSize : ℕ) (idmap : ℕ → List ℕ)
    (block : ℕ) : ℕ → List ℕ :=
  let startId := block * blockSize
  let endId := min ((block + 1) * blockSize) numPoints
  (List.range (endId - startId)).foldl (fun idmap p => shardPoint closest idmap (startId + p)) idmap

/-- The ids of the shards of `shard_data_into_clusters_only_ids`. -/
def shardIds (closest : ℕ → List ℕ) (numPoints safeBs : ℕ) : ℕ → List ℕ :=
  let blockSize := if numPoints ≤ safeBs then numPoints else safeBs
  let numBlocks := numPoints / blockSize + if numPoints % blockSize ≠ 0 then 1 else 0
  (List.range numBlocks).foldl (shardBlock closest numPoints blockSize) fun _ => []

def idmapFile (ids : List ℕ) : List UInt8 := le 4 ids.length ++ le 4 1 ++ cells 4 ids

/-- The loop of `retrieve_shard_data_from_ids`: the points that are in the shard, from the
`curPos`-th of them on. -/
def retrieve {β : Type*} (shardIds : List ℕ) : List (ℕ × β) → ℕ → List β
  | [], _ => []
  | (id, v) :: points, curPos =>
    if curPos = shardIds.length then []
    else if shardIds[curPos]? = some id then v :: retrieve shardIds points (curPos + 1)
    else retrieve shardIds points curPos

/-! ### Merging -/

def readIdmap (file : List UInt8) : Except String (List ℕ) :=
  let npts32 := readLe 4 file 0
  if readLe 4 file 4 ≠ 1 ∨ file.length ≠ npts32 * 4 + 2 * 4 then
    .error ("Error reading idmap file. Check if the file is bin file with 1 dimensional data. " ++
      "Actual: " ++ toString file.length ++ ", expected: " ++ toString (npts32 + 2 * 4) ++ "\n")
  else .ok (readCells 4 npts32 (file.drop 8))

/-- The readers of the shards and what the loop keeps. -/
structure Merge where
  readers : ℕ → List UInt8
  curId : ℕ
  nhoodSet : ℕ → Bool
  finalNhood : List ℕ
  shuffled : ℕ
  out : List UInt8
  mergedIndexSize : ℕ

/-- Before the loop the readers are behind their headers, and a header has been written. -/
def Merge.start (readers : ℕ → List UInt8) (header : List UInt8) : Merge where
  readers := readers
  curId := 0
  nhoodSet := fun _ => false
  finalNhood := []
  shuffled := 0
  out := header
  mergedIndexSize := 24

/-- What the readers and the vectors do with a number that is too large. -/
def beyondEnd : String := "Reading beyond end of file"

def beyondShard : String := "id beyond the shard"

section Code

variable (maxDegree : ℕ) (shuffle : ℕ → List ℕ → List ℕ)

def Merge.flush (s : Merge) : Merge :=
  let finalNhood := shuffle s.shuffled s.finalNhood
  let nnbrs := min finalNhood.length maxDegree
  { s with
    nhoodSet := finalNhood.foldl (fun set p => Function.update set p false) s.nhoodSet
    finalNhood := []
    shuffled := s.shuffled + 1
    out := s.out ++ le 4 nnbrs ++ cells 4 (finalNhood.take nnbrs)
    mergedIndexSize := s.mergedIndexSize + (4 + nnbrs * 4) }

def Merge.add (s : Merge) (id : ℕ) : Merge :=
  if s.nhoodSet id then s
  else { s with
    nhoodSet := Function.update s.nhoodSet id true
    finalNhood := s.finalNhood ++ [id] }

/-- The list of a point in one shard is read and renamed. -/
def Merge.read (idmaps : ℕ → List ℕ) (s : Merge) (shard : ℕ) : Except String Merge :=
  match nextLe 4 (s.readers shard) with
  | none => .error beyondEnd
  | some (shardNnbrs, bs) => match nextCells 4 shardNnbrs bs with
    | none => .error beyondEnd
    | some (shardNhood, bs) => match shardNhood.mapM fun j => (idmaps shard)[j]? with
      | none => .error beyondShard
      | some ids => .ok (ids.foldl Merge.add
          { s with readers := Function.update s.readers shard bs })

def Merge.visit (idmaps : ℕ → List ℕ) (s : Merge) (idShard : ℕ × ℕ) : Except String Merge :=
  if s.curId < idShard.1 then
    Merge.read idmaps { s.flush maxDegree shuffle with curId := idShard.1 } idShard.2
  else s.read idmaps idShard.2

def nodeShard (nshards : ℕ) (idmaps : ℕ → List ℕ) : List (ℕ × ℕ) :=
  ((List.range nshards).flatMap fun shard => (idmaps shard).map fun id => (id, shard)).mergeSort
    fun left right => left.1 < right.1 ∨ left.1 = right.1 ∧ left.2 ≤ right.2

/-- `merge_shards`: the merged graph and the medoids. -/
def mergeShards (nshards : ℕ) (idmapFiles vamanaFiles : ℕ → List UInt8) :
    Except String (List UInt8 × List UInt8) :=
  match (List.range nshards).mapM fun shard => readIdmap (idmapFiles shard) with
  | .error e => .error e
  | .ok idmaps =>
    let idmap := fun shard => idmaps.getD shard []
    if (List.range nshards).any fun shard => (vamanaFiles shard).length < 24 then .error beyondEnd
    else match (List.range nshards).mapM fun shard =>
        (idmap shard)[readLe 4 (vamanaFiles shard) 12]? with
    | none => .error beyondShard
    | some medoids =>
      let start := Merge.start (fun shard => (vamanaFiles shard).drop 24)
        (le 8 24 ++ le 4 maxDegree ++ cells 4 medoids.getLast?.toList ++ le 8 0)
      match (nodeShard nshards idmap).foldlM (Merge.visit maxDegree shuffle idmap) start with
      | .error e => .error e
      | .ok s =>
        let s := s.flush maxDegree shuffle
        .ok (overwrite s.out 0 (le 8 s.mergedIndexSize),
          le 4 nshards ++ le 4 1 ++ cells 4 medoids)

end Code

/-! ### The points of a shard -/

/-- The shards of `n` points: ascending ids, and every point somewhere. -/
structure Sharded (n nshards : ℕ) (idmaps : ℕ → List ℕ) : Prop where
  ascending : ∀ shard < nshards, (idmaps shard).Pairwise (· < ·)
  below : ∀ shard < nshards, ∀ id ∈ idmaps shard, id < n
  covered : ∀ id < n, ∃ shard < nshards, id ∈ idmaps shard

theorem shardPoint_eq {closest : ℕ → List ℕ} {id : ℕ} (hnd : (closest id).Nodup)
    (hid : id < 2 ^ 32) (idmap : ℕ → List ℕ) (shard : ℕ) :
    shardPoint closest idmap id shard =
      idmap shard ++ if shard ∈ closest id then [id] else [] := by
  rw [shardPoint, Nat.mod_eq_of_lt hid]
  generalize closest id = l at hnd
  induction l generalizing idmap with
  | nil => simp
  | cons c l ih =>
    obtain ⟨hc, hnd⟩ := List.nodup_cons.mp hnd
    rw [List.foldl_cons, ih _ hnd]
    rcases eq_or_ne shard c with rfl | hne
    · rw [Function.update_self, if_neg hc, if_pos List.mem_cons_self, List.append_nil]
    · simp only [Function.update_of_ne hne, List.mem_cons, hne, false_or]

theorem foldl_blocks {σ : Type*} (f : σ → ℕ → σ) (n B : ℕ) (s : σ) (k : ℕ) :
    (List.range k).foldl (fun s b => (List.range (min ((b + 1) * B) n - b * B)).foldl
      (fun s p => f s (b * B + p)) s) s = (List.range (min (k * B) n)).foldl f s := by
  induction k with
  | zero => simp
  | succ k ih =>
    have hsucc : (k + 1) * B = k * B + B := Nat.succ_mul k B
    rw [List.range_succ, List.foldl_append, ih, List.foldl_cons, List.foldl_nil]
    rcases Nat.le_total n (k * B) with hle | hle
    · rw [Nat.min_eq_right hle, Nat.min_eq_right (by omega), Nat.sub_eq_zero_of_le hle,
        List.range_zero, List.foldl_nil]
    · have hend : min ((k + 1) * B) n = k * B + (min ((k + 1) * B) n - k * B) := by omega
      rw [Nat.min_eq_left hle, hend, Nat.add_sub_cancel_left, List.range_add, List.foldl_append,
        List.foldl_map]

theorem shardIds_eq {closest : ℕ → List ℕ} {n safeBs : ℕ} (hbs : 0 < safeBs) (hn : n ≤ 2 ^ 32)
    (hnd : ∀ id < n, (closest id).Nodup) (shard : ℕ) :
    shardIds closest n safeBs shard = (List.range n).filter fun id => shard ∈ closest id := by
  have hrange : ∀ m ≤ n, (List.range m).foldl (shardPoint closest) (fun _ => []) shard =
      (List.range m).filter fun id => shard ∈ closest id := by
    intro m hm
    induction m with
    | zero => rfl
    | succ m ih =>
      rw [List.range_succ, List.foldl_append, List.foldl_cons, List.foldl_nil,
        shardPoint_eq (hnd m hm) (by omega), ih (by omega), List.filter_append]
      by_cases h : shard ∈ closest m <;> simp [h]
  rw [shardIds]
  set B := if n ≤ safeBs then n else safeBs with hB
  set k := n / B + if n % B ≠ 0 then 1 else 0 with hk
  have hcover : n ≤ k * B := by
    have hdiv := Nat.div_add_mod' n B
    rcases Nat.eq_zero_or_pos B with h0 | hpos
    · split_ifs at hB <;> omega
    · have hlt := Nat.mod_lt n hpos
      rw [hk]
      by_cases hmod : n % B = 0
      · rw [if_neg (not_not.mpr hmod), Nat.add_zero]
        omega
      · rw [if_pos hmod, Nat.succ_mul]
        omega
  have hblocks := foldl_blocks (shardPoint closest) n B (fun _ => []) k
  rw [Nat.min_eq_right hcover] at hblocks
  exact (congrFun hblocks shard).trans (hrange n le_rfl)

theorem retrieve_eq {β : Type*} (row : ℕ → β) {ids : List ℕ} (hasc : ids.Pairwise (· < ·))
    (lo m curPos : ℕ) (hids : ∀ id ∈ ids.drop curPos, lo ≤ id ∧ id < lo + m) :
    retrieve ids ((List.range' lo m).map fun id => (id, row id)) curPos =
      (ids.drop curPos).map row := by
  induction m generalizing lo curPos with
  | zero =>
    have hnil : ids.drop curPos = [] := List.eq_nil_iff_forall_not_mem.mpr fun id hid => by
      have := hids id hid
      omega
    rw [hnil]
    rfl
  | succ m ih =>
    rw [List.range'_succ, List.map_cons, retrieve]
    rcases lt_or_ge curPos ids.length with hlt | hge
    · rw [if_neg hlt.ne, List.getElem?_eq_getElem hlt]
      have hdrop := List.drop_eq_getElem_cons hlt
      have htail : ∀ id ∈ ids.drop (curPos + 1), ids[curPos] < id := by
        have := hasc.drop (i := curPos)
        rw [hdrop] at this
        exact (List.pairwise_cons.mp this).1
      have hfirst := hids ids[curPos] (by
        rw [hdrop]
        exact List.mem_cons_self)
      split_ifs with heq
      · have heq : ids[curPos] = lo := Option.some.inj heq
        rw [ih, hdrop, List.map_cons, heq]
        intro id hid
        have := htail id hid
        have := hids id (by
          rw [hdrop]
          exact List.mem_cons_of_mem _ hid)
        omega
      · refine ih _ _ fun id hid => ?_
        have hne : ids[curPos] ≠ lo := fun h => heq (congrArg some h)
        have := hids id hid
        rw [hdrop] at hid
        rcases List.mem_cons.mp hid with rfl | hid
        · omega
        · have := htail id hid
          omega
    · have hnil : ids.drop curPos = [] := List.drop_of_length_le hge
      rw [hnil, List.map_nil]
      by_cases hend : curPos = ids.length
      · rw [if_pos hend]
      · rw [if_neg hend, List.getElem?_eq_none hge, if_neg (by simp), ih]
        · rw [hnil, List.map_nil]
        · rw [hnil]
          simp

/-! ### The order of the merge -/

/-- What is before the next element of a sorted list has been done. -/
theorem mem_done_of_lt {α : Type*} {r : α → α → Prop} (hirr : ∀ a b, r a b → ¬ r b a)
    {done l : List α} {x y : α} (hl : l.Pairwise r) (hpre : done ++ [x] <+: l) (hy : y ∈ l)
    (hyx : r y x) : y ∈ done := by
  obtain ⟨late, rfl⟩ := hpre
  rw [List.append_assoc, List.singleton_append] at hl hy
  obtain ⟨-, hlate, -⟩ := List.pairwise_append.mp hl
  rcases List.mem_append.mp hy with hy | hy
  · exact hy
  · rcases List.mem_cons.mp hy with rfl | hy
    · exact absurd hyx (hirr _ _ hyx)
    · exact absurd hyx (hirr _ _ ((List.pairwise_cons.mp hlate).1 y hy))

theorem done_lt {α : Type*} {r : α → α → Prop} {done l : List α} {x y : α} (hl : l.Pairwise r)
    (hpre : done ++ [x] <+: l) (hy : y ∈ done) : r y x := by
  obtain ⟨late, rfl⟩ := hpre
  exact (List.pairwise_append.mp (List.pairwise_append.mp hl).1).2.2 y hy x List.mem_cons_self

def Before (left right : ℕ × ℕ) : Prop := left.1 < right.1 ∨ left.1 = right.1 ∧ left.2 < right.2

theorem Before.asymm (a b : ℕ × ℕ) (h : Before a b) : ¬ Before b a := by
  rw [Before] at *
  omega

section Order

variable {n nshards : ℕ} {idmaps : ℕ → List ℕ}

theorem mem_nodeShard {id shard : ℕ} :
    (id, shard) ∈ nodeShard nshards idmaps ↔ shard < nshards ∧ id ∈ idmaps shard := by
  rw [nodeShard, List.mem_mergeSort, List.mem_flatMap]
  constructor
  · rintro ⟨s, hs, hmem⟩
    obtain ⟨v, hv, he⟩ := List.mem_map.mp hmem
    obtain ⟨rfl, rfl⟩ := Prod.mk.inj he
    exact ⟨List.mem_range.mp hs, hv⟩
  · rintro ⟨hs, hv⟩
    exact ⟨shard, List.mem_range.mpr hs, List.mem_map.mpr ⟨id, hv, rfl⟩⟩

theorem Sharded.nodup_pairs (h : Sharded n nshards idmaps) :
    ((List.range nshards).flatMap fun shard => (idmaps shard).map fun id => (id, shard)).Nodup := by
  refine List.nodup_flatMap.mpr ⟨fun shard hs => ?_, ?_⟩
  · have hnd : (idmaps shard).Nodup := (h.ascending shard (List.mem_range.mp hs)).imp ne_of_lt
    exact hnd.map fun a b hab => (Prod.mk.inj hab).1
  · refine List.nodup_range.imp fun {a b} hab p ha hb => ?_
    obtain ⟨_, -, rfl⟩ := List.mem_map.mp ha
    obtain ⟨_, -, he⟩ := List.mem_map.mp hb
    exact hab (Prod.mk.inj he).2.symm

theorem Sharded.nodeShard_sorted (h : Sharded n nshards idmaps) :
    (nodeShard nshards idmaps).Pairwise Before := by
  have hle := @List.pairwise_mergeSort (ℕ × ℕ) (fun left right =>
    decide (left.1 < right.1 ∨ left.1 = right.1 ∧ left.2 ≤ right.2))
    (fun a b c => by simp only [decide_eq_true_eq]; omega)
    (fun a b => by simp only [Bool.or_eq_true, decide_eq_true_eq]; omega)
    ((List.range nshards).flatMap fun shard => (idmaps shard).map fun id => (id, shard))
  have hnd : (nodeShard nshards idmaps).Nodup :=
    (List.mergeSort_perm _ _).nodup_iff.mpr h.nodup_pairs
  refine (hle.and hnd).imp fun {a b} hab => ?_
  obtain ⟨hab, hne⟩ := hab
  rw [decide_eq_true_eq] at hab
  rcases hab with hab | ⟨h1, h2⟩
  · exact .inl hab
  · exact .inr ⟨h1, lt_of_le_of_ne h2 fun heq => hne (Prod.ext h1 heq)⟩

/-- The points of one shard come in the order of its ids. -/
theorem Sharded.filter_nodeShard (h : Sharded n nshards idmaps) {shard : ℕ} (hs : shard < nshards) :
    ((nodeShard nshards idmaps).filter fun p => p.2 = shard).map Prod.fst = idmaps shard := by
  refine List.Pairwise.eq_of_mem_iff (r := (· < ·)) ?_ (h.ascending shard hs) fun id => ?_
  · refine List.pairwise_map.mpr
      ((h.nodeShard_sorted.filter _).imp_of_mem fun {a b} ha hb hab => ?_)
    have ha := of_decide_eq_true (List.mem_filter.mp ha).2
    have hb := of_decide_eq_true (List.mem_filter.mp hb).2
    exact hab.resolve_right fun heq => heq.2.ne (ha.trans hb.symm)
  · rw [List.mem_map]
    constructor
    · rintro ⟨p, hp, rfl⟩
      obtain ⟨hp, heq⟩ := List.mem_filter.mp hp
      exact (of_decide_eq_true heq) ▸ (mem_nodeShard.mp hp).2
    · intro hid
      exact ⟨(id, shard), List.mem_filter.mpr ⟨mem_nodeShard.mpr ⟨hs, hid⟩, by simp⟩, rfl⟩

end Order

/-! ### The invariant of the merge -/

/-- The graphs of the shards, over the numbers of the points in their shards. -/
structure ShardGraphs (nshards : ℕ) (idmaps : ℕ → List ℕ) (graph : ℕ → List (List ℕ)) : Prop where
  length_eq : ∀ shard < nshards, (graph shard).length = (idmaps shard).length
  ids_lt : ∀ shard < nshards, ∀ nb ∈ graph shard, ∀ j ∈ nb, j < (idmaps shard).length
  deg_lt : ∀ shard < nshards, ∀ nb ∈ graph shard, nb.length < 2 ^ 32

/-- The graph of the shard has an edge from `v` to `u`. -/
def ShardEdge (idmaps : ℕ → List ℕ) (graph : ℕ → List (List ℕ)) (shard v u : ℕ) : Prop :=
  ∃ (i : ℕ) (nb : List ℕ), (idmaps shard)[i]? = some v ∧ (graph shard)[i]? = some nb ∧
    ∃ j ∈ nb, (idmaps shard)[j]? = some u

/-- A list of `v` in the merged graph: different points that are its neighbours in some shard,
all of them where there is room. -/
structure Merged (nshards maxDegree : ℕ) (idmaps : ℕ → List ℕ) (graph : ℕ → List (List ℕ)) (v : ℕ)
    (nb : List ℕ) : Prop where
  nodup : nb.Nodup
  length_le : nb.length ≤ maxDegree
  edge : ∀ u ∈ nb, ∃ shard < nshards, ShardEdge idmaps graph shard v u
  complete : nb.length < maxDegree → ∀ shard < nshards, ∀ u,
    ShardEdge idmaps graph shard v u → u ∈ nb

section Loop

variable {n nshards maxDegree : ℕ} {idmaps : ℕ → List ℕ} {graph : ℕ → List (List ℕ)}
  {shuffle : ℕ → List ℕ → List ℕ} {hdr : List UInt8}

/-- The loop is at a point, and has done some of the pairs. -/
structure Ready (nshards maxDegree : ℕ) (idmaps : ℕ → List ℕ) (graph : ℕ → List (List ℕ))
    (hdr : List UInt8) (done : List (ℕ × ℕ)) (s : Merge) : Prop where
  readers : ∀ shard < nshards, s.readers shard =
    memIndexNodes ((graph shard).drop (done.countP fun p => p.2 = shard))
  nodup : s.finalNhood.Nodup
  marked : ∀ u, s.nhoodSet u ↔ u ∈ s.finalNhood
  nhood : ∀ u, u ∈ s.finalNhood ↔ ∃ shard, (s.curId, shard) ∈ done ∧
    ShardEdge idmaps graph shard s.curId u
  written : ∃ lists : List (List ℕ), lists.length = s.curId ∧
    s.out = hdr ++ memIndexNodes lists ∧
    s.mergedIndexSize = 24 + (memIndexNodes lists).length ∧
    ∀ v nb, lists[v]? = some nb → Merged nshards maxDegree idmaps graph v nb

/-- The point is that of the last pair. -/
structure MergeInv (nshards maxDegree : ℕ) (idmaps : ℕ → List ℕ) (graph : ℕ → List (List ℕ))
    (hdr : List UInt8) (done : List (ℕ × ℕ)) (s : Merge) : Prop
    extends Ready nshards maxDegree idmaps graph hdr done s where
  current : if done = [] then s.curId = 0 else ∃ shard, (s.curId, shard) ∈ done
  last : ∀ p ∈ done, p.1 ≤ s.curId

theorem foldl_add (s : Merge) (ids : List ℕ) (hnd : s.finalNhood.Nodup)
    (hmark : ∀ u, s.nhoodSet u ↔ u ∈ s.finalNhood) :
    ∃ set nhood, ids.foldl Merge.add s = { s with nhoodSet := set, finalNhood := nhood } ∧
      nhood.Nodup ∧ (∀ u, set u ↔ u ∈ nhood) ∧ ∀ u, u ∈ nhood ↔ u ∈ s.finalNhood ∨ u ∈ ids := by
  induction ids generalizing s with
  | nil => exact ⟨_, _, rfl, hnd, hmark, by simp⟩
  | cons id ids ih =>
    rw [List.foldl_cons]
    by_cases hid : s.nhoodSet id
    · have hstep : s.add id = s := if_pos hid
      obtain ⟨set, nhood, heq, hnd', hmark', hmem⟩ := ih s hnd hmark
      refine ⟨set, nhood, by rw [hstep, heq], hnd', hmark', fun u => ?_⟩
      rw [hmem, List.mem_cons]
      constructor
      · rintro (hu | hu)
        · exact .inl hu
        · exact .inr (.inr hu)
      · rintro (hu | rfl | hu)
        · exact .inl hu
        · exact .inl ((hmark u).mp hid)
        · exact .inr hu
    · have hfresh : id ∉ s.finalNhood := fun h => hid ((hmark id).mpr h)
      have hstep : s.add id = { s with
          nhoodSet := Function.update s.nhoodSet id true
          finalNhood := s.finalNhood ++ [id] } := if_neg hid
      obtain ⟨set, nhood, heq, hnd', hmark', hmem⟩ := ih (s.add id) (by
        rw [hstep, ← List.concat_eq_append]
        exact hnd.concat hfresh) (fun u => by
        rw [hstep, List.mem_append, List.mem_singleton]
        rcases eq_or_ne u id with rfl | hu
        · simp
        · simp [hmark u, hu])
      refine ⟨set, nhood, by rw [heq, hstep], hnd', hmark', fun u => ?_⟩
      rw [hmem, hstep, List.mem_append, List.mem_singleton, List.mem_cons, or_assoc]

theorem merged_take {v : ℕ} {nhood : List ℕ} (hnd : nhood.Nodup)
    (hmem : ∀ u, u ∈ nhood ↔ ∃ shard < nshards, ShardEdge idmaps graph shard v u)
    (maxDegree : ℕ) :
    Merged nshards maxDegree idmaps graph v (nhood.take (min nhood.length maxDegree)) where
  nodup := hnd.sublist (List.take_sublist _ _)
  length_le := by
    rw [List.length_take]
    omega
  edge u hu := (hmem u).mp (List.mem_of_mem_take hu)
  complete hlt shard hs u hu := by
    rw [List.length_take] at hlt
    rw [List.take_of_length_le (by omega)]
    exact (hmem u).mpr ⟨shard, hs, hu⟩

theorem foldl_update_false (l : List ℕ) (set : ℕ → Bool) (u : ℕ) :
    l.foldl (fun set p => Function.update set p false) set u = (set u && decide (u ∉ l)) := by
  induction l generalizing set with
  | nil => simp
  | cons p l ih =>
    rw [List.foldl_cons, ih]
    rcases eq_or_ne u p with rfl | hu
    · simp
    · simp [hu]

theorem Ready.flush (hshuf : ∀ i l, (shuffle i l).Perm l) {done : List (ℕ × ℕ)} {s : Merge}
    (h : Ready nshards maxDegree idmaps graph hdr done s)
    (hdone : ∀ shard, (s.curId, shard) ∈ done ↔ shard < nshards ∧ s.curId ∈ idmaps shard)
    (hlast : ∀ p ∈ done, p.1 ≤ s.curId) :
    Ready nshards maxDegree idmaps graph hdr done
      { s.flush maxDegree shuffle with curId := s.curId + 1 } := by
  set nhood := shuffle s.shuffled s.finalNhood with hnhood
  have hperm : nhood.Perm s.finalNhood := hshuf _ _
  obtain ⟨lists, hlen, hout, hsize, hlists⟩ := h.written
  have hedge : ∀ u, u ∈ nhood ↔ ∃ shard < nshards, ShardEdge idmaps graph shard s.curId u := by
    intro u
    rw [hperm.mem_iff, h.nhood]
    constructor
    · rintro ⟨shard, hin, he⟩
      exact ⟨shard, ((hdone shard).mp hin).1, he⟩
    · rintro ⟨shard, hs, he⟩
      obtain ⟨i, nb, hi, hrest⟩ := id he
      exact ⟨shard, (hdone shard).mpr ⟨hs, List.mem_of_getElem? hi⟩, he⟩
  have hmerged := merged_take (hperm.nodup_iff.mpr h.nodup) hedge maxDegree
  set nb := nhood.take (min nhood.length maxDegree) with hnb
  have hnblen : nb.length = min nhood.length maxDegree := by
    rw [hnb, List.length_take]
    omega
  have hrec : memIndexNodes (lists ++ [nb]) = memIndexNodes lists ++ memIndexNode nb := by
    rw [memIndexNodes_append, memIndexNodes_cons, memIndexNodes_nil, List.append_nil]
  refine ⟨h.readers, List.nodup_nil, fun u => ?_, fun u => ?_, lists ++ [nb], ?_, ?_, ?_, ?_⟩
  · simp only [Merge.flush, foldl_update_false, List.not_mem_nil, iff_false, Bool.not_eq_true]
    by_cases hu : u ∈ nhood
    · rw [← hnhood]
      simp [hu]
    · have : s.nhoodSet u = false := by
        rw [← Bool.not_eq_true, h.marked, ← hperm.mem_iff]
        exact hu
      rw [this, Bool.false_and]
  · simp only [Merge.flush, List.not_mem_nil, false_iff]
    rintro ⟨shard, hin, -⟩
    have := hlast _ hin
    omega
  · rw [List.length_append, hlen, List.length_singleton]
  · rw [hrec, ← List.append_assoc, ← hout, memIndexNode, hnblen]
    simp only [Merge.flush, ← hnhood, ← hnb, List.append_assoc]
  · rw [hrec, List.length_append, length_memIndexNode, hnblen]
    simp only [Merge.flush, ← hnhood, hsize]
    omega
  · intro v l hl
    rw [List.getElem?_append] at hl
    split_ifs at hl with hv
    · exact hlists v l hl
    · rw [List.getElem?_singleton] at hl
      split_ifs at hl with hv0
      have hcur : v = s.curId := by omega
      rw [hcur, ← Option.some.inj hl]
      exact hmerged

theorem mapM_getElem? {ids nb : List ℕ} (h : ∀ j ∈ nb, j < ids.length) :
    ∃ named, (nb.mapM fun j => ids[j]?) = some named ∧
      ∀ u, u ∈ named ↔ ∃ j ∈ nb, ids[j]? = some u := by
  induction nb with
  | nil => exact ⟨[], rfl, by simp⟩
  | cons j nb ih =>
    obtain ⟨named, heq, hmem⟩ := ih fun j hj => h j (List.mem_cons_of_mem _ hj)
    have hlt := h j List.mem_cons_self
    have hj := List.getElem?_eq_getElem hlt
    refine ⟨ids[j] :: named, ?_, fun u => ?_⟩
    · rw [List.mapM_cons, hj, heq]
      rfl
    · rw [List.mem_cons, hmem, List.exists_mem_cons_iff, hj, Option.some.injEq, eq_comm]

theorem Sharded.length_le (h : Sharded n nshards idmaps) {shard : ℕ} (hs : shard < nshards) :
    (idmaps shard).length ≤ n := by
  have hnd : (idmaps shard).Nodup := (h.ascending shard hs).imp ne_of_lt
  rw [← List.toFinset_card_of_nodup hnd, ← Finset.card_range n]
  refine Finset.card_le_card fun id hid => ?_
  exact Finset.mem_range.mpr (h.below shard hs id (List.mem_toFinset.mp hid))

/-- The list of the point in the next shard is added. -/
theorem Ready.read (hsh : Sharded n nshards idmaps) (hn : n ≤ 2 ^ 32)
    (hg : ShardGraphs nshards idmaps graph) {done : List (ℕ × ℕ)} {s : Merge}
    (h : Ready nshards maxDegree idmaps graph hdr done s) {shard : ℕ}
    (hpre : done ++ [(s.curId, shard)] <+: nodeShard nshards idmaps) :
    ∃ s', s.read idmaps shard = .ok s' ∧ s'.curId = s.curId ∧
      Ready nshards maxDegree idmaps graph hdr (done ++ [(s.curId, shard)]) s' := by
  obtain ⟨hs, hid⟩ := mem_nodeShard.mp (hpre.subset (List.mem_append_right _ List.mem_cons_self))
  set k := done.countP fun p => p.2 = shard with hk
  have hget : (idmaps shard)[k]? = some s.curId := by
    rw [← hsh.filter_nodeShard hs]
    obtain ⟨late, hlate⟩ := hpre
    rw [← hlate, List.filter_append, List.filter_append, List.filter_cons_of_pos (by simp),
      List.map_append, List.map_append, List.append_assoc, List.getElem?_append_right (by
        rw [List.length_map, ← List.countP_eq_length_filter]), List.length_map,
      ← List.countP_eq_length_filter, ← hk, Nat.sub_self]
    rfl
  obtain ⟨hlt, -⟩ := List.getElem?_eq_some_iff.mp hget
  have hlt' : k < (graph shard).length := (hg.length_eq shard hs).symm ▸ hlt
  set nb := (graph shard)[k] with hnb
  have hnbin : nb ∈ graph shard := List.getElem_mem hlt'
  have hfits : FitsNode nb := ⟨hg.deg_lt shard hs nb hnbin, fun j hj =>
    ((hg.ids_lt shard hs nb hnbin j hj).trans_le (hsh.length_le hs)).trans_le hn⟩
  obtain ⟨named, hnamed, hmem⟩ := mapM_getElem? (hg.ids_lt shard hs nb hnbin)
  have hreader : s.readers shard =
      memIndexNode nb ++ memIndexNodes ((graph shard).drop (k + 1)) := by
    rw [h.readers shard hs, ← hk, List.drop_eq_getElem_cons hlt', memIndexNodes_cons]
  set readers := Function.update s.readers shard (memIndexNodes ((graph shard).drop (k + 1)))
    with hreaders
  obtain ⟨set, nhood, heq, hnd, hmark, hnhood⟩ :=
    foldl_add { s with readers } named h.nodup h.marked
  refine ⟨{ s with readers, nhoodSet := set, finalNhood := nhood }, ?_, rfl, ?_⟩
  · rw [Merge.read, hreader, nextLe_node hfits]
    dsimp only
    rw [nextCells_node hfits]
    dsimp only
    rw [hnamed]
    exact congrArg Except.ok heq
  · refine ⟨fun t ht => ?_, hnd, hmark, fun u => ?_, h.written⟩
    · dsimp only
      rw [List.countP_append, List.countP_singleton]
      rcases eq_or_ne t shard with rfl | hne
      · rw [hreaders, Function.update_self, ← hk]
        simp
      · rw [hreaders, Function.update_of_ne hne, h.readers t ht]
        simp [hne.symm]
    · have hedge : ShardEdge idmaps graph shard s.curId u ↔ u ∈ named := by
        rw [hmem]
        constructor
        · rintro ⟨i, nb', hi, hnb', hrest⟩
          obtain ⟨hilt, -⟩ := List.getElem?_eq_some_iff.mp hi
          have hik : i = k := (List.getElem?_inj hilt ((hsh.ascending shard hs).imp ne_of_lt)).mp
            (hi.trans hget.symm)
          rw [hik, List.getElem?_eq_getElem hlt', Option.some.injEq] at hnb'
          rwa [← hnb'] at hrest
        · intro hu
          exact ⟨k, nb, hget, List.getElem?_eq_getElem hlt', hu⟩
      dsimp only at hnhood ⊢
      rw [hnhood, h.nhood, ← hedge]
      simp only [List.mem_append, List.mem_singleton, Prod.mk.injEq, true_and]
      constructor
      · rintro (⟨t, ht, he⟩ | he)
        · exact ⟨t, .inl ht, he⟩
        · exact ⟨shard, .inr rfl, he⟩
      · rintro ⟨t, ht | rfl, he⟩
        · exact .inl ⟨t, ht, he⟩
        · exact .inr he

theorem MergeInv.visit (hsh : Sharded n nshards idmaps) (hn : n ≤ 2 ^ 32)
    (hg : ShardGraphs nshards idmaps graph) (hshuf : ∀ i l, (shuffle i l).Perm l)
    {done : List (ℕ × ℕ)} {s : Merge} (h : MergeInv nshards maxDegree idmaps graph hdr done s)
    {x : ℕ × ℕ} (hpre : done ++ [x] <+: nodeShard nshards idmaps) :
    ∃ s', s.visit maxDegree shuffle idmaps x = .ok s' ∧
      MergeInv nshards maxDegree idmaps graph hdr (done ++ [x]) s' := by
  obtain ⟨v, shard⟩ := x
  have hsorted := hsh.nodeShard_sorted
  obtain ⟨hs, hid⟩ := mem_nodeShard.mp (hpre.subset (List.mem_append_right _ List.mem_cons_self))
  have hv : v < n := hsh.below shard hs v hid
  -- every pair of an earlier point has been done
  have hearlier : ∀ u < v, ∀ t, t < nshards → u ∈ idmaps t → (u, t) ∈ done := fun u hu t ht hut =>
    mem_done_of_lt Before.asymm hsorted hpre (mem_nodeShard.mpr ⟨ht, hut⟩) (.inl hu)
  have hpast : ∀ p ∈ done, p.1 ≤ v := fun p hp => by
    have := done_lt hsorted hpre hp
    rw [Before] at this
    omega
  have hin : ∀ p ∈ done, p.2 < nshards ∧ p.1 ∈ idmaps p.2 := fun p hp =>
    mem_nodeShard.mp (hpre.subset (List.mem_append_left _ hp))
  have hcur : s.curId ≤ v := by
    have := h.current
    split_ifs at this with hnil
    · omega
    · obtain ⟨t, ht⟩ := this
      exact hpast _ ht
  have hend : ∀ s' : Merge, s'.curId = v →
      Ready nshards maxDegree idmaps graph hdr (done ++ [(v, shard)]) s' →
      MergeInv nshards maxDegree idmaps graph hdr (done ++ [(v, shard)]) s' := by
    intro s' hs' hready
    refine ⟨hready, ?_, fun p hp => ?_⟩
    · rw [if_neg (by simp)]
      exact ⟨shard, hs' ▸ List.mem_append_right _ List.mem_cons_self⟩
    · rw [hs']
      rcases List.mem_append.mp hp with hp | hp
      · exact hpast p hp
      · rw [List.mem_singleton.mp hp]
  rw [Merge.visit]
  rcases hcur.lt_or_eq with hlt | heq
  · rw [if_pos hlt]
    have hdone : ∀ t, (s.curId, t) ∈ done ↔ t < nshards ∧ s.curId ∈ idmaps t := fun t =>
      ⟨fun ht => hin _ ht, fun ht => hearlier _ hlt t ht.1 ht.2⟩
    -- no point is left out
    have hnext : v = s.curId + 1 := by
      by_contra hne
      obtain ⟨t, ht, hut⟩ := hsh.covered (s.curId + 1) (by omega)
      have := h.last _ (hearlier (s.curId + 1) (by omega) t ht hut)
      omega
    have hflush := h.toReady.flush hshuf hdone h.last
    subst hnext
    obtain ⟨s', hrun, hs', hready⟩ := hflush.read hsh hn hg hpre
    exact ⟨s', hrun, hend s' hs' hready⟩
  · subst heq
    rw [if_neg (lt_irrefl _)]
    obtain ⟨s', hrun, hs', hready⟩ := h.toReady.read hsh hn hg hpre
    exact ⟨s', hrun, hend s' hs' hready⟩

theorem start_inv (hdr : List UInt8) {readers : ℕ → List UInt8}
    (h : ∀ shard < nshards, readers shard = memIndexNodes (graph shard)) :
    MergeInv nshards maxDegree idmaps graph hdr [] (Merge.start readers hdr) := by
  refine ⟨⟨h, List.nodup_nil, by simp [Merge.start], by simp [Merge.start], [], rfl, ?_, rfl,
    by simp⟩, rfl, by simp⟩
  rw [memIndexNodes_nil, List.append_nil]
  rfl

theorem merge_loop (hpos : 0 < n) (hsh : Sharded n nshards idmaps) (hn : n ≤ 2 ^ 32)
    (hg : ShardGraphs nshards idmaps graph) (hshuf : ∀ i l, (shuffle i l).Perm l) {start : Merge}
    (hstart : MergeInv nshards maxDegree idmaps graph hdr [] start) :
    ∃ s lists, (nodeShard nshards idmaps).foldlM (Merge.visit maxDegree shuffle idmaps) start =
        .ok s ∧
      (s.flush maxDegree shuffle).out = hdr ++ memIndexNodes lists ∧
      (s.flush maxDegree shuffle).mergedIndexSize = 24 + (memIndexNodes lists).length ∧
      lists.length = n ∧
      ∀ v nb, lists[v]? = some nb → Merged nshards maxDegree idmaps graph v nb := by
  obtain ⟨s, hrun, hinv⟩ := FallibleFold.foldlM_ok
    (MergeInv nshards maxDegree idmaps graph hdr) (nodeShard nshards idmaps) hstart
    fun done x s hpre h => h.visit hsh hn hg hshuf hpre
  obtain ⟨t, ht, hlastid⟩ := hsh.covered (n - 1) (by omega)
  have hcur : s.curId = n - 1 := by
    have hge := hinv.last _ (mem_nodeShard.mpr ⟨ht, hlastid⟩)
    have := hinv.current
    rw [if_neg (List.ne_nil_of_mem (mem_nodeShard.mpr ⟨ht, hlastid⟩))] at this
    obtain ⟨t', ht'⟩ := this
    have hin := mem_nodeShard.mp ht'
    have := hsh.below t' hin.1 _ hin.2
    omega
  obtain ⟨lists, hlen, hout, hsize, hlists⟩ :=
    (hinv.toReady.flush hshuf (fun shard => mem_nodeShard) hinv.last).written
  have hlen : lists.length = s.curId + 1 := hlen
  exact ⟨s, lists, hrun, hout, hsize, by omega, hlists⟩

end Loop

/-! ### The files -/

theorem mapM_eq_pure {m : Type → Type} [Monad m] [LawfulMonad m] {α β : Type} {f : α → m β}
    {g : α → β} {l : List α} (h : ∀ x ∈ l, f x = pure (g x)) : l.mapM f = pure (l.map g) := by
  induction l with
  | nil => rfl
  | cons x l ih =>
    rw [List.mapM_cons, h x List.mem_cons_self, pure_bind,
      ih fun y hy => h y (List.mem_cons_of_mem _ hy), pure_bind, List.map_cons]

theorem readIdmap_idmapFile {ids : List ℕ} (hlen : ids.length < 2 ^ 32)
    (hids : ∀ id ∈ ids, id < 2 ^ 32) : readIdmap (idmapFile ids) = .ok ids := by
  have hword : (2 : ℕ) ^ 32 = 256 ^ 4 := by norm_num
  have hnpts : readLe 4 (idmapFile ids) 0 = ids.length := by
    have hs := slice_mid [] (le 4 ids.length) (le 4 1 ++ cells 4 ids)
    rw [List.nil_append, List.length_nil, length_le] at hs
    rw [readLe, idmapFile, List.append_assoc, hs, val_le_of_lt (hlen.trans_eq hword)]
  have hdim : readLe 4 (idmapFile ids) 4 = 1 := by
    have hs := slice_mid (le 4 ids.length) (le 4 1) (cells 4 ids)
    rw [length_le, length_le] at hs
    rw [readLe, idmapFile, List.append_assoc, hs, val_le_of_lt (by norm_num)]
  have hdrop : (idmapFile ids).drop 8 = cells 4 ids :=
    List.drop_left' (by rw [List.length_append, length_le, length_le])
  have hread := readCells_cells (w := 4) ids (fun id hid => (hids id hid).trans_eq hword) []
  rw [List.append_nil] at hread
  simp only [readIdmap, hnpts, hdim]
  rw [if_neg, hdrop, hread]
  rw [not_or]
  refine ⟨not_not.mpr rfl, not_not.mpr ?_⟩
  rw [idmapFile, List.length_append, List.length_append, length_le, length_le, length_cells]
  omega

section Files

variable {n nshards maxDegree : ℕ} {idmaps : ℕ → List ℕ} {graph : ℕ → List (List ℕ)}
  {shuffle : ℕ → List ℕ → List ℕ}

section Congr

variable {idmap : ℕ → List ℕ} (hmap : ∀ shard < nshards, idmap shard = idmaps shard)
include hmap

theorem Sharded.congr (h : Sharded n nshards idmaps) : Sharded n nshards idmap := by
  refine ⟨fun shard hs => ?_, fun shard hs => ?_, fun id hid => ?_⟩
  · rw [hmap shard hs]
    exact h.ascending shard hs
  · rw [hmap shard hs]
    exact h.below shard hs
  · obtain ⟨shard, hs, hin⟩ := h.covered id hid
    exact ⟨shard, hs, (hmap shard hs).symm ▸ hin⟩

theorem ShardGraphs.congr (h : ShardGraphs nshards idmaps graph) :
    ShardGraphs nshards idmap graph := by
  refine ⟨fun shard hs => ?_, fun shard hs => ?_, h.deg_lt⟩
  · rw [hmap shard hs]
    exact h.length_eq shard hs
  · rw [hmap shard hs]
    exact h.ids_lt shard hs

theorem Merged.congr {v : ℕ} {nb : List ℕ} (h : Merged nshards maxDegree idmap graph v nb) :
    Merged nshards maxDegree idmaps graph v nb := by
  have hedge : ∀ shard < nshards, ∀ u,
      ShardEdge idmap graph shard v u ↔ ShardEdge idmaps graph shard v u := by
    intro shard hs u
    rw [ShardEdge, ShardEdge, hmap shard hs]
  refine ⟨h.nodup, h.length_le, fun u hu => ?_, fun hlt shard hs u hu => ?_⟩
  · obtain ⟨shard, hs, he⟩ := h.edge u hu
    exact ⟨shard, hs, (hedge shard hs u).mp he⟩
  · exact h.complete hlt shard hs u ((hedge shard hs u).mpr hu)

end Congr

variable (maxDegree) in
/-- From the graphs of the shards `merge_shards` writes one of all points. -/
theorem mergeShards_eq (hK : 0 < nshards) (hpos : 0 < n) (hsh : Sharded n nshards idmaps)
    (hn : n ≤ 2 ^ 32) (hlen : ∀ shard < nshards, (idmaps shard).length < 2 ^ 32)
    (hg : ShardGraphs nshards idmaps graph) (hshuf : ∀ i l, (shuffle i l).Perm l)
    {medoid : ℕ → ℕ} (hmedoid : ∀ shard < nshards, medoid shard < (idmaps shard).length) :
    ∃ lists, mergeShards maxDegree shuffle nshards (fun shard => idmapFile (idmaps shard))
        (fun shard => memIndex (graph shard) (medoid shard) 0) =
      .ok (memIndexHdr (24 + (memIndexNodes lists).length) maxDegree
          ((idmaps (nshards - 1)).getD (medoid (nshards - 1)) 0) 0 ++ memIndexNodes lists,
        le 4 nshards ++ le 4 1 ++ cells 4 ((List.range nshards).map fun shard =>
          (idmaps shard).getD (medoid shard) 0)) ∧
      lists.length = n ∧
      ∀ v nb, lists[v]? = some nb → Merged nshards maxDegree idmaps graph v nb := by
  have hids : (List.range nshards).mapM (fun shard => readIdmap (idmapFile (idmaps shard))) =
      .ok ((List.range nshards).map idmaps) :=
    mapM_eq_pure fun shard hs => readIdmap_idmapFile (hlen shard (List.mem_range.mp hs))
      fun id hid => (hsh.below shard (List.mem_range.mp hs) id hid).trans_le hn
  set idmap := fun shard => ((List.range nshards).map idmaps).getD shard [] with hidmap
  have hmap : ∀ shard < nshards, idmap shard = idmaps shard := by
    intro shard hs
    simp only [hidmap]
    rw [List.getD_eq_getElem _ _ (by simpa using hs), List.getElem_map, List.getElem_range]
  have hmedoids : (List.range nshards).mapM (fun shard =>
      (idmap shard)[readLe 4 (memIndex (graph shard) (medoid shard) 0) 12]?) =
      some ((List.range nshards).map fun shard => (idmaps shard).getD (medoid shard) 0) := by
    refine mapM_eq_pure fun shard hs => ?_
    have hs := List.mem_range.mp hs
    have hlt := hmedoid shard hs
    rw [memIndex, hdr_ep _ (hlt.trans (hlen shard hs)), hmap shard hs, List.getElem?_eq_getElem hlt,
      List.getD_eq_getElem _ _ hlt]
    rfl
  have hlast :
      ((List.range nshards).map fun shard => (idmaps shard).getD (medoid shard) 0).getLast? =
      some ((idmaps (nshards - 1)).getD (medoid (nshards - 1)) 0) := by
    obtain ⟨k, rfl⟩ := Nat.exists_eq_succ_of_ne_zero hK.ne'
    rw [List.getLast?_map, Nat.succ_eq_add_one, List.range_succ, List.getLast?_concat,
      Nat.add_sub_cancel]
    rfl
  have hany : ((List.range nshards).any fun shard =>
      decide ((memIndex (graph shard) (medoid shard) 0).length < 24)) = false := by
    rw [List.any_eq_false]
    intro shard _
    rw [decide_eq_true_eq, length_memIndex]
    omega
  have hstart : MergeInv nshards maxDegree idmap graph (le 8 24 ++ le 4 maxDegree ++
      cells 4 [(idmaps (nshards - 1)).getD (medoid (nshards - 1)) 0] ++ le 8 0) []
      (Merge.start (fun shard => (memIndex (graph shard) (medoid shard) 0).drop 24) _) :=
    start_inv _ fun shard _ => drop_memIndexHdr _
  obtain ⟨s, lists, hrun, hout, hsize, hcount, hlists⟩ :=
    merge_loop hpos (hsh.congr hmap) hn (hg.congr hmap) hshuf hstart
  refine ⟨lists, ?_, hcount, fun v nb hv => (hlists v nb hv).congr hmap⟩
  rw [mergeShards, hids]
  dsimp only
  rw [← hidmap, hany, if_neg Bool.false_ne_true, hmedoids]
  dsimp only
  rw [hlast, Option.toList_some, hrun]
  dsimp only
  rw [hout, hsize]
  simp only [List.append_assoc]
  rw [overwrite_front _ _ _ (by rw [length_le, length_le]), memIndexHdr, cells_cons, cells_nil,
    List.append_nil]
  simp only [List.append_assoc]

end Files

theorem loadMemIndex_eq {isz maxObs ep nf : ℕ} {adj : List (List ℕ)} (hep : ep < 2 ^ 32)
    (h : ∀ nb ∈ adj, FitsNode nb) :
    loadMemIndex (memIndexHdr isz maxObs ep nf ++ memIndexNodes adj) = .ok (ep, adj) := by
  have hlen : 24 ≤ (memIndexHdr isz maxObs ep nf ++ memIndexNodes adj).length := by
    rw [List.length_append, length_memIndexHdr]
    omega
  rw [loadMemIndex, if_neg (by omega), if_neg (by omega), if_neg (by omega), if_neg (by omega),
    drop_memIndexHdr, readToEnd_nodes _ h, hdr_ep _ hep]
  rfl

/-! ### Partition, build and merge -/

/-- What a build makes of the data of a shard: as many lists as points, with numbers of points,
and a start node that is one. -/
structure Builds {β : Type*} (build : List β → List (List ℕ) × ℕ) (data : List β) : Prop where
  length_eq : (build data).1.length = data.length
  ids_lt : ∀ nb ∈ (build data).1, ∀ j ∈ nb, j < data.length
  deg_lt : ∀ nb ∈ (build data).1, nb.length < 2 ^ 32
  medoid_lt : (build data).2 < data.length

section Merged

variable {β : Type*} (build : List β → List (List ℕ) × ℕ) (row : ℕ → β) (closest : ℕ → List ℕ)
  (n safeBs : ℕ)

/-- The graph of a shard and its start node, from the data of the points of the shard. -/
def shardGraph (shard : ℕ) : List (List ℕ) × ℕ :=
  build (retrieve (shardIds closest n safeBs shard)
    ((List.range n).map fun id => (id, row id)) 0)

/-- `build_merged_vamana_index` of an index that does not fit. -/
def buildMergedVamanaIndex (maxDegree nshards : ℕ) (shuffle : ℕ → List ℕ → List ℕ) :
    Except String (List UInt8 × List UInt8) :=
  mergeShards maxDegree shuffle nshards (fun shard => idmapFile (shardIds closest n safeBs shard))
    fun shard => memIndex (shardGraph build row closest n safeBs shard).1
      (shardGraph build row closest n safeBs shard).2 0

variable {build row closest n safeBs}

theorem shardGraph_eq (hbs : 0 < safeBs) (hn : n ≤ 2 ^ 32)
    (hnd : ∀ id < n, (closest id).Nodup) (shard : ℕ) :
    shardGraph build row closest n safeBs shard =
      build ((shardIds closest n safeBs shard).map row) := by
  have hasc : (shardIds closest n safeBs shard).Pairwise (· < ·) := by
    rw [shardIds_eq hbs hn hnd]
    exact List.pairwise_lt_range.filter _
  have := retrieve_eq row hasc 0 n 0 fun id hid => by
    rw [List.drop_zero, shardIds_eq hbs hn hnd] at hid
    have := List.mem_range.mp (List.mem_filter.mp hid).1
    omega
  rw [← List.range_eq_range', List.drop_zero] at this
  rw [shardGraph, this]

theorem sharded_shardIds {nshards : ℕ} (hbs : 0 < safeBs) (hn : n ≤ 2 ^ 32)
    (hclosest : ∀ id < n, (closest id).Nodup ∧ ∃ shard < nshards, shard ∈ closest id) :
    Sharded n nshards (shardIds closest n safeBs) := by
  have heq : ∀ shard, shardIds closest n safeBs shard = _ :=
    shardIds_eq hbs hn fun id hid => (hclosest id hid).1
  refine ⟨fun shard _ => ?_, fun shard _ id hid => ?_, fun id hid => ?_⟩
  · rw [heq]
    exact List.pairwise_lt_range.filter _
  · rw [heq] at hid
    exact List.mem_range.mp (List.mem_filter.mp hid).1
  · obtain ⟨shard, hs, hin⟩ := (hclosest id hid).2
    refine ⟨shard, hs, ?_⟩
    rw [heq]
    exact List.mem_filter.mpr ⟨List.mem_range.mpr hid, decide_eq_true hin⟩

end Merged

end HiDANN.Baselines
