import HiDANN.Disk.Sources
import HiDANN.Library.FallibleFold
import HiDANN.Search.CacheTable
import Mathlib.Data.List.Sort

/-! `load_cache_list`. The ids of the cache list are sorted and read in batches; each list
goes to the end of the pool with its count in front, and its place into the offset vector
or the hash table. A repeated id is stored again, and its last place counts. Which mode
is used, and how large the batches are, makes no difference to where a list is found. -/

namespace HiDANN.Search

open Disk Bytes

/-! ### The graph sources -/

/-- What the loader uses of a `GraphSource`. The count of a list is limited by the
degree. -/
structure GraphSource where
  maxDegree : ℕ
  prepareNodeRead : ℕ → AlignedRead
  getNeighborsPtr : ℕ → List UInt8 → List ℕ
  length_le : ∀ id buf, (getNeighborsPtr id buf).length ≤ maxDegree

theorem length_neighborsAt_le (s : DiskANNGraphSource) (buf : List UInt8) (ptr : ℕ) :
    (s.neighborsAt buf ptr).length ≤ s.maxDegree := by
  rw [DiskANNGraphSource.neighborsAt, length_readCells]
  split_ifs with h
  · exact le_rfl
  · exact not_lt.mp h

/-- The lists inside the records of the disk index. -/
def diskANNSource (s : DiskANNGraphSource) : GraphSource where
  maxDegree := s.maxDegree
  prepareNodeRead := s.prepareNodeRead
  getNeighborsPtr := s.getNeighborsPtr
  length_le _ buf := length_neighborsAt_le s buf _

/-- `FixedGraphSource`: records of one length behind a header of 16 bytes. -/
structure FixedGraphSource where
  maxDegree : ℕ

namespace FixedGraphSource

variable (s : FixedGraphSource)

def nodeSizeBytes : ℕ := 4 + s.maxDegree * 4

def offset (id : ℕ) : ℕ := (16 + id * s.nodeSizeBytes) % 2 ^ 64

/-- The blocks around the record; the length is 32-bit. -/
def prepareNodeRead (id : ℕ) : AlignedRead :=
  let alignedOff := s.offset id / 512 * 512
  let len := s.offset id - alignedOff + s.nodeSizeBytes
  ⟨alignedOff, (len + 511) / 512 * 512 % 2 ^ 32⟩

def getNeighborsPtr (id : ℕ) (buf : List UInt8) : List ℕ :=
  let ptr := s.offset id - s.offset id / 512 * 512
  let count := readLe 4 buf ptr
  let count := if s.maxDegree < count then s.maxDegree else count
  readCells 4 count (buf.drop (ptr + 4))

theorem length_getNeighborsPtr_le (id : ℕ) (buf : List UInt8) :
    (s.getNeighborsPtr id buf).length ≤ s.maxDegree := by
  rw [getNeighborsPtr, length_readCells]
  split_ifs with h
  · exact le_rfl
  · exact not_lt.mp h

def source : GraphSource where
  maxDegree := s.maxDegree
  prepareNodeRead := s.prepareNodeRead
  getNeighborsPtr := s.getNeighborsPtr
  length_le := s.length_getNeighborsPtr_le

end FixedGraphSource

namespace GraphSource

variable (g : GraphSource) (file : List UInt8)

/-- The list of a node as it is decoded from the disk. -/
def onDisk (id : ℕ) : List ℕ := g.getNeighborsPtr id ((g.prepareNodeRead id).bytes file)

/-! ### The loader -/

def storeNode (c : Cache) (r : ℕ × List UInt8) : Except String Cache :=
  let neighbors := g.getNeighborsPtr r.1 r.2
  let currentOffset := c.cachePool.length
  if cacheEmpty ≤ currentOffset then .error "cache pool offset does not fit in uint32_t"
  else
    let c := { c with cachePool := c.cachePool ++ neighbors.length :: neighbors }
    if c.useOffsetCacheMode then
      .ok { c with cacheOffsets := c.cacheOffsets.set r.1 (currentOffset % 2 ^ 32) }
    else c.insertCacheLookup r.1 (currentOffset % 2 ^ 32)

/-- One batch: all its requests are read, then its lists are stored. -/
def storeBatch (ids : List ℕ) (c : Cache) : Except String Cache :=
  let reqs := ids.map g.prepareNodeRead
  let bufs := reqs.map fun req => req.bytes file
  (ids.zip bufs).foldlM g.storeNode c

def storeBatches (batchSize : ℕ) : ℕ → List ℕ → Cache → Except String Cache
  | 0, _, c => .ok c
  | fuel + 1, ids, c =>
    if ids = [] then .ok c
    else
      match g.storeBatch file (ids.take batchSize) c with
      | .error e => .error e
      | .ok c => storeBatches batchSize fuel (ids.drop batchSize) c

/-- `reserve_per_node`, 32-bit. -/
def reservePerNode : ℕ := if 0 < g.maxDegree then (g.maxDegree + 1) % 2 ^ 32 else 32

end GraphSource

/-- What is set in the environment: `SIGMA_CACHE_LOOKUP_MODE`, and `SIGMA_IO_BATCH_SIZE` as
the 32-bit number it is read as. -/
structure CacheEnv where
  lookupMode : Option String
  ioBatchSize : Option ℕ

namespace CacheEnv

variable (env : CacheEnv)

def useOffsetCacheMode (numPoints size : ℕ) : Bool :=
  let lookupMode := env.lookupMode.getD "auto"
  let forceOffset := lookupMode = "offset-vector" ∨ lookupMode = "offset"
  let forceHash := lookupMode = "compact-hash" ∨ lookupMode = "hash" ∨ lookupMode = "hash-map"
  if forceOffset then true
  else if forceHash then false
  else
    let offsetLookupBytes := numPoints * 4 % 2 ^ 64
    let compactHashBytes := ((size * 4 + 2) / 3 + 1) * 2 * 4
    size = numPoints ∨ offsetLookupBytes ≤ compactHashBytes

def batchSize : ℕ :=
  match env.ioBatchSize with
  | none => 256
  | some batchSize => if batchSize = 0 then 256 else batchSize

/-- The cache before the first list is stored. -/
def initCache (numPoints size : ℕ) : Cache :=
  if env.useOffsetCacheMode numPoints size then
    ⟨true, List.replicate numPoints cacheEmpty, [], [], []⟩
  else Cache.empty.initCompactCacheHash size

end CacheEnv

def loadCacheList (g : GraphSource) (file : List UInt8) (numPoints : ℕ) (env : CacheEnv)
    (nodeList : List ℕ) : Except String Cache :=
  if nodeList = [] then .ok .empty
  else
    let expectedPoolEntries := nodeList.length * g.reservePerNode % 2 ^ 64
    if cacheEmpty ≤ expectedPoolEntries then .error "cache pool offset does not fit in uint32_t"
    else
      let sorted := nodeList.insertionSort (· ≤ ·)
      g.storeBatches file env.batchSize nodeList.length sorted
        (env.initCache numPoints nodeList.length)

/-! ### Where the lists go -/

structure Placement where
  place : ℕ → Option ℕ
  pool : List ℕ

namespace Placement

variable (disk : ℕ → List ℕ)

def empty : Placement := ⟨fun _ => none, []⟩

def store (p : Placement) (id : ℕ) : Placement where
  place := Function.update p.place id (some p.pool.length)
  pool := p.pool ++ (disk id).length :: disk id

def ofList (ids : List ℕ) : Placement := ids.foldl (store disk) empty

variable {disk}

theorem ofList_append (ids : List ℕ) (id : ℕ) :
    ofList disk (ids ++ [id]) = (ofList disk ids).store disk id := by
  rw [ofList, List.foldl_append]
  rfl

theorem isSome_place (ids : List ℕ) (id : ℕ) :
    ((ofList disk ids).place id).isSome ↔ id ∈ ids := by
  induction ids using List.reverseRecOn with
  | nil => simp [ofList, empty]
  | append_singleton ids last ih =>
    rw [ofList_append, store, List.mem_append, List.mem_singleton]
    by_cases he : id = last
    · subst he
      simp
    · simp [he, ih]

theorem prefix_drop (ids : List ℕ) {id poolOffset : ℕ}
    (h : (ofList disk ids).place id = some poolOffset) :
    (disk id).length :: disk id <+: (ofList disk ids).pool.drop poolOffset := by
  induction ids using List.reverseRecOn with
  | nil => cases h
  | append_singleton ids last ih =>
    rw [ofList_append, store] at h ⊢
    dsimp only at h ⊢
    by_cases he : id = last
    · subst he
      rw [Function.update_self] at h
      rw [← Option.some.inj h, List.drop_left]
    · rw [Function.update_of_ne he] at h
      have hold := ih h
      have hlt : poolOffset < (ofList disk ids).pool.length := by
        by_contra hge
        rw [List.drop_of_length_le (not_lt.mp hge)] at hold
        cases List.prefix_nil.mp hold
      rw [List.drop_append_of_le_length hlt.le]
      exact hold.trans (List.prefix_append _ _)

theorem length_store (p : Placement) (id : ℕ) :
    (p.store disk id).pool.length = p.pool.length + ((disk id).length + 1) :=
  List.length_append

theorem length_pool_le {d : ℕ} (hd : ∀ id, (disk id).length ≤ d) (ids : List ℕ) :
    (ofList disk ids).pool.length ≤ ids.length * (d + 1) := by
  induction ids using List.reverseRecOn with
  | nil => exact Nat.zero_le _
  | append_singleton ids last ih =>
    have := hd last
    rw [ofList_append, length_store, List.length_append, List.length_singleton, Nat.succ_mul]
    omega

end Placement

/-! ### What the cache holds -/

/-- The cache holds a placement in its own mode; `n` is how many inserts there were. -/
structure Cache.Holds (c : Cache) (numPoints capacity : ℕ) (p : Placement) (n : ℕ) : Prop where
  pool_eq : c.cachePool = p.pool
  bounds : ∀ id poolOffset, p.place id = some poolOffset → id < numPoints ∧ poolOffset < cacheEmpty
  offsets : c.useOffsetCacheMode = true → c.cacheOffsets.length = numPoints ∧
    ∀ id < numPoints, c.cacheOffsets[id]? = some ((p.place id).getD cacheEmpty)
  hash : c.useOffsetCacheMode = false → c.HashHolds p.place n ∧ c.cacheHashKeys.length = capacity

section

variable {c : Cache} {numPoints capacity n : ℕ} {p : Placement}

theorem Cache.Holds.lookup_eq (h : c.Holds numPoints capacity p n) (hN : numPoints < 2 ^ 32)
    (id : ℕ) : c.lookup id = p.place id := by
  rw [Cache.lookup]
  cases hmode : c.useOffsetCacheMode with
  | true =>
    obtain ⟨hlen, hget⟩ := h.offsets hmode
    rw [if_pos rfl]
    by_cases hid : id < numPoints
    · rw [hget id hid]
      cases hp : p.place id with
      | none => exact if_pos rfl
      | some poolOffset => exact if_neg (h.bounds id poolOffset hp).2.ne
    · rw [List.getElem?_eq_none (by omega)]
      cases hp : p.place id with
      | none => rfl
      | some poolOffset => exact absurd (h.bounds id poolOffset hp).1 hid
  | false =>
    rw [if_neg Bool.false_ne_true]
    apply (h.hash hmode).1.findCacheLookup
    intro id poolOffset hp
    obtain ⟨hid, hoff⟩ := h.bounds id poolOffset hp
    refine ⟨?_, hoff.ne⟩
    unfold cacheEmpty
    omega

theorem Cache.Holds.bounds_store (h : c.Holds numPoints capacity p n) (disk : ℕ → List ℕ)
    {id : ℕ} (hid : id < numPoints) (hroom : p.pool.length < cacheEmpty) :
    ∀ k poolOffset, (p.store disk id).place k = some poolOffset →
      k < numPoints ∧ poolOffset < cacheEmpty := by
  intro k poolOffset hk
  rw [Placement.store] at hk
  dsimp only at hk
  by_cases he : k = id
  · subst he
    rw [Function.update_self] at hk
    rw [← Option.some.inj hk]
    exact ⟨hid, hroom⟩
  · rw [Function.update_of_ne he] at hk
    exact h.bounds k poolOffset hk

theorem Cache.Holds.storeNode (g : GraphSource) (disk : ℕ → List ℕ) {id : ℕ} {buf : List UInt8}
    (hbuf : g.getNeighborsPtr id buf = disk id) (h : c.Holds numPoints capacity p n)
    (hN : numPoints < 2 ^ 32) (hid : id < numPoints) (hn : n < capacity) :
    cacheEmpty ≤ p.pool.length ∧
      g.storeNode c (id, buf) = .error "cache pool offset does not fit in uint32_t" ∨
    ∃ c', g.storeNode c (id, buf) = .ok c' ∧
      c'.Holds numPoints capacity (p.store disk id) (n + 1) := by
  by_cases hfull : cacheEmpty ≤ p.pool.length
  · left
    refine ⟨hfull, ?_⟩
    rw [GraphSource.storeNode]
    dsimp only
    rw [h.pool_eq, if_pos hfull]
  · right
    have hmod : p.pool.length % 2 ^ 32 = p.pool.length := by
      apply Nat.mod_eq_of_lt
      unfold cacheEmpty at hfull
      omega
    have hbounds := h.bounds_store disk hid (not_le.mp hfull)
    rw [GraphSource.storeNode]
    dsimp only
    rw [h.pool_eq, if_neg hfull, hbuf, hmod]
    cases hmode : c.useOffsetCacheMode with
    | true =>
      obtain ⟨hlen, hget⟩ := h.offsets hmode
      refine ⟨_, if_pos rfl, rfl, hbounds, fun _ => ⟨?_, ?_⟩, fun he => ?_⟩
      · exact List.length_set.trans hlen
      · intro k hk
        dsimp only [Placement.store]
        by_cases he : k = id
        · subst he
          rw [List.getElem?_set_self (by omega), Function.update_self]
          rfl
        · rw [List.getElem?_set_ne (Ne.symm he), Function.update_of_ne he]
          exact hget k hk
      · cases he
    | false =>
      obtain ⟨hhash, hcap⟩ := h.hash hmode
      have hne : id ≠ cacheEmpty := by
        unfold cacheEmpty
        omega
      have hhash' : Cache.HashHolds { c with
          cachePool := p.pool ++ (disk id).length :: disk id } p.place n :=
        ⟨hhash.length_eq, hhash.represents⟩
      obtain ⟨q, hq, hok, hset⟩ := hhash'.insert hne (hcap ▸ hn) p.pool.length
      rw [hmode] at hok hset
      refine ⟨_, (if_neg Bool.false_ne_true).trans hok, rfl, hbounds, fun he => ?_, fun _ => ?_⟩
      · cases he
      · exact ⟨hset, List.length_set.trans hcap⟩

/-! ### Runs -/

def GraphSource.storeList (g : GraphSource) (file : List UInt8) (ids : List ℕ) (c : Cache) :
    Except String Cache :=
  ids.foldlM (fun c id => g.storeNode c (id, (g.prepareNodeRead id).bytes file)) c

variable {g : GraphSource} {file : List UInt8}

theorem storeBatch_eq (ids : List ℕ) (c : Cache) :
    g.storeBatch file ids c = g.storeList file ids c := by
  have hzip : ids.zip ((ids.map g.prepareNodeRead).map fun req => req.bytes file) =
      ids.map fun id => (id, (g.prepareNodeRead id).bytes file) := by
    rw [List.map_map]
    induction ids with
    | nil => rfl
    | cons id ids ih => exact congrArg _ ih
  rw [GraphSource.storeBatch, hzip, List.foldlM_map]
  rfl

theorem storeList_append (ids ids' : List ℕ) (c : Cache) :
    g.storeList file (ids ++ ids') c = match g.storeList file ids c with
      | .error e => .error e
      | .ok c => g.storeList file ids' c := by
  unfold GraphSource.storeList
  rw [FallibleFold.foldlM_append]
  cases ids.foldlM (fun c id => g.storeNode c (id, (g.prepareNodeRead id).bytes file)) c with
  | error e => rfl
  | ok c => rfl

theorem storeList_concat (ids : List ℕ) (id : ℕ) (c : Cache) :
    g.storeList file (ids ++ [id]) c = match g.storeList file ids c with
      | .error e => .error e
      | .ok c => g.storeNode c (id, (g.prepareNodeRead id).bytes file) := by
  unfold GraphSource.storeList
  rw [FallibleFold.foldlM_concat]
  cases ids.foldlM (fun c id => g.storeNode c (id, (g.prepareNodeRead id).bytes file)) c with
  | error e => rfl
  | ok c => rfl

/-- The batches store the lists in order, whatever their size. -/
theorem storeBatches_eq {batchSize : ℕ} (hB : 0 < batchSize) (fuel : ℕ) (ids : List ℕ) (c : Cache)
    (hfuel : ids.length ≤ fuel) :
    g.storeBatches file batchSize fuel ids c = g.storeList file ids c := by
  induction fuel generalizing ids c with
  | zero =>
    rw [List.eq_nil_of_length_eq_zero (Nat.le_zero.mp hfuel)]
    rfl
  | succ fuel ih =>
    rw [GraphSource.storeBatches]
    by_cases hnil : ids = []
    · subst hnil
      rfl
    · have hpos := List.length_pos_iff.mpr hnil
      rw [if_neg hnil, storeBatch_eq]
      conv_rhs => rw [← List.take_append_drop batchSize ids, storeList_append]
      cases g.storeList file (ids.take batchSize) c with
      | error e => rfl
      | ok c =>
        apply ih
        rw [List.length_drop]
        omega

theorem CacheEnv.batchSize_pos (env : CacheEnv) : 0 < env.batchSize := by
  unfold CacheEnv.batchSize
  cases env.ioBatchSize with
  | none => decide
  | some batchSize =>
    dsimp only
    split_ifs with h
    · decide
    · exact Nat.pos_of_ne_zero h

variable (g file) in
/-- A run stores its lists unless it runs into the full pool. -/
theorem storeList_holds (hN : numPoints < 2 ^ 32) {start : Cache}
    (hstart : start.Holds numPoints capacity .empty 0) (ids : List ℕ)
    (hids : ∀ id ∈ ids, id < numPoints) (hcap : ids.length ≤ capacity) :
    cacheEmpty ≤ (Placement.ofList (g.onDisk file) ids).pool.length ∧
      g.storeList file ids start = .error "cache pool offset does not fit in uint32_t" ∨
    ∃ c, g.storeList file ids start = .ok c ∧
      c.Holds numPoints capacity (.ofList (g.onDisk file) ids) ids.length := by
  induction ids using List.reverseRecOn with
  | nil => exact .inr ⟨start, rfl, hstart⟩
  | append_singleton ids id ih =>
    rw [List.length_append, List.length_singleton] at hcap ⊢
    rw [Placement.ofList_append, Placement.length_store, storeList_concat]
    rcases ih (fun k hk => hids k (List.mem_append_left _ hk)) (by omega) with
      ⟨hfull, herr⟩ | ⟨c, hc, hholds⟩
    · left
      rw [herr]
      exact ⟨by omega, rfl⟩
    · have hid := hids id (List.mem_append_right _ (List.mem_singleton_self id))
      rw [hc]
      dsimp only
      rcases hholds.storeNode g (g.onDisk file) rfl hN hid (by omega) with ⟨hfull, herr⟩ | hok
      · exact .inl ⟨by omega, herr⟩
      · exact .inr hok

theorem CacheEnv.initCache_holds (env : CacheEnv) (numPoints : ℕ) {size : ℕ} (hsize : size ≠ 0) :
    (env.initCache numPoints size).Holds numPoints ((size * 4 + 2) / 3 + 1) .empty 0 := by
  unfold CacheEnv.initCache
  cases env.useOffsetCacheMode numPoints size with
  | true =>
    rw [if_pos rfl]
    refine ⟨rfl, fun id poolOffset h => ?_, fun _ => ⟨List.length_replicate, ?_⟩, fun h => ?_⟩
    · cases h
    · intro id hid
      exact List.getElem?_replicate_of_lt hid
    · cases h
  | false =>
    rw [if_neg Bool.false_ne_true]
    refine ⟨?_, fun id poolOffset h => ?_, fun h => ?_, fun _ => ⟨?_, ?_⟩⟩
    · rw [Cache.initCompactCacheHash, if_neg hsize]
      rfl
    · cases h
    · rw [Cache.initCompactCacheHash, if_neg hsize] at h
      cases h
    · exact Cache.hashHolds_init .empty hsize
    · rw [Cache.initCompactCacheHash, if_neg hsize]
      exact List.length_replicate

variable {env : CacheEnv} {nodeList : List ℕ}

variable (g file env) in
/-- A list that passes the check is loaded, unless the pool becomes too large. -/
theorem loadCacheList_holds (hN : numPoints < 2 ^ 32) (hne : nodeList ≠ [])
    (hids : ∀ id ∈ nodeList, id < numPoints) :
    (loadCacheList g file numPoints env nodeList =
        .error "cache pool offset does not fit in uint32_t" ∧
      (cacheEmpty ≤ nodeList.length * g.reservePerNode ∨
        cacheEmpty ≤ nodeList.length * (g.maxDegree + 1))) ∨
    ∃ c, loadCacheList g file numPoints env nodeList = .ok c ∧
      c.Holds numPoints ((nodeList.length * 4 + 2) / 3 + 1)
        (.ofList (g.onDisk file) (nodeList.insertionSort (· ≤ ·))) nodeList.length := by
  have hsize : nodeList.length ≠ 0 := List.length_eq_zero_iff.not.mpr hne
  have hlen : (nodeList.insertionSort (· ≤ ·)).length = nodeList.length :=
    List.length_insertionSort _ nodeList
  rw [loadCacheList, if_neg hne]
  dsimp only
  by_cases hcheck : cacheEmpty ≤ nodeList.length * g.reservePerNode % 2 ^ 64
  · exact .inl ⟨if_pos hcheck, .inl (hcheck.trans (Nat.mod_le _ _))⟩
  · rw [if_neg hcheck, storeBatches_eq env.batchSize_pos _ _ _ hlen.le]
    have hrun := storeList_holds g file hN (env.initCache_holds numPoints hsize)
      (nodeList.insertionSort (· ≤ ·)) (fun id hid => hids id ((List.mem_insertionSort _).mp hid))
      (by omega)
    rw [hlen] at hrun
    rcases hrun with ⟨hfull, herr⟩ | hok
    · have hdeg : ∀ id, (g.onDisk file id).length ≤ g.maxDegree := fun id => g.length_le id _
      have hle := Placement.length_pool_le hdeg (nodeList.insertionSort (· ≤ ·))
      rw [hlen] at hle
      exact .inl ⟨herr, .inr (hfull.trans hle)⟩
    · exact .inr hok

theorem holds_of_loadCacheList_eq (hN : numPoints < 2 ^ 32) (hne : nodeList ≠ [])
    (hids : ∀ id ∈ nodeList, id < numPoints) {c : Cache}
    (hc : loadCacheList g file numPoints env nodeList = .ok c) :
    c.Holds numPoints ((nodeList.length * 4 + 2) / 3 + 1)
      (.ofList (g.onDisk file) (nodeList.insertionSort (· ≤ ·))) nodeList.length := by
  rcases loadCacheList_holds g file env hN hne hids with ⟨herr, _⟩ | ⟨c', hc', hholds⟩
  · rw [herr] at hc
    cases hc
  · rw [hc] at hc'
    rwa [Except.ok.inj hc']

end

/-! ### Agreement with the disk -/

/-- A cache that answers for the ids of a list and no others, each with its count and its
list on disk. -/
structure Cache.LoadedFrom (c : Cache) (disk : ℕ → List ℕ) (ids : List ℕ) : Prop where
  cached : ∀ id, (c.lookup id).isSome ↔ id ∈ ids
  slice : ∀ id poolOffset, c.lookup id = some poolOffset →
    (disk id).length :: disk id <+: c.cachePool.drop poolOffset
  offset_lt : ∀ id poolOffset, c.lookup id = some poolOffset → poolOffset < cacheEmpty

/-- A slot at which every probe sequence stops. -/
def Cache.HasEmptySlot (c : Cache) : Prop :=
  ∃ pos < c.cacheHashKeys.length, c.cacheHashKeys[pos]? = some cacheEmpty

section

variable {c : Cache} {numPoints capacity n : ℕ} {disk : ℕ → List ℕ} {ids : List ℕ}

theorem Cache.Holds.loadedFrom (h : c.Holds numPoints capacity (.ofList disk ids) n)
    (hN : numPoints < 2 ^ 32) : c.LoadedFrom disk ids where
  cached id := by
    rw [h.lookup_eq hN]
    exact Placement.isSome_place ids id
  slice id poolOffset hl := by
    rw [h.lookup_eq hN] at hl
    rw [h.pool_eq]
    exact Placement.prefix_drop ids hl
  offset_lt id poolOffset hl := by
    rw [h.lookup_eq hN] at hl
    exact (h.bounds id poolOffset hl).2

theorem Cache.LoadedFrom.neighbors_eq (h : c.LoadedFrom disk ids) {id : ℕ} (hid : id ∈ ids) :
    c.neighbors id = some (disk id) := by
  obtain ⟨poolOffset, hl⟩ := Option.isSome_iff_exists.mp ((h.cached id).mpr hid)
  obtain ⟨rest, hrest⟩ := h.slice id poolOffset hl
  have hcount : c.cachePool.getD poolOffset 0 = (disk id).length := by
    have hget := congrArg (·.getD 0 0) hrest
    simpa using hget.symm
  have hdrop : c.cachePool.drop (poolOffset + 1) = disk id ++ rest := by
    rw [← List.drop_drop, ← hrest]
    rfl
  rw [Cache.neighbors, hl, Option.map_some, Cache.decode, hcount, hdrop, List.take_left]

theorem Cache.LoadedFrom.agrees (h : c.LoadedFrom disk ids) : c.Agrees disk := by
  intro id nbrs hn
  have hid : id ∈ ids := by
    rw [← h.cached id]
    rw [Cache.neighbors] at hn
    cases hl : c.lookup id with
    | none =>
      rw [hl] at hn
      cases hn
    | some poolOffset => rfl
  rw [h.neighbors_eq hid] at hn
  exact (Option.some.inj hn).symm

end

/-- The neighbour cache agrees with the disk in both modes. Point counts are 32-bit in the
files. The only failure is a pool that is too large, and a list within the bound is
loaded; then a lookup succeeds for the ids of the list, at the count and list that the
source decodes from the disk, and any other mode and batch size finds the same places.
After any number of inserts the hash table has an empty slot. -/
theorem cache_agrees_with_disk (g : GraphSource) (file : List UInt8) (numPoints : ℕ)
    (hN : numPoints < 2 ^ 32) (env : CacheEnv) (nodeList : List ℕ) (hne : nodeList ≠ [])
    (hids : ∀ id ∈ nodeList, id < numPoints) :
    (∀ e, loadCacheList g file numPoints env nodeList = .error e →
      e = "cache pool offset does not fit in uint32_t") ∧
    (nodeList.length * max g.reservePerNode (g.maxDegree + 1) < cacheEmpty →
      ∃ c, loadCacheList g file numPoints env nodeList = .ok c) ∧
    (∀ stored, stored <+: nodeList.insertionSort (· ≤ ·) → ∀ c,
      g.storeList file stored (env.initCache numPoints nodeList.length) = .ok c →
        c.useOffsetCacheMode = false → c.HasEmptySlot) ∧
    ∀ c, loadCacheList g file numPoints env nodeList = .ok c →
      c.LoadedFrom (g.onDisk file) nodeList ∧
      (c.useOffsetCacheMode = false → c.HasEmptySlot) ∧
      ∀ env' c', loadCacheList g file numPoints env' nodeList = .ok c' →
        (∀ id, c'.lookup id = c.lookup id) ∧ c'.cachePool = c.cachePool := by
  have hrun := loadCacheList_holds g file env hN hne hids
  refine ⟨fun e he => ?_, fun hroom => ?_, fun stored hstored c hc hmode => ?_,
    fun c hc => ⟨?_, fun hmode => ?_, fun env' c' hc' => ⟨fun id => ?_, ?_⟩⟩⟩
  · rcases hrun with ⟨herr, _⟩ | ⟨c, hc, _⟩
    · rw [herr] at he
      exact (Except.error.inj he).symm
    · rw [hc] at he
      cases he
  · rcases hrun with ⟨_, hfull⟩ | ⟨c, hc, _⟩
    · exfalso
      have hres := Nat.mul_le_mul_left nodeList.length
        (le_max_left g.reservePerNode (g.maxDegree + 1))
      have hdeg := Nat.mul_le_mul_left nodeList.length
        (le_max_right g.reservePerNode (g.maxDegree + 1))
      omega
    · exact ⟨c, hc⟩
  · have hlen := hstored.length_le
    rw [List.length_insertionSort] at hlen
    have hpos : nodeList.length ≠ 0 := List.length_eq_zero_iff.not.mpr hne
    rcases storeList_holds g file hN (env.initCache_holds numPoints hpos) stored
      (fun id hid => hids id ((List.mem_insertionSort _).mp (hstored.subset hid))) (by omega) with
      ⟨_, herr⟩ | ⟨c', hc', h⟩
    · rw [herr] at hc
      cases hc
    · obtain rfl := Except.ok.inj (hc.symm.trans hc')
      obtain ⟨hhash, hcap⟩ := h.hash hmode
      exact hhash.exists_empty (by omega)
  · obtain ⟨hcached, hslice, hlt⟩ := (holds_of_loadCacheList_eq hN hne hids hc).loadedFrom hN
    exact ⟨fun id => (hcached id).trans (List.mem_insertionSort _), hslice, hlt⟩
  · obtain ⟨hhash, hcap⟩ := (holds_of_loadCacheList_eq hN hne hids hc).hash hmode
    exact hhash.exists_empty (by omega)
  · rw [(holds_of_loadCacheList_eq hN hne hids hc).lookup_eq hN, (holds_of_loadCacheList_eq hN hne hids hc').lookup_eq hN]
  · rw [(holds_of_loadCacheList_eq hN hne hids hc).pool_eq, (holds_of_loadCacheList_eq hN hne hids hc').pool_eq]

/-- Three nodes in records of degree two. -/
def threeRecords : List UInt8 :=
  List.replicate 16 0 ++ [2, 0, 0, 0, 1, 0, 0, 0, 2, 0, 0, 0] ++
    [0, 0, 0, 0, 0, 0, 0, 0, 0, 0, 0, 0] ++ [1, 0, 0, 0, 0, 0, 0, 0, 0, 0, 0, 0]

/-- Two of three nodes, one of them twice, hashed in batches of two. -/
theorem three_records_agree :
    ∃ c, loadCacheList (FixedGraphSource.source ⟨2⟩) threeRecords 3 ⟨some "hash", some 2⟩ [2, 0, 2] =
        .ok c ∧
      c.neighbors 0 = some [1, 2] ∧ c.neighbors 2 = some [0] ∧ c.lookup 1 = none := by
  have hids : ∀ id ∈ [2, 0, 2], id < 3 := by decide
  obtain ⟨_, hok, _, hloaded⟩ := cache_agrees_with_disk (FixedGraphSource.source ⟨2⟩) threeRecords 3
    (by decide) ⟨some "hash", some 2⟩ [2, 0, 2] (by decide) hids
  obtain ⟨c, hc⟩ := hok (by decide)
  have hc' := (hloaded c hc).1
  refine ⟨c, hc, ?_, ?_, ?_⟩
  · rw [hc'.neighbors_eq (by decide)]
    decide
  · rw [hc'.neighbors_eq (by decide)]
    decide
  · have hnot := (hc'.cached 1).not.mpr (by decide)
    exact Option.not_isSome_iff_eq_none.mp hnot

end HiDANN.Search
