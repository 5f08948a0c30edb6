import Mathlib.Data.List.Basic
import Mathlib.Data.Nat.Bitwise

/-! The neighbour cache of the disk search: a flat pool of lists, each with its
count in front, and the place of a node's list in it. The place is found in an
offset vector, or by linear probing in a hash table. -/

namespace HiDANN.Search

def cacheEmpty : ℕ := 0xFFFFFFFF

/-- `compact_cache_hash`, on 64 bits. -/
def compactCacheHash (id : ℕ) : ℕ :=
  let x := id ^^^ id >>> 16
  let x := x * 0x9E3779B97F4A7C15 % 2 ^ 64
  x ^^^ x >>> 32

structure Cache where
  useOffsetCacheMode : Bool
  cacheOffsets : List ℕ
  cacheHashKeys : List ℕ
  cacheHashOffsets : List ℕ
  cachePool : List ℕ

namespace Cache

variable (c : Cache)

def empty : Cache := ⟨false, [], [], [], []⟩

/-- The probes of `find_cache_lookup` that are left, from a slot on. -/
def probe (id : ℕ) : ℕ → ℕ → Option ℕ
  | 0, _ => none
  | probes + 1, pos =>
    let key := c.cacheHashKeys.getD pos cacheEmpty
    if key = cacheEmpty then none
    else if key = id then
      let poolOffset := c.cacheHashOffsets.getD pos cacheEmpty
      if poolOffset = cacheEmpty then none else some poolOffset
    else probe id probes (if pos + 1 = c.cacheHashKeys.length then 0 else pos + 1)

def findCacheLookup (id : ℕ) : Option ℕ :=
  if c.cacheHashKeys = [] then none
  else c.probe id c.cacheHashKeys.length (compactCacheHash id % c.cacheHashKeys.length)

/-- The place of a node's list in the pool, in either mode. -/
def lookup (id : ℕ) : Option ℕ :=
  if c.useOffsetCacheMode then
    match c.cacheOffsets[id]? with
    | none => none
    | some poolOffset => if poolOffset = cacheEmpty then none else some poolOffset
  else c.findCacheLookup id

def decode (poolOffset : ℕ) : List ℕ :=
  (c.cachePool.drop (poolOffset + 1)).take (c.cachePool.getD poolOffset 0)

def neighbors (id : ℕ) : Option (List ℕ) := (c.lookup id).map c.decode

def Agrees (disk : ℕ → List ℕ) : Prop := ∀ id nbrs, c.neighbors id = some nbrs → nbrs = disk id

theorem empty_agrees (disk : ℕ → List ℕ) : empty.Agrees disk := by
  intro id nbrs h
  cases h

end Cache

end HiDANN.Search
