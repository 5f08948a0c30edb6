import HiDANN.Library.Probing
import HiDANN.Search.Cache

/-! The compact hash table of the neighbour cache. Its two vectors are an open-addressing
table whose empty slots are the reserved marker, and `insert_cache_lookup` and
`find_cache_lookup` walk it as such a table is walked. -/

namespace HiDANN.Search

open Probing

namespace Cache

def initCompactCacheHash (c : Cache) (numEntries : ℕ) : Cache :=
  if numEntries = 0 then c
  else
    let capacity := (numEntries * 4 + 2) / 3 + 1
    { c with
      cacheHashKeys := List.replicate capacity cacheEmpty
      cacheHashOffsets := List.replicate capacity cacheEmpty }

def writeSlot (c : Cache) (pos id poolOffset : ℕ) : Cache :=
  { c with
    cacheHashKeys := c.cacheHashKeys.set pos id
    cacheHashOffsets := c.cacheHashOffsets.set pos poolOffset }

/-- The probes of `insert_cache_lookup` that are left, from a slot on. -/
def insertProbe (c : Cache) (id poolOffset : ℕ) : ℕ → ℕ → Except String Cache
  | 0, _ => .error "compact cache hash table is full"
  | probes + 1, pos =>
    let key := c.cacheHashKeys.getD pos cacheEmpty
    if key = cacheEmpty ∨ key = id then .ok (c.writeSlot pos id poolOffset)
    else insertProbe c id poolOffset probes (if pos + 1 = c.cacheHashKeys.length then 0 else pos + 1)

def insertCacheLookup (c : Cache) (id poolOffset : ℕ) : Except String Cache :=
  if c.cacheHashKeys = [] then .error "compact cache hash table is not initialized"
  else if id = cacheEmpty then .error "node id collides with compact cache sentinel"
  else c.insertProbe id poolOffset c.cacheHashKeys.length
    (compactCacheHash id % c.cacheHashKeys.length)

/-! ### The table -/

def table (c : Cache) : Table ℕ ℕ where
  cap := c.cacheHashKeys.length
  slot pos :=
    if c.cacheHashKeys.getD pos cacheEmpty = cacheEmpty then none
    else some (c.cacheHashKeys.getD pos cacheEmpty)
  val pos := c.cacheHashOffsets.getD pos cacheEmpty

/-- The slot a key hashes to. -/
def homeSlot (c : Cache) (id : ℕ) : ℕ := compactCacheHash id % c.cacheHashKeys.length

variable {c : Cache} {id poolOffset pos n : ℕ}

theorem slot_eq_none : c.table.slot pos = none ↔
    c.cacheHashKeys.getD pos cacheEmpty = cacheEmpty := by
  simp only [table]
  split_ifs with h
  · exact ⟨fun _ => h, fun _ => rfl⟩
  · exact ⟨(fun he => nomatch he), fun he => absurd he h⟩

theorem slot_eq_some (hid : id ≠ cacheEmpty) : c.table.slot pos = some id ↔
    c.cacheHashKeys.getD pos cacheEmpty = id := by
  simp only [table]
  split_ifs with h
  · exact ⟨(fun he => nomatch he), fun he => absurd (he.symm.trans h) hid⟩
  · exact Option.some_inj

theorem stops_iff (hid : id ≠ cacheEmpty) : c.table.Stops id pos ↔
    c.cacheHashKeys.getD pos cacheEmpty = cacheEmpty ∨
      c.cacheHashKeys.getD pos cacheEmpty = id := by
  rw [Table.Stops, slot_eq_none, slot_eq_some hid]

theorem insertProbe_eq (hid : id ≠ cacheEmpty) : c.insertProbe id poolOffset n pos =
    match c.table.find id n pos with
    | none => .error "compact cache hash table is full"
    | some q => .ok (c.writeSlot q id poolOffset) := by
  induction n generalizing pos with
  | zero => rfl
  | succ n ih =>
    rw [insertProbe, Table.find]
    simp only [stops_iff hid]
    by_cases hs : c.cacheHashKeys.getD pos cacheEmpty = cacheEmpty ∨
        c.cacheHashKeys.getD pos cacheEmpty = id
    · rw [if_pos hs, if_pos hs]
    · rw [if_neg hs, if_neg hs]
      exact ih

theorem probe_eq (hid : id ≠ cacheEmpty) : c.probe id n pos =
    match c.table.find id n pos with
    | none => none
    | some q => if c.table.slot q = none ∨ c.table.val q = cacheEmpty then none
      else some (c.table.val q) := by
  induction n generalizing pos with
  | zero => rfl
  | succ n ih =>
    rw [probe, Table.find]
    simp only [stops_iff hid]
    by_cases he : c.cacheHashKeys.getD pos cacheEmpty = cacheEmpty
    · rw [if_pos he, if_pos (Or.inl he)]
      exact (if_pos (Or.inl (slot_eq_none.mpr he))).symm
    · by_cases hk : c.cacheHashKeys.getD pos cacheEmpty = id
      · have hslot : c.table.slot pos ≠ none := fun h => he (slot_eq_none.mp h)
        rw [if_neg he, if_pos hk, if_pos (Or.inr hk)]
        simp only [hslot, false_or]
        rfl
      · rw [if_neg he, if_neg hk, if_neg (not_or.mpr ⟨he, hk⟩)]
        exact ih

theorem probe_cacheEmpty : c.probe cacheEmpty n pos = none := by
  induction n generalizing pos with
  | zero => rfl
  | succ n ih =>
    rw [probe]
    by_cases h : c.cacheHashKeys.getD pos cacheEmpty = cacheEmpty
    · exact if_pos h
    · rw [if_neg h, if_neg h]
      exact ih

theorem table_writeSlot (hid : id ≠ cacheEmpty) (hpos : pos < c.cacheHashKeys.length)
    (hlen : c.cacheHashOffsets.length = c.cacheHashKeys.length) :
    (c.writeSlot pos id poolOffset).table = c.table.set pos id poolOffset := by
  have hkeys : ∀ q, (c.cacheHashKeys.set pos id).getD q cacheEmpty =
      if q = pos then id else c.cacheHashKeys.getD q cacheEmpty := by
    intro q
    by_cases he : q = pos
    · subst he
      simp [hpos]
    · simp [he, List.getElem?_set_ne (Ne.symm he)]
  have hoffs : ∀ q, (c.cacheHashOffsets.set pos poolOffset).getD q cacheEmpty =
      if q = pos then poolOffset else c.cacheHashOffsets.getD q cacheEmpty := by
    intro q
    by_cases he : q = pos
    · subst he
      simp [hlen ▸ hpos]
    · simp [he, List.getElem?_set_ne (Ne.symm he)]
  unfold table writeSlot Table.set
  congr 1
  · exact List.length_set
  · funext q
    rw [hkeys]
    by_cases he : q = pos
    · subst he
      simp [hid]
    · simp [he]
  · funext q
    rw [hoffs]
    by_cases he : q = pos
    · subst he
      simp
    · simp [he]

/-! ### The map -/

/-- The hash table of a cache holds the map `m`. -/
structure HashHolds (c : Cache) (m : ℕ → Option ℕ) (n : ℕ) : Prop where
  length_eq : c.cacheHashOffsets.length = c.cacheHashKeys.length
  represents : Represents c.table c.homeSlot m n

variable {m : ℕ → Option ℕ}

theorem HashHolds.keys_ne_nil (h : c.HashHolds m n) : c.cacheHashKeys ≠ [] := by
  intro he
  have hlt : c.homeSlot 0 < c.cacheHashKeys.length := h.represents.hash_lt 0
  rw [he] at hlt
  cases hlt

theorem hashHolds_init (c : Cache) {numEntries : ℕ} (hn : numEntries ≠ 0) :
    (c.initCompactCacheHash numEntries).HashHolds (fun _ => none) 0 := by
  rw [initCompactCacheHash, if_neg hn]
  refine ⟨by simp, ?_⟩
  have htable : ∀ keys : List ℕ, keys = List.replicate ((numEntries * 4 + 2) / 3 + 1) cacheEmpty →
      (fun pos => if keys.getD pos cacheEmpty = cacheEmpty then none
        else some (keys.getD pos cacheEmpty)) = fun _ => none := by
    rintro keys rfl
    funext pos
    apply if_pos
    rw [List.getD_eq_getElem?_getD, List.getElem?_replicate]
    split_ifs
    · rfl
    · rfl
  unfold table
  dsimp only
  rw [htable _ rfl]
  apply represents_empty
  intro k
  apply Nat.mod_lt
  simp

theorem HashHolds.insert (h : c.HashHolds m n) (hid : id ≠ cacheEmpty)
    (hn : n < c.cacheHashKeys.length) (poolOffset : ℕ) : ∃ q < c.cacheHashKeys.length,
      c.insertCacheLookup id poolOffset = .ok (c.writeSlot q id poolOffset) ∧
      (c.writeSlot q id poolOffset).HashHolds (Function.update m id (some poolOffset)) (n + 1) := by
  obtain ⟨q, hq⟩ := Option.isSome_iff_exists.mp (h.represents.find_isSome hn id)
  have hlt : q < c.cacheHashKeys.length := Table.find_lt hq (h.represents.hash_lt id)
  refine ⟨q, hlt, ?_, ?_, ?_⟩
  · have hq' : c.table.find id c.cacheHashKeys.length
        (compactCacheHash id % c.cacheHashKeys.length) = some q := hq
    rw [insertCacheLookup, if_neg h.keys_ne_nil, if_neg hid, insertProbe_eq hid, hq']
  · simpa [writeSlot] using h.length_eq
  · have hhome : (c.writeSlot q id poolOffset).homeSlot = c.homeSlot := by
      funext k
      simp [homeSlot, writeSlot]
    rw [table_writeSlot hid hlt h.length_eq, hhome]
    exact h.represents.set hq hn poolOffset

theorem HashHolds.findCacheLookup (h : c.HashHolds m n)
    (hm : ∀ id poolOffset, m id = some poolOffset → id ≠ cacheEmpty ∧ poolOffset ≠ cacheEmpty) :
    c.findCacheLookup id = m id := by
  rw [Cache.findCacheLookup, if_neg h.keys_ne_nil]
  by_cases hid : id = cacheEmpty
  · rw [hid, probe_cacheEmpty]
    cases he : m cacheEmpty with
    | none => rfl
    | some poolOffset => exact absurd rfl (hm _ _ he).1
  · have hget := h.represents.get_eq id
    have hfind : c.table.find id c.cacheHashKeys.length
        (compactCacheHash id % c.cacheHashKeys.length) =
          c.table.find id c.table.cap (c.homeSlot id) := rfl
    rw [probe_eq hid, hfind]
    rw [Table.get] at hget
    cases hq : c.table.find id c.table.cap (c.homeSlot id) with
    | none =>
      rw [hq] at hget
      exact hget
    | some q =>
      rw [hq] at hget
      dsimp only at hget ⊢
      split_ifs at hget with hslot
      · rw [if_pos (.inl hslot)]
        exact hget
      · have hval := (hm id _ hget.symm).2
        rw [if_neg (not_or.mpr ⟨hslot, hval⟩)]
        exact hget

theorem HashHolds.exists_empty (h : c.HashHolds m n) (hn : n < c.cacheHashKeys.length) :
    ∃ pos < c.cacheHashKeys.length, c.cacheHashKeys[pos]? = some cacheEmpty := by
  obtain ⟨pos, hpos, he⟩ := h.represents.exists_empty hn
  have hlt : pos < c.cacheHashKeys.length := hpos
  refine ⟨pos, hlt, ?_⟩
  have hget := slot_eq_none.mp he
  rw [List.getD_eq_getElem _ _ hlt] at hget
  rw [List.getElem?_eq_getElem hlt, hget]

end Cache

end HiDANN.Search
