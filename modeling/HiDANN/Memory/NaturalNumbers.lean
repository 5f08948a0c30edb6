import Mathlib.Data.Finset.Card
import Mathlib.Data.List.GetD
import Mathlib.Data.List.Sort
import Mathlib.Logic.Function.Basic

/-! `natural_number_set` and `natural_number_map`: small numbers in a bitset, with the elements
in the order of their insertion or the values by key. A map counts its entries and enumerates
them in the order of the keys. -/

namespace HiDANN.Memory

/-! ### Sets -/

/-- `_values_vector` and `_values_bitset`. -/
structure NaturalNumberSet where
  values : List ℕ
  bits : List Bool

/-- `resize` of a bitset that is too short for `id`. -/
def cover (bits : List Bool) (id : ℕ) : List Bool :=
  if bits.length ≤ id then bits ++ List.replicate (id + 1 - bits.length) false else bits

namespace NaturalNumberSet

def empty : NaturalNumberSet := ⟨[], []⟩

def isEmpty (s : NaturalNumberSet) : Bool := s.values.isEmpty

def insert (s : NaturalNumberSet) (id : ℕ) : NaturalNumberSet :=
  ⟨s.values ++ [id], (cover s.bits id).set id true⟩

def popAny (s : NaturalNumberSet) : Except String (ℕ × NaturalNumberSet) :=
  match s.values.getLast? with
  | none => .error "No values available"
  | some id => .ok (id, ⟨s.values.dropLast, s.bits.set id false⟩)

/-- `clear`, which leaves the bitset without a bit. -/
def clear (_ : NaturalNumberSet) : NaturalNumberSet := empty

def size (s : NaturalNumberSet) : ℕ := s.values.length

/-- `is_in_set`; `none` when the bitset has no such bit. -/
def isInSet (s : NaturalNumberSet) (id : ℕ) : Option Bool := s.bits[id]?

/-- The bits are those of the values, each of which is there once. -/
structure Valid (s : NaturalNumberSet) : Prop where
  nodup : s.values.Nodup
  bit : ∀ id, s.bits[id]? = some true ↔ id ∈ s.values

end NaturalNumberSet

theorem length_cover (bits : List Bool) (id : ℕ) :
    (cover bits id).length = max bits.length (id + 1) := by
  rw [cover]
  split_ifs with h
  · rw [List.length_append, List.length_replicate]
    omega
  · omega

theorem getElem?_cover (bits : List Bool) (id k : ℕ) :
    (cover bits id)[k]? = some true ↔ bits[k]? = some true := by
  rw [cover]
  split_ifs with h
  · rw [List.getElem?_append]
    split_ifs with hk
    · rfl
    · rw [List.getElem?_replicate, List.getElem?_eq_none (not_lt.mp hk)]
      split_ifs <;> simp
  · rfl

theorem getElem?_set_true (bits : List Bool) {id : ℕ} (h : id < bits.length) (k : ℕ) :
    (bits.set id true)[k]? = some true ↔ k = id ∨ bits[k]? = some true := by
  rw [List.getElem?_set]
  split_ifs with hk
  · simp [hk]
  · exact (or_iff_right (Ne.symm hk)).symm

theorem getElem?_set_false (bits : List Bool) (id k : ℕ) :
    (bits.set id false)[k]? = some true ↔ k ≠ id ∧ bits[k]? = some true := by
  rw [List.getElem?_set]
  split_ifs with hk hlen
  · simp [hk]
  · simp [hk]
  · exact (and_iff_right (Ne.symm hk)).symm

theorem lt_of_bit {bits : List Bool} {k : ℕ} (h : bits[k]? = some true) : k < bits.length := by
  obtain ⟨hlt, -⟩ := List.getElem?_eq_some_iff.mp h
  exact hlt

namespace NaturalNumberSet

variable {s : NaturalNumberSet} {id : ℕ}

theorem Valid.empty : empty.Valid := ⟨List.nodup_nil, by simp [NaturalNumberSet.empty]⟩

theorem Valid.lt (h : s.Valid) (hid : id ∈ s.values) : id < s.bits.length :=
  lt_of_bit ((h.bit id).mpr hid)

theorem Valid.insert (h : s.Valid) (hid : id ∉ s.values) : (s.insert id).Valid where
  nodup := by
    rw [NaturalNumberSet.insert, ← List.concat_eq_append]
    exact h.nodup.concat hid
  bit k := by
    have hlen : id < (cover s.bits id).length := by
      rw [length_cover]
      omega
    simp only [NaturalNumberSet.insert]
    rw [getElem?_set_true _ hlen, getElem?_cover, h.bit, List.mem_append, List.mem_singleton,
      or_comm]

/-- The last one inserted is taken. -/
theorem Valid.popAny (h : s.Valid) {id : ℕ} {s' : NaturalNumberSet}
    (hpop : s.popAny = .ok (id, s')) :
    s'.Valid ∧ s.values = s'.values ++ [id] ∧ s'.bits.length = s.bits.length := by
  rw [NaturalNumberSet.popAny] at hpop
  rcases hlast : s.values.getLast? with _ | v
  · rw [hlast] at hpop
    cases hpop
  · rw [hlast] at hpop
    cases hpop
    have hval : s.values = s.values.dropLast ++ [id] :=
      (List.dropLast_append_getLast? id (Option.mem_def.mpr hlast)).symm
    have hnd := h.nodup
    rw [hval, List.nodup_append_comm, List.singleton_append] at hnd
    obtain ⟨hid, hnd⟩ := List.nodup_cons.mp hnd
    refine ⟨⟨hnd, fun k => ?_⟩, hval, List.length_set⟩
    rw [getElem?_set_false, h.bit]
    constructor
    · rintro ⟨hne, hk⟩
      rw [hval] at hk
      rcases List.mem_append.mp hk with hk | hk
      · exact hk
      · exact absurd (List.mem_singleton.mp hk) hne
    · intro hk
      refine ⟨?_, List.dropLast_subset _ hk⟩
      rintro rfl
      exact hid hk

theorem Valid.isInSet (h : s.Valid) (hid : id < s.bits.length) :
    s.isInSet id = some (decide (id ∈ s.values)) := by
  rw [NaturalNumberSet.isInSet]
  by_cases hmem : id ∈ s.values
  · rw [(h.bit id).mpr hmem, decide_eq_true hmem]
  · rw [decide_eq_false hmem, List.getElem?_eq_getElem hid]
    have hne := (h.bit id).not.mpr hmem
    rw [List.getElem?_eq_getElem hid] at hne
    cases hb : s.bits[id] with
    | true => exact absurd (congrArg some hb) hne
    | false => rfl

end NaturalNumberSet

/-! ### Maps -/

/-- `_size`, `_values_vector` and `_values_bitset`. -/
structure NaturalNumberMap (V : Type*) where
  size : ℕ
  values : List V
  bits : List Bool

/-- A position of an enumeration; `_key` is `none` after the end. -/
structure Position where
  key : Option ℕ
  keysAlreadyEnumerated : ℕ

/-- `find_first` of a bitset, from bit `k` on. -/
def findBit (bits : List Bool) (k : ℕ) : Option ℕ :=
  (List.range' k (bits.length - k)).find? fun i => bits[i]? = some true

namespace NaturalNumberMap

variable {V : Type*} [Inhabited V]

def empty : NaturalNumberMap V := ⟨0, [], []⟩

def set (m : NaturalNumberMap V) (key : ℕ) (value : V) : NaturalNumberMap V :=
  let bits := cover m.bits key
  let values := if m.bits.length ≤ key then
      m.values ++ List.replicate (bits.length - m.values.length) default
    else m.values
  let wasPresent := bits[key]? = some true
  ⟨if wasPresent then m.size else m.size + 1, values.set key value, bits.set key true⟩

def erase (m : NaturalNumberMap V) (key : ℕ) : NaturalNumberMap V :=
  if key < m.bits.length then
    { m with
      size := if m.bits[key]? = some true then m.size - 1 else m.size
      bits := m.bits.set key false }
  else m

def contains (m : NaturalNumberMap V) (key : ℕ) : Bool := m.bits[key]? = some true

def tryGet (m : NaturalNumberMap V) (key : ℕ) : Option V :=
  if m.contains key then m.values[key]? else none

def findFirst (m : NaturalNumberMap V) : Position :=
  ⟨if 0 < m.size then findBit m.bits 0 else none, 0⟩

def findNext (m : NaturalNumberMap V) (after key : ℕ) : Position :=
  ⟨if after < m.size then findBit m.bits (key + 1) else none, after + 1⟩

def clear (_ : NaturalNumberMap V) : NaturalNumberMap V := empty

def enumerateFrom (m : NaturalNumberMap V) : ℕ → Position → List (ℕ × V)
  | 0, _ => []
  | fuel + 1, pos =>
    match pos.key with
    | none => []
    | some key => (key, m.values.getD key default) ::
        enumerateFrom m fuel (m.findNext pos.keysAlreadyEnumerated key)

/-- `for (auto pos = find_first(); pos.is_valid(); pos = find_next(pos))`. -/
def enumerate (m : NaturalNumberMap V) : List (ℕ × V) :=
  m.enumerateFrom (m.bits.length + 1) m.findFirst

/-- The keys from `k` on, in order. -/
def keysFrom (m : NaturalNumberMap V) (k : ℕ) : List ℕ :=
  (List.range' k (m.bits.length - k)).filter fun i => m.bits[i]? = some true

/-- Every bit has a value, and the entries have been counted. -/
structure Valid (m : NaturalNumberMap V) : Prop where
  length_eq : m.values.length = m.bits.length
  size_eq : m.size = (m.keysFrom 0).length

variable {m : NaturalNumberMap V} {k key : ℕ} {value : V}

omit [Inhabited V] in
theorem contains_iff : m.contains k ↔ m.bits[k]? = some true := decide_eq_true_iff

omit [Inhabited V] in
theorem mem_keysFrom : key ∈ m.keysFrom k ↔ k ≤ key ∧ m.contains key := by
  rw [keysFrom, List.mem_filter, List.mem_range'_1, contains_iff, decide_eq_true_eq]
  constructor
  · rintro ⟨⟨hk, -⟩, hbit⟩
    exact ⟨hk, hbit⟩
  · rintro ⟨hk, hbit⟩
    have := lt_of_bit hbit
    exact ⟨⟨hk, by omega⟩, hbit⟩

omit [Inhabited V] in
theorem keysFrom_sorted (m : NaturalNumberMap V) (k : ℕ) : (m.keysFrom k).Pairwise (· < ·) :=
  (List.pairwise_lt_range' 1).filter _

omit [Inhabited V] in
theorem findBit_eq (m : NaturalNumberMap V) (k : ℕ) : findBit m.bits k = (m.keysFrom k).head? := by
  rw [findBit, keysFrom, List.head?_filter]

omit [Inhabited V] in
theorem keysFrom_cons {rest : List ℕ} (h : m.keysFrom k = key :: rest) :
    rest = m.keysFrom (key + 1) := by
  have hsorted := m.keysFrom_sorted k
  rw [h] at hsorted
  obtain ⟨hlt, hrest⟩ := List.pairwise_cons.mp hsorted
  have hkey : k ≤ key := (mem_keysFrom.mp (h ▸ List.mem_cons_self)).1
  refine hrest.eq_of_mem_iff (m.keysFrom_sorted _) fun v => ?_
  have hmem : v ∈ m.keysFrom k ↔ v = key ∨ v ∈ rest := by rw [h, List.mem_cons]
  rw [mem_keysFrom] at hmem ⊢
  constructor
  · intro hv
    exact ⟨hlt v hv, (hmem.mpr (.inr hv)).2⟩
  · rintro ⟨hv, hin⟩
    exact (hmem.mp ⟨by omega, hin⟩).resolve_left (by omega)

/-- From the first key that is left, an enumeration goes through all of them. -/
theorem enumerateFrom_eq {fuel e : ℕ} (hfuel : (m.keysFrom k).length < fuel)
    (hsize : e + (m.keysFrom k).length = m.size) :
    m.enumerateFrom fuel ⟨(m.keysFrom k).head?, e⟩ =
      (m.keysFrom k).map fun key => (key, m.values.getD key default) := by
  induction fuel generalizing k e with
  | zero => exact absurd hfuel (Nat.not_lt_zero _)
  | succ fuel ih =>
    rw [enumerateFrom]
    cases hkeys : m.keysFrom k with
    | nil => rfl
    | cons key rest =>
      have hrest := keysFrom_cons hkeys
      rw [hkeys, List.length_cons] at hfuel hsize
      dsimp only [List.head?_cons]
      rw [findNext, if_pos (by omega), findBit_eq, ih (hrest ▸ by omega) (hrest ▸ by omega),
        ← hrest, List.map_cons]

theorem Valid.enumerate_eq (h : m.Valid) :
    m.enumerate = (m.keysFrom 0).map fun key => (key, m.values.getD key default) := by
  have hle : (m.keysFrom 0).length ≤ m.bits.length := by
    refine (List.length_filter_le _ _).trans ?_
    rw [List.length_range']
    omega
  rw [enumerate, findFirst]
  by_cases hpos : 0 < m.size
  · rw [if_pos hpos, findBit_eq]
    exact enumerateFrom_eq (by omega) (by rw [h.size_eq, Nat.zero_add])
  · have hnil : m.keysFrom 0 = [] := List.length_eq_zero_iff.mp (by
      have := h.size_eq
      omega)
    rw [if_neg hpos, hnil]
    rfl

/-! ### What the operations do -/

omit [Inhabited V] in
theorem Valid.empty : (empty : NaturalNumberMap V).Valid := ⟨rfl, rfl⟩

omit [Inhabited V] in
theorem length_keysFrom_zero (m : NaturalNumberMap V) {keys : Finset ℕ}
    (h : ∀ k, k ∈ keys ↔ m.contains k) : (m.keysFrom 0).length = keys.card := by
  have hnd : (m.keysFrom 0).Nodup := (m.keysFrom_sorted 0).imp fun hlt => ne_of_lt hlt
  rw [← List.toFinset_card_of_nodup hnd]
  congr 1
  ext k
  rw [List.mem_toFinset, mem_keysFrom, h, and_iff_right (Nat.zero_le k)]

theorem contains_set (m : NaturalNumberMap V) (key : ℕ) (value : V) (k : ℕ) :
    (m.set key value).contains k ↔ k = key ∨ m.contains k := by
  have hlen : key < (cover m.bits key).length := by
    rw [length_cover]
    omega
  rw [contains_iff, contains_iff, set, getElem?_set_true _ hlen, getElem?_cover]

omit [Inhabited V] in
theorem contains_erase (m : NaturalNumberMap V) (key k : ℕ) :
    (m.erase key).contains k ↔ k ≠ key ∧ m.contains k := by
  rw [contains_iff, contains_iff, erase]
  by_cases h : key < m.bits.length
  · rw [if_pos h]
    exact getElem?_set_false _ _ _
  · rw [if_neg h]
    refine (and_iff_right_of_imp fun hk => ?_).symm
    rintro rfl
    exact h (lt_of_bit hk)

theorem Valid.set (h : m.Valid) (key : ℕ) (value : V) : (m.set key value).Valid := by
  have hcard : (m.keysFrom 0).length = (m.keysFrom 0).toFinset.card := by
    refine m.length_keysFrom_zero fun k => ?_
    rw [List.mem_toFinset, mem_keysFrom, and_iff_right (Nat.zero_le k)]
  have hcard' : ((m.set key value).keysFrom 0).length =
      (insert key (m.keysFrom 0).toFinset).card := by
    refine length_keysFrom_zero _ fun k => ?_
    rw [contains_set, Finset.mem_insert, List.mem_toFinset, mem_keysFrom,
      and_iff_right (Nat.zero_le k)]
  constructor
  · have hle := h.length_eq
    simp only [NaturalNumberMap.set, List.length_set]
    split_ifs with hshort
    · rw [List.length_append, List.length_replicate, length_cover]
      omega
    · rw [length_cover]
      omega
  · rw [hcard', Finset.card_insert_eq_ite, ← hcard, ← h.size_eq]
    simp only [NaturalNumberMap.set, getElem?_cover, List.mem_toFinset, mem_keysFrom, contains_iff,
      Nat.zero_le, true_and]

omit [Inhabited V] in
theorem Valid.erase (h : m.Valid) (key : ℕ) : (m.erase key).Valid := by
  have hcard : (m.keysFrom 0).length = (m.keysFrom 0).toFinset.card := by
    refine m.length_keysFrom_zero fun k => ?_
    rw [List.mem_toFinset, mem_keysFrom, and_iff_right (Nat.zero_le k)]
  have hcard' : ((m.erase key).keysFrom 0).length = ((m.keysFrom 0).toFinset.erase key).card := by
    refine length_keysFrom_zero _ fun k => ?_
    rw [contains_erase, Finset.mem_erase, List.mem_toFinset, mem_keysFrom,
      and_iff_right (Nat.zero_le k)]
  constructor
  · rw [NaturalNumberMap.erase]
    by_cases hlt : key < m.bits.length
    · rw [if_pos hlt]
      exact h.length_eq.trans List.length_set.symm
    · rw [if_neg hlt]
      exact h.length_eq
  · have hmem : key ∈ (m.keysFrom 0).toFinset ↔ m.bits[key]? = some true := by
      rw [List.mem_toFinset, mem_keysFrom, and_iff_right (Nat.zero_le key), contains_iff]
    rw [hcard', Finset.card_erase_eq_ite, ← hcard, ← h.size_eq, NaturalNumberMap.erase]
    by_cases hlt : key < m.bits.length
    · rw [if_pos hlt]
      exact (if_congr hmem rfl rfl).symm
    · rw [if_neg hlt, if_neg fun hin => hlt (lt_of_bit (hmem.mp hin))]

theorem tryGet_set (h : m.Valid) (key : ℕ) (value : V) :
    (m.set key value).tryGet = Function.update m.tryGet key (some value) := by
  have hlen : key < (m.set key value).values.length := by
    rw [(h.set key value).length_eq]
    exact lt_of_bit (contains_iff.mp ((contains_set m key value key).mpr (.inl rfl)))
  funext k
  rcases eq_or_ne k key with rfl | hk
  · rw [Function.update_self, tryGet, if_pos ((contains_set m k value k).mpr (.inl rfl))]
    simp only [set, List.length_set] at hlen ⊢
    exact List.getElem?_set_self hlen
  · rw [Function.update_of_ne hk, tryGet, tryGet]
    by_cases hin : m.contains k
    · rw [if_pos hin, if_pos ((contains_set m key value k).mpr (.inr hin))]
      have hlt : k < m.values.length := h.length_eq ▸ lt_of_bit (contains_iff.mp hin)
      simp only [set]
      rw [List.getElem?_set_ne (Ne.symm hk)]
      split_ifs
      · exact List.getElem?_append_left hlt
      · rfl
    · rw [if_neg hin, if_neg fun hc => ((contains_set m key value k).mp hc).elim hk hin]

omit [Inhabited V] in
theorem tryGet_erase (m : NaturalNumberMap V) (key : ℕ) :
    (m.erase key).tryGet = Function.update m.tryGet key none := by
  have hvalues : (m.erase key).values = m.values := by
    rw [erase]
    split_ifs <;> rfl
  funext k
  rw [tryGet, hvalues]
  rcases eq_or_ne k key with rfl | hk
  · rw [Function.update_self, if_neg fun hc => ((contains_erase m k k).mp hc).1 rfl]
  · rw [Function.update_of_ne hk, tryGet]
    exact if_congr ((contains_erase m key k).trans (and_iff_right hk)) rfl rfl

/-- Entries are what is found. -/
theorem Valid.mem_enumerate (h : m.Valid) : (key, value) ∈ m.enumerate ↔
    m.tryGet key = some value := by
  rw [h.enumerate_eq, List.mem_map, tryGet]
  constructor
  · rintro ⟨k, hk, he⟩
    obtain ⟨rfl, rfl⟩ := Prod.mk.inj he
    have hin := (mem_keysFrom.mp hk).2
    have hlt : k < m.values.length := h.length_eq ▸ lt_of_bit (contains_iff.mp hin)
    rw [if_pos hin, List.getElem?_eq_getElem hlt, List.getD_eq_getElem _ _ hlt]
  · intro hget
    split_ifs at hget with hin
    refine ⟨key, mem_keysFrom.mpr ⟨Nat.zero_le _, hin⟩, ?_⟩
    rw [List.getD_eq_getElem?_getD, hget]
    rfl

/-! ### Runs -/

/-- A call that changes a map. -/
inductive Call (V : Type*) where
  | set (key : ℕ) (value : V)
  | erase (key : ℕ)
  | clear

def Call.run (m : NaturalNumberMap V) : Call V → NaturalNumberMap V
  | .set key value => m.set key value
  | .erase key => m.erase key
  | .clear => m.clear

/-- What the call does to a partial function. -/
def Call.apply (f : ℕ → Option V) : Call V → ℕ → Option V
  | .set key value => Function.update f key (some value)
  | .erase key => Function.update f key none
  | .clear => fun _ => none

theorem Call.run_spec (h : m.Valid) (c : Call V) :
    (c.run m).Valid ∧ (c.run m).tryGet = c.apply m.tryGet := by
  cases c with
  | set key value => exact ⟨h.set key value, tryGet_set h key value⟩
  | erase key => exact ⟨h.erase key, tryGet_erase m key⟩
  | clear => exact ⟨Valid.empty, rfl⟩

end NaturalNumberMap

end HiDANN.Memory
