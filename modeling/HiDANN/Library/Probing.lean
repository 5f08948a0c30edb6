import Mathlib.Algebra.Order.Ring.Nat
import Mathlib.Data.Finset.Card
import Mathlib.Data.Finset.Range
import Mathlib.Logic.Function.Basic
import Mathlib.Logic.Function.Iterate

/-! Open addressing with linear probing. A key goes to the first slot from its hash on,
cyclically, that is empty or holds it already, and is looked up along the same way. As
long as a slot is empty every probe sequence stops, and the table is a map. Keys are
never removed. -/

namespace HiDANN.Probing

variable {κ ν : Type*}

structure Table (κ ν : Type*) where
  cap : ℕ
  slot : ℕ → Option κ
  val : ℕ → ν

def next (cap pos : ℕ) : ℕ := if pos + 1 = cap then 0 else pos + 1

namespace Table

variable (t : Table κ ν) (hash : κ → ℕ)

/-- A slot at which the probes for a key stop. -/
def Stops (k : κ) (pos : ℕ) : Prop := t.slot pos = none ∨ t.slot pos = some k

def set (pos : ℕ) (k : κ) (v : ν) : Table κ ν :=
  { t with slot := Function.update t.slot pos (some k), val := Function.update t.val pos v }

@[simp] theorem cap_set (pos : ℕ) (k : κ) (v : ν) : (t.set pos k v).cap = t.cap := rfl

@[simp] theorem slot_set_self (pos : ℕ) (k : κ) (v : ν) : (t.set pos k v).slot pos = some k :=
  Function.update_self ..

@[simp] theorem val_set_self (pos : ℕ) (k : κ) (v : ν) : (t.set pos k v).val pos = v :=
  Function.update_self ..

theorem slot_set_of_ne {pos q : ℕ} (h : q ≠ pos) (k : κ) (v : ν) :
    (t.set pos k v).slot q = t.slot q :=
  Function.update_of_ne h ..

theorem val_set_of_ne {pos q : ℕ} (h : q ≠ pos) (k : κ) (v : ν) :
    (t.set pos k v).val q = t.val q :=
  Function.update_of_ne h ..

variable [DecidableEq κ]

instance (k : κ) (pos : ℕ) : Decidable (t.Stops k pos) := inferInstanceAs (Decidable (_ ∨ _))

/-- The slot at which the probes stop, if they do. -/
def find (k : κ) : ℕ → ℕ → Option ℕ
  | 0, _ => none
  | probes + 1, pos => if t.Stops k pos then some pos else find k probes (next t.cap pos)

def get (k : κ) : Option ν :=
  match t.find k t.cap (hash k) with
  | none => none
  | some pos => if t.slot pos = none then none else some (t.val pos)

def occupied : Finset ℕ := {pos ∈ Finset.range t.cap | t.slot pos ≠ none}

/-! ### Probes -/

variable {t hash} {k k' : κ} {v : ν} {pos q n : ℕ}

omit [DecidableEq κ] in
theorem next_lt (h : pos < t.cap) : next t.cap pos < t.cap := by
  unfold next
  split_ifs with he
  · omega
  · omega

theorem find_stops (h : t.find k n pos = some q) : t.Stops k q := by
  induction n generalizing pos with
  | zero => cases h
  | succ n ih =>
    rw [find] at h
    split_ifs at h with hs
    · rwa [← Option.some.inj h]
    · exact ih h

theorem find_lt (h : t.find k n pos = some q) (hpos : pos < t.cap) : q < t.cap := by
  induction n generalizing pos with
  | zero => cases h
  | succ n ih =>
    rw [find] at h
    split_ifs at h
    · rwa [← Option.some.inj h]
    · exact ih h (next_lt hpos)

omit [DecidableEq κ] in
theorem iterate_next (hpos : pos < t.cap) (i : ℕ) : (next t.cap)^[i] pos = (pos + i) % t.cap := by
  induction i with
  | zero => exact (Nat.mod_eq_of_lt hpos).symm
  | succ i ih =>
    have hcap : 0 < t.cap := by omega
    have hlt := Nat.mod_lt (pos + i) hcap
    rw [Function.iterate_succ_apply', ih, next, ← Nat.add_assoc, ← Nat.mod_add_mod (pos + i)]
    split_ifs with he
    · rw [he, Nat.mod_self]
    · exact (Nat.mod_eq_of_lt (by omega)).symm

omit [DecidableEq κ] in
theorem exists_iterate (hpos : pos < t.cap) (hq : q < t.cap) :
    ∃ i < t.cap, (next t.cap)^[i] pos = q := by
  have hcap : 0 < t.cap := by omega
  refine ⟨(q + (t.cap - pos)) % t.cap, Nat.mod_lt _ hcap, ?_⟩
  rw [iterate_next hpos, Nat.add_mod_mod, show pos + (q + (t.cap - pos)) = q + t.cap by omega,
    Nat.add_mod_right, Nat.mod_eq_of_lt hq]

theorem find_isSome (h : ∃ i < n, t.Stops k ((next t.cap)^[i] pos)) : (t.find k n pos).isSome := by
  obtain ⟨i, hi, hs⟩ := h
  induction n generalizing i pos with
  | zero => cases hi
  | succ n ih =>
    rw [find]
    split_ifs with hnow
    · rfl
    · cases i with
      | zero => exact absurd hs hnow
      | succ i =>
        rw [Function.iterate_succ_apply] at hs
        exact ih i (by omega) hs

theorem find_isSome_of_empty (hpos : pos < t.cap) (h : ∃ p < t.cap, t.slot p = none) :
    (t.find k t.cap pos).isSome := by
  obtain ⟨p, hp, he⟩ := h
  obtain ⟨i, hi, rfl⟩ := exists_iterate hpos hp
  exact find_isSome ⟨i, hi, .inl he⟩

/-- The key that has been put is found where it was put. -/
theorem find_set_self (h : t.find k n pos = some q) :
    (t.set q k v).find k n pos = some q := by
  have hq := find_stops h
  induction n generalizing pos with
  | zero => cases h
  | succ n ih =>
    rw [find] at h ⊢
    by_cases he : pos = q
    · subst he
      exact if_pos (.inr (t.slot_set_self pos k v))
    · have hslot : (t.set q k v).slot pos = t.slot pos := t.slot_set_of_ne he k v
      split_ifs at h with hs
      · exact absurd (Option.some.inj h) he
      · have hs' : ¬ (t.set q k v).Stops k pos := by
          rwa [Stops, hslot]
        rw [if_neg hs']
        exact ih h

omit [DecidableEq κ] in
/-- Another key is not where the probes for a key stop. -/
theorem ne_of_stops {p : ℕ} (hp : t.Stops k' p) (hk : t.slot q = some k) (hne : k ≠ k') :
    q ≠ p := by
  rintro rfl
  rcases hp with hp | hp
  · rw [hk] at hp
    cases hp
  · rw [hk] at hp
    exact hne (Option.some.inj hp)

omit [DecidableEq κ] in
theorem ne_of_slot_set {p : ℕ} (hk : (t.set p k' v).slot q = some k) (hne : k ≠ k') : q ≠ p := by
  rintro rfl
  rw [slot_set_self] at hk
  exact hne (Option.some.inj hk).symm

omit [DecidableEq κ] in
theorem card_occupied_set_le (t : Table κ ν) (p : ℕ) (k : κ) (v : ν) :
    (t.set p k v).occupied.card ≤ t.occupied.card + 1 := by
  have hsub : (t.set p k v).occupied ⊆ insert p t.occupied := by
    intro q hq
    obtain ⟨hlt, hsome⟩ := Finset.mem_filter.mp hq
    by_cases he : q = p
    · exact he ▸ Finset.mem_insert_self _ _
    · rw [t.slot_set_of_ne he] at hsome
      exact Finset.mem_insert_of_mem (Finset.mem_filter.mpr ⟨hlt, hsome⟩)
  exact (Finset.card_le_card hsub).trans (Finset.card_insert_le p t.occupied)

/-- The keys that were found are still found where they were. -/
theorem find_set_of_ne {p : ℕ} (h : t.find k n pos = some q) (hk : t.slot q = some k)
    (hp : t.Stops k' p) (hne : k ≠ k') : (t.set p k' v).find k n pos = some q := by
  induction n generalizing pos with
  | zero => cases h
  | succ n ih =>
    rw [find] at h ⊢
    by_cases he : pos = p
    · subst he
      have hnot : ¬ t.Stops k pos := by
        intro hs
        rw [if_pos hs] at h
        exact ne_of_stops hp hk hne (Option.some.inj h).symm
      have hnot' : ¬ (t.set pos k' v).Stops k pos := by
        rw [Stops, slot_set_self]
        rintro (h | h)
        · cases h
        · exact hne (Option.some.inj h).symm
      rw [if_neg hnot] at h
      rw [if_neg hnot']
      exact ih h
    · have hslot : (t.set p k' v).slot pos = t.slot pos := t.slot_set_of_ne he k' v
      have hiff : (t.set p k' v).Stops k pos ↔ t.Stops k pos := by
        rw [Stops, Stops, hslot]
      simp only [hiff]
      split_ifs at h ⊢
      · exact h
      · exact ih h

end Table

/-! ### The map -/

variable [DecidableEq κ]

/-- The table holds the map `m`, and at most `n` of its slots are in use. -/
structure Represents (t : Table κ ν) (hash : κ → ℕ) (m : κ → Option ν) (n : ℕ) : Prop where
  hash_lt : ∀ k, hash k < t.cap
  reach : ∀ p < t.cap, ∀ k, t.slot p = some k → t.find k t.cap (hash k) = some p
  get_eq : ∀ k, t.get hash k = m k
  card_le : t.occupied.card ≤ n

variable {t : Table κ ν} {hash : κ → ℕ} {m : κ → Option ν} {n : ℕ}

theorem represents_empty {cap : ℕ} (val : ℕ → ν) (h : ∀ k, hash k < cap) :
    Represents ⟨cap, fun _ => none, val⟩ hash (fun _ => none) 0 where
  hash_lt := h
  reach p _ k hk := by cases hk
  get_eq k := by
    unfold Table.get
    split
    · rfl
    · rfl
  card_le := by simp [Table.occupied]

theorem Represents.exists_empty (h : Represents t hash m n) (hn : n < t.cap) :
    ∃ p < t.cap, t.slot p = none := by
  by_contra hall
  push Not at hall
  have hfull : t.occupied = Finset.range t.cap :=
    Finset.filter_true_of_mem fun p hp => hall p (Finset.mem_range.mp hp)
  have hcard := h.card_le
  rw [hfull, Finset.card_range] at hcard
  omega

theorem Represents.find_isSome (h : Represents t hash m n) (hn : n < t.cap) (k : κ) :
    (t.find k t.cap (hash k)).isSome :=
  Table.find_isSome_of_empty (h.hash_lt k) (h.exists_empty hn)

/-- A key that is in the table after a change is reached. -/
theorem Represents.reach_set (h : Represents t hash m n) {k : κ} {p : ℕ}
    (hp : t.find k t.cap (hash k) = some p) (v : ν) {q : ℕ} (hq : q < t.cap) {k' : κ}
    (hk' : (t.set p k v).slot q = some k') : (t.set p k v).find k' t.cap (hash k') = some q := by
  by_cases he : q = p
  · subst he
    rw [Table.slot_set_self] at hk'
    obtain rfl := Option.some.inj hk'
    exact Table.find_set_self hp
  · rw [t.slot_set_of_ne he] at hk'
    have hne : k' ≠ k := by
      rintro rfl
      rw [h.reach q hq k' hk'] at hp
      exact he (Option.some.inj hp)
    exact Table.find_set_of_ne (h.reach q hq k' hk') hk' (Table.find_stops hp) hne

/-- The other keys keep their values. -/
theorem Represents.get_set_of_ne (h : Represents t hash m n) {k : κ} {p : ℕ}
    (hp : t.find k t.cap (hash k) = some p) (hn : n < t.cap) (v : ν) {k' : κ} (hne : k' ≠ k) :
    (t.set p k v).get hash k' = t.get hash k' := by
  obtain ⟨q, hq⟩ := Option.isSome_iff_exists.mp (h.find_isSome hn k')
  rw [Table.get, Table.get, Table.cap_set, hq]
  dsimp only
  rcases Table.find_stops hq with hnone | hkey
  · -- an absent key stays absent
    rw [if_pos hnone]
    cases hq' : (t.set p k v).find k' t.cap (hash k') with
    | none => rfl
    | some q' =>
      dsimp only
      rcases Table.find_stops hq' with hn' | hk'
      · exact if_pos hn'
      · exfalso
        rw [t.slot_set_of_ne (Table.ne_of_slot_set hk' hne)] at hk'
        have hlt : q' < t.cap := Table.find_lt (t := t.set p k v) hq' (h.hash_lt k')
        rw [h.reach q' hlt k' hk'] at hq
        rw [← Option.some.inj hq, hk'] at hnone
        cases hnone
  · have hpq : q ≠ p := Table.ne_of_stops (Table.find_stops hp) hkey hne
    rw [Table.find_set_of_ne hq hkey (Table.find_stops hp) hne]
    dsimp only
    rw [t.slot_set_of_ne hpq, t.val_set_of_ne hpq]

/-- Putting a key where its probes stop updates the map. -/
theorem Represents.set (h : Represents t hash m n) {k : κ} {p : ℕ}
    (hp : t.find k t.cap (hash k) = some p) (hn : n < t.cap) (v : ν) :
    Represents (t.set p k v) hash (Function.update m k (some v)) (n + 1) where
  hash_lt := h.hash_lt
  reach q hq k' hk' := h.reach_set hp v hq hk'
  get_eq k' := by
    by_cases hne : k' = k
    · subst hne
      rw [Function.update_self, Table.get, Table.cap_set, Table.find_set_self hp]
      simp
    · rw [Function.update_of_ne hne, ← h.get_eq k', h.get_set_of_ne hp hn v hne]
  card_le := (t.card_occupied_set_le p k v).trans (Nat.succ_le_succ h.card_le)

end HiDANN.Probing
