import Mathlib.Data.List.Basic
import Mathlib.Data.List.Flatten
import Mathlib.Logic.Function.Basic
import Mathlib.Tactic.Ring

/-! Counting, prefix offsets and cursor filling: the two-pass grouping of keyed
chunks. The first pass counts what every key receives, the offsets are the
prefix sums of the counts, and the second pass stores every chunk at its key's
cursor. When the counts are exact the filled memory is the concatenation of the
rows in key order, and no store leaves its key's range. -/

namespace HiDANN.Scatter

variable {α : Type*}

/-! ### Rows -/

/-- The chunks stored under one key, in order of arrival. -/
def row (items : List (ℕ × List α)) (u : ℕ) : List α :=
  (items.filter fun p => p.1 = u).flatMap Prod.snd

@[simp] theorem row_nil (u : ℕ) : row ([] : List (ℕ × List α)) u = [] := rfl

theorem row_cons (p : ℕ × List α) (items : List (ℕ × List α)) (u : ℕ) :
    row (p :: items) u = (if p.1 = u then p.2 else []) ++ row items u := by
  by_cases h : p.1 = u <;> simp [row, h]

@[simp] theorem row_append (xs ys : List (ℕ × List α)) (u : ℕ) :
    row (xs ++ ys) u = row xs u ++ row ys u := by
  simp [row]

theorem row_singleton (p : ℕ × List α) (u : ℕ) :
    row [p] u = if p.1 = u then p.2 else [] := by
  simp [row_cons]

theorem row_filter (keep : ℕ → Bool) (items : List (ℕ × List α)) (u : ℕ) (hu : keep u) :
    row (items.filter fun p => keep p.1) u = row items u := by
  simp only [row, List.filter_filter]
  congr 1
  apply List.filter_congr
  intro p _
  by_cases h : p.1 = u <;> simp [h, hu]

theorem row_flatMap {β : Type*} (f : β → List (ℕ × List α)) (xs : List β) (u : ℕ) :
    row (xs.flatMap f) u = xs.flatMap fun x => row (f x) u := by
  induction xs with
  | nil => rfl
  | cons x xs ih => rw [List.flatMap_cons, row_append, ih, List.flatMap_cons]

/-- Relabelling keys injectively where it matters relabels rows. -/
theorem row_map_key (f : ℕ → ℕ) (items : List (ℕ × List α)) (u : ℕ)
    (hf : ∀ p ∈ items, f p.1 = f u → p.1 = u) :
    row (items.map fun p => (f p.1, p.2)) (f u) = row items u := by
  induction items with
  | nil => rfl
  | cons p items ih =>
    rw [List.map_cons, row_cons, row_cons, ih (fun q hq => hf q (by simp [hq]))]
    by_cases h : p.1 = u
    · simp [h]
    · have : f p.1 ≠ f u := fun e => h (hf p (by simp) e)
      simp [h, this]

/-! ### Counts and offsets -/

/-- Add the length of a chunk to its key's counter, modulo the counter's range. -/
def tallyStep (m : ℕ) (c : ℕ → ℕ) (p : ℕ × List α) : ℕ → ℕ :=
  Function.update c p.1 ((c p.1 + p.2.length) % m)

def tally (m : ℕ) (items : List (ℕ × List α)) : ℕ → ℕ :=
  items.foldl (tallyStep m) fun _ => 0

theorem foldl_tallyStep (m : ℕ) (items : List (ℕ × List α)) (c : ℕ → ℕ)
    (hc : ∀ u, c u % m = c u) (u : ℕ) :
    items.foldl (tallyStep m) c u = (c u + (row items u).length) % m := by
  induction items generalizing c with
  | nil => simp [hc]
  | cons p items ih =>
    rw [List.foldl_cons, ih]
    · rw [row_cons]
      by_cases h : p.1 = u
      · subst h
        simp [tallyStep, Nat.add_assoc]
      · simp [tallyStep, h, Function.update_of_ne (Ne.symm h)]
    · intro v
      by_cases h : v = p.1
      · subst h; simp [tallyStep]
      · simp [tallyStep, Function.update_of_ne h, hc]

/-- A counter holds the length of its row, modulo its range. -/
theorem tally_eq (m : ℕ) (items : List (ℕ × List α)) (u : ℕ) :
    tally m items u = (row items u).length % m := by
  simpa [tally] using foldl_tallyStep m items (fun _ => 0) (by simp) u

/-- Prefix sums of the counters. -/
def offset (len : ℕ → ℕ) : ℕ → ℕ
  | 0 => 0
  | u + 1 => offset len u + len u

theorem offset_congr {len len' : ℕ → ℕ} {u : ℕ} (h : ∀ v < u, len v = len' v) :
    offset len u = offset len' u := by
  induction u with
  | zero => rfl
  | succ u ih => rw [offset, offset, ih (fun v hv => h v (by omega)), h u (by omega)]

theorem offset_mul (k : ℕ) (len : ℕ → ℕ) (u : ℕ) :
    offset (fun v => k * len v) u = k * offset len u := by
  induction u with
  | zero => simp [offset]
  | succ u ih => rw [offset, offset, ih, Nat.mul_add]

/-- Offsets past a point are that point's offset plus the offsets of the rest. -/
theorem offset_add (len : ℕ → ℕ) (a b : ℕ) :
    offset len (a + b) = offset len a + offset (fun v => len (a + v)) b := by
  induction b with
  | zero => rfl
  | succ b ih => rw [← Nat.add_assoc, offset, offset, ih, Nat.add_assoc]

theorem offset_le (len : ℕ → ℕ) {u v : ℕ} (h : u ≤ v) : offset len u ≤ offset len v := by
  obtain ⟨d, rfl⟩ := Nat.exists_eq_add_of_le h
  rw [offset_add]
  omega

/-- A key's range ends before every later key's range starts. -/
theorem offset_le_mul {f : ℕ → ℕ} {c : ℕ} (h : ∀ u, f u ≤ c) (n : ℕ) : offset f n ≤ n * c := by
  induction n with
  | zero => exact Nat.zero_le _
  | succ n ih =>
    rw [offset, Nat.succ_mul]
    exact Nat.add_le_add ih (h n)

theorem offset_add_len_le (len : ℕ → ℕ) {u v : ℕ} (h : u < v) :
    offset len u + len u ≤ offset len v :=
  offset_le len (show u + 1 ≤ v from h)

theorem offset_fun_add (f g : ℕ → ℕ) (u : ℕ) :
    offset (fun v => f v + g v) u = offset f u + offset g u := by
  induction u with
  | zero => rfl
  | succ u ih => simp only [offset, ih]; omega

theorem offset_ite (k n u : ℕ) :
    offset (fun v => if k = v then n else 0) u = if k < u then n else 0 := by
  induction u with
  | zero => rfl
  | succ u ih =>
    rw [offset, ih]
    split_ifs <;> omega

/-- Every chunk is in exactly one row. -/
theorem sum_lengths {items : List (ℕ × List α)} {U : ℕ} (hkey : ∀ p ∈ items, p.1 < U) :
    (items.map fun p => p.2.length).sum = offset (fun u => (row items u).length) U := by
  induction items with
  | nil =>
    have := offset_mul 0 (fun _ => 0) U
    simpa using this.symm
  | cons p items ih =>
    have hp : p.1 < U := hkey p (by simp)
    have hlen : ∀ u, (row (p :: items) u).length =
        (if p.1 = u then p.2.length else 0) + (row items u).length := by
      intro u
      rw [row_cons, List.length_append]
      split_ifs <;> rfl
    simp only [hlen, List.map_cons, List.sum_cons]
    rw [offset_fun_add, offset_ite, if_pos hp, ih (fun q hq => hkey q (by simp [hq]))]

theorem length_rows (f : ℕ → List α) (u : ℕ) :
    ((List.range u).flatMap f).length = offset (fun v => (f v).length) u := by
  induction u with
  | zero => rfl
  | succ u ih => simp [List.range_succ, offset, ih]

/-! ### Filling -/

/-- Store a chunk at a position. -/
def store (mem : ℕ → α) (pos : ℕ) (xs : List α) : ℕ → α :=
  fun i => if pos ≤ i then (xs[i - pos]?).getD (mem i) else mem i

theorem store_out {mem : ℕ → α} {pos i : ℕ} {xs : List α}
    (h : i < pos ∨ pos + xs.length ≤ i) : store mem pos xs i = mem i := by
  unfold store
  split_ifs with hp
  · rw [List.getElem?_eq_none (by omega), Option.getD_none]
  · rfl

theorem store_in {mem : ℕ → α} {pos i : ℕ} {xs : List α} (h : i < xs.length) :
    store mem pos xs (pos + i) = xs[i] := by
  simp [store, h]

/-- Storing blocks leaves the block of every other index as it was. -/
theorem foldl_store_frame {R i j : ℕ} {f : ℕ → List α} {order : List ℕ}
    (hf : ∀ u ∈ order, (f u).length ≤ R) (hi : i ∉ order) (hj : j < R) (mem : ℕ → α) :
    order.foldl (fun m u => store m (u * R) (f u)) mem (i * R + j) = mem (i * R + j) := by
  induction order generalizing mem with
  | nil => rfl
  | cons u order ih =>
    rw [List.mem_cons, not_or] at hi
    have hlen := hf u (by simp)
    rw [List.foldl_cons, ih (fun w hw => hf w (by simp [hw])) hi.2, store_out]
    rcases Nat.lt_or_gt_of_ne hi.1 with h | h
    · have := Nat.mul_le_mul_right R (show i + 1 ≤ u from h)
      rw [Nat.succ_mul] at this
      omega
    · have := Nat.mul_le_mul_right R (show u + 1 ≤ i from h)
      rw [Nat.succ_mul] at this
      omega

/-- Blocks of bounded length, stored in any order, are all in place. -/
theorem foldl_store_blocks {R : ℕ} {f : ℕ → List α} {order : List ℕ} (hnd : order.Nodup)
    (hf : ∀ u ∈ order, (f u).length ≤ R) {i j : ℕ} (hi : i ∈ order) (hj : j < (f i).length)
    (mem : ℕ → α) :
    order.foldl (fun m u => store m (u * R) (f u)) mem (i * R + j) = (f i)[j] := by
  induction order generalizing mem with
  | nil => cases hi
  | cons u order ih =>
    rw [List.nodup_cons] at hnd
    rw [List.foldl_cons]
    rcases List.mem_cons.mp hi with rfl | hi
    · rw [foldl_store_frame (fun w hw => hf w (by simp [hw])) hnd.1 (hj.trans_le (hf i (by simp))),
        store_in hj]
    · exact ih hnd.2 (fun w hw => hf w (by simp [hw])) hi _

/-- Store a chunk at its key's cursor and advance the cursor. -/
def fillStep (s : (ℕ → α) × (ℕ → ℕ)) (p : ℕ × List α) : (ℕ → α) × (ℕ → ℕ) :=
  (store s.1 (s.2 p.1) p.2, Function.update s.2 p.1 (s.2 p.1 + p.2.length))

theorem fillStep_fst (s : (ℕ → α) × (ℕ → ℕ)) (p : ℕ × List α) :
    (fillStep s p).1 = store s.1 (s.2 p.1) p.2 := rfl

theorem fillStep_snd (s : (ℕ → α) × (ℕ → ℕ)) (p : ℕ × List α) :
    (fillStep s p).2 = Function.update s.2 p.1 (s.2 p.1 + p.2.length) := rfl

def fill (s : (ℕ → α) × (ℕ → ℕ)) (items : List (ℕ × List α)) : (ℕ → α) × (ℕ → ℕ) :=
  items.foldl fillStep s

/-- What has been stored so far: every cursor stands behind its row's prefix,
and the prefix is in place. -/
structure Filled (len : ℕ → ℕ) (U : ℕ) (done : List (ℕ × List α))
    (s : (ℕ → α) × (ℕ → ℕ)) : Prop where
  cursor : ∀ u < U, s.2 u = offset len u + (row done u).length
  stored : ∀ u < U, ∀ i (h : i < (row done u).length), s.1 (offset len u + i) = (row done u)[i]

theorem Filled.start (len : ℕ → ℕ) (U : ℕ) (mem : ℕ → α) :
    Filled len U [] (mem, offset len) :=
  ⟨fun _ _ => rfl, fun _ _ i h => absurd h (by simp)⟩

theorem Filled.step {len : ℕ → ℕ} {U : ℕ} {done : List (ℕ × List α)}
    {s : (ℕ → α) × (ℕ → ℕ)} (hs : Filled len U done s) (p : ℕ × List α) (hp : p.1 < U)
    (hlen : ∀ u < U, (row (done ++ [p]) u).length ≤ len u) :
    Filled len U (done ++ [p]) (fillStep s p) := by
  have hrow : ∀ u, row (done ++ [p]) u = row done u ++ if p.1 = u then p.2 else [] := by
    intro u; rw [row_append, row_singleton]
  have hpos := hs.cursor p.1 hp
  constructor
  · intro u hu
    rw [hrow]
    by_cases h : p.1 = u
    · subst h
      simp [fillStep_snd, hpos, Nat.add_assoc]
    · simp [fillStep_snd, Function.update_of_ne (Ne.symm h), hs.cursor u hu, h]
  · intro u hu i hi
    by_cases h : p.1 = u
    · subst h
      simp only [hrow, ↓reduceIte, List.length_append] at hi ⊢
      by_cases hlt : i < (row done p.1).length
      · rw [List.getElem_append_left hlt, fillStep_fst, store_out (Or.inl (by omega))]
        exact hs.stored _ hu i hlt
      · obtain ⟨j, rfl⟩ := Nat.exists_eq_add_of_le (Nat.le_of_not_lt hlt)
        rw [List.getElem_append_right (by omega), fillStep_fst, ← Nat.add_assoc, ← hpos,
          store_in (by omega)]
        simp
    · simp only [hrow, h, ↓reduceIte, List.append_nil] at hi ⊢
      have hu' := hlen u hu
      have hp' := hlen p.1 hp
      simp only [hrow, h, ↓reduceIte, List.append_nil, List.length_append] at hu' hp'
      rw [fillStep_fst, store_out]
      · exact hs.stored u hu i hi
      · -- the ranges of two keys are disjoint
        rcases Nat.lt_or_gt_of_ne h with hlt | hlt
        · have := offset_add_len_le len hlt
          omega
        · have := offset_add_len_le len hlt
          omega

theorem Filled.run {len : ℕ → ℕ} {U : ℕ} {done : List (ℕ × List α)}
    {s : (ℕ → α) × (ℕ → ℕ)} (hs : Filled len U done s) (items : List (ℕ × List α))
    (hkey : ∀ p ∈ items, p.1 < U) (hlen : ∀ u < U, (row (done ++ items) u).length ≤ len u) :
    Filled len U (done ++ items) (fill s items) := by
  induction items generalizing done s with
  | nil => simpa [fill] using hs
  | cons p items ih =>
    have hstep := hs.step p (hkey p (by simp)) (fun u hu => by
      have := hlen u hu
      simp only [row_append, row_cons, row_nil, List.length_append, List.length_nil] at this ⊢
      omega)
    have := ih hstep (fun q hq => hkey q (by simp [hq])) (by simpa using hlen)
    simpa [fill] using this

/-- A cursor never leaves the filled area before its chunk is stored. -/
theorem Filled.cursor_add_le {len : ℕ → ℕ} {U : ℕ} {done : List (ℕ × List α)}
    {s : (ℕ → α) × (ℕ → ℕ)} (hs : Filled len U done s) (p : ℕ × List α) (hp : p.1 < U)
    (hlen : (row (done ++ [p]) p.1).length ≤ len p.1) :
    s.2 p.1 + p.2.length ≤ offset len U := by
  have h1 := hs.cursor p.1 hp
  have h2 := offset_add_len_le len hp
  simp only [row_append, row_singleton, ↓reduceIte, List.length_append] at hlen
  omega

/-- Rows that lie in place one after another are the memory's contents. -/
theorem map_range_eq_rows {len : ℕ → ℕ} {mem : ℕ → α} {f : ℕ → List α} (U : ℕ)
    (hlen : ∀ u < U, (f u).length = len u)
    (hmem : ∀ u < U, ∀ i (h : i < (f u).length), mem (offset len u + i) = (f u)[i]) :
    (List.range (offset len U)).map mem = (List.range U).flatMap f := by
  induction U with
  | zero => rfl
  | succ U ih =>
    rw [offset, List.range_add, List.map_append, List.range_succ, List.flatMap_append,
      ih (fun u hu => hlen u (by omega)) (fun u hu => hmem u (by omega))]
    congr 1
    rw [List.flatMap_singleton, List.map_map]
    apply List.ext_getElem
    · simp [hlen U (by omega)]
    · intro i h1 h2
      simpa using hmem U (by omega) i h2

/-- With exact counts the filled memory is the concatenation of the rows. -/
theorem fill_eq_rows {len : ℕ → ℕ} {U : ℕ} (mem : ℕ → α) (items : List (ℕ × List α))
    (hkey : ∀ p ∈ items, p.1 < U) (hlen : ∀ u < U, (row items u).length = len u) :
    (List.range (offset len U)).map (fill (mem, offset len) items).1 =
      (List.range U).flatMap (row items) := by
  have hf := (Filled.start len U mem).run items hkey (fun u hu => (hlen u hu).le)
  exact map_range_eq_rows U hlen (fun u hu i hi => hf.stored u hu i hi)

end HiDANN.Scatter
