import HiDANN.Library.Rounding
import HiDANN.Reverse.Symmetric
import Mathlib.Algebra.Order.Floor.Semifield

/-! The stripes against the memory. The stripes tile the nodes whatever they weigh. A
stripe of several nodes has been tried against the memory left for so many, but one of
a single node may only be what the search fell back to: room was asked for once, for
the first node. -/

namespace HiDANN.Reverse

open Bisect Rounding Scatter

/-! ### The stripes of a run -/

/-- The share of `STRIPE_PAYLOAD_FILL`, in the 64 digits of a long double. -/
def stripePayloadFill (avail : ℕ) : ℕ := ⌊roundTo 64 (avail * (3 / 4))⌋₊

/-- The memory as the program derives it from the budget, the safety and `--max-mib`. -/
def Memory.ofBudget (budget safety maxMib : ℕ) : Memory :=
  ⟨budget, safety, stripePayloadFill, maxMib⟩

def Feasible (m : Memory) (N : ℕ) (cnt : ℕ → ℕ) : Prop :=
  ¬ (availForU m N 1 = 0 ∨ availForU m N 1 < idsBytesOf (offElems cnt) 0 1)

def stripes (m : Memory) (N : ℕ) (off : ℕ → ℕ) (lo : ℕ) : List (ℕ × ℕ) :=
  if lo < N then (lo, stripeEnd m N off lo) :: stripes m N off (stripeEnd m N off lo) else []
termination_by N - lo
decreasing_by
  have := lt_stripeEnd m N off lo
  omega

def stripeTurn (N : ℕ) (off : ℕ → ℕ) (graph : List UInt8) (w : (ℕ → UInt8) × List UInt8)
    (s : ℕ × ℕ) : Except String ((ℕ → UInt8) × List UInt8) :=
  if idsBytesOf off s.1 s.2 = 0 then .ok w else fillStripe N off graph s.1 s.2 w.1 w.2

theorem stripeLoop_eq_foldlM (m : Memory) (N : ℕ) (off : ℕ → ℕ) (graph : List UInt8) (lo : ℕ)
    (mem : ℕ → UInt8) (ids : List UInt8) :
    stripeLoop m N off graph lo mem ids =
      ((stripes m N off lo).foldlM (stripeTurn N off graph) (mem, ids)).map Prod.snd := by
  fun_induction stripeLoop m N off graph lo mem ids with
  | case1 lo mem ids h hempty ih =>
    rw [stripes, if_pos h, List.foldlM_cons, stripeTurn, if_pos hempty, ih]
    rfl
  | case2 lo mem ids h hempty e hfill =>
    rw [stripes, if_pos h, List.foldlM_cons, stripeTurn, if_neg hempty, hfill]
    rfl
  | case3 lo mem ids h hempty mem' ids' hfill ih =>
    rw [stripes, if_pos h, List.foldlM_cons, stripeTurn, if_neg hempty, hfill, ih]
    rfl
  | case4 lo mem ids h =>
    rw [stripes, if_neg h]
    rfl

/-- The ranges lie one behind the other from `lo` to `hi`, none of them empty. -/
def Tiles : ℕ → List (ℕ × ℕ) → ℕ → Prop
  | lo, [], hi => lo = hi
  | lo, s :: ss, hi => s.1 = lo ∧ lo < s.2 ∧ Tiles s.2 ss hi

/-- Every place of a tiled range lies in one of the ranges. -/
theorem Tiles.exists_mem {lo hi u : ℕ} {ss : List (ℕ × ℕ)} (h : Tiles lo ss hi) (hlo : lo ≤ u)
    (hhi : u < hi) : ∃ s ∈ ss, s.1 ≤ u ∧ u < s.2 := by
  induction ss generalizing lo with
  | nil =>
    obtain rfl : lo = hi := h
    omega
  | cons s ss ih =>
    obtain ⟨rfl, -, htail⟩ := h
    rcases Nat.lt_or_ge u s.2 with hu | hu
    · exact ⟨s, List.mem_cons_self, hlo, hu⟩
    · obtain ⟨t, ht, hut⟩ := ih htail hu
      exact ⟨t, List.mem_cons_of_mem _ ht, hut⟩

theorem tiles_stripes (m : Memory) {N : ℕ} (off : ℕ → ℕ) {lo : ℕ} (h : lo ≤ N) :
    Tiles lo (stripes m N off lo) N := by
  fun_induction stripes m N off lo with
  | case1 lo hlt ih => exact ⟨rfl, lt_stripeEnd m N off lo, ih (stripeEnd_le m off hlt)⟩
  | case2 lo hlt => exact Nat.le_antisymm h (Nat.le_of_not_lt hlt)

/-! ### The memory for a stripe -/

theorem stripePayloadFill_mono : Monotone stripePayloadFill := by
  intro a b h
  have hcast : (a : ℚ) ≤ b := by exact_mod_cast h
  refine Nat.floor_le_floor (roundTo_mono (by decide) ?_ ?_)
  · exact mul_nonneg (Nat.cast_nonneg a) (by norm_num)
  · exact mul_le_mul_of_nonneg_right hcast (by norm_num)

theorem stripePayloadFill_eq {avail : ℕ} (h : avail * 3 < 2 ^ 64) :
    stripePayloadFill avail = avail * 3 / 4 := by
  have hquarters : (avail * (3 / 4) : ℚ) = (avail * 3 : ℕ) * 2 ^ (-2 : ℤ) := by
    push_cast
    norm_num
    ring
  have hdiv : ((avail * 3 : ℕ) * 2 ^ (-2 : ℤ) : ℚ) = (avail * 3 : ℕ) / (4 : ℕ) := by
    norm_num
    ring
  rw [stripePayloadFill, hquarters, roundTo_eq h, hdiv, Nat.floor_div_eq_div]

theorem availForU_anti {m : Memory} (hm : Monotone m.payloadFill) (N : ℕ) {U V : ℕ} (hU : 0 < U)
    (h : U ≤ V) : availForU m N V ≤ availForU m N U := by
  unfold availForU
  dsimp only
  generalize (if m.safety < m.budget then m.budget - m.safety else 0) = avail
  have hfill : m.payloadFill (avail - (4 * N + 8 * (N + 1) + 8 * V + 4 * 1024 * 1024)) ≤
      m.payloadFill (avail - (4 * N + 8 * (N + 1) + 8 * U + 4 * 1024 * 1024)) := hm (by omega)
  split_ifs <;> omega

theorem idsBytesOf_le (cnt : ℕ → ℕ) {lo lo' hi hi' : ℕ} (hlo : lo' ≤ lo) (hhi : hi ≤ hi') :
    idsBytesOf (offElems cnt) lo hi ≤ idsBytesOf (offElems cnt) lo' hi' := by
  have h1 : offElems cnt lo' ≤ offElems cnt lo := offset_le cnt hlo
  have h2 : offElems cnt hi ≤ offElems cnt hi' := offset_le cnt hhi
  unfold idsBytesOf
  omega

theorem idsBytesOf_succ (cnt : ℕ → ℕ) (u : ℕ) :
    idsBytesOf (offElems cnt) u (u + 1) = cnt u * 4 := by
  rw [idsBytesOf, offElems, offset, Nat.add_sub_cancel_left]

theorem stripeEnd_eq_or_fits (m : Memory) (N : ℕ) (off : ℕ → ℕ) (lo : ℕ) :
    stripeEnd m N off lo = lo + 1 ∨
      idsBytesOf off lo (stripeEnd m N off lo) ≤ availForU m N (stripeEnd m N off lo - lo) := by
  have hok : pickHi m N off lo = lo + 1 ∨
      idsBytesOf off lo (pickHi m N off lo) ≤ availForU m N (pickHi m N off lo - lo) := by
    unfold pickHi
    rcases bisect_ok _ (lo + 1) (Nat.succ_pos lo) with h | h
    · exact .inl h
    · exact .inr (of_decide_eq_true h).2
  unfold stripeEnd
  split_ifs with h
  · exact .inl rfl
  · exact hok

theorem mem_stripes {m : Memory} {N : ℕ} {off : ℕ → ℕ} {lo : ℕ} {s : ℕ × ℕ}
    (h : s ∈ stripes m N off lo) : s.1 < N ∧ s.2 = stripeEnd m N off s.1 := by
  fun_induction stripes m N off lo with
  | case1 lo hlt ih =>
    rcases List.mem_cons.mp h with rfl | h
    · exact ⟨hlt, rfl⟩
    · exact ih h
  | case2 lo hlt => cases h

/-! ### Stripes that fit -/

/-- Every stripe that has a buffer fits the memory, and the stripes tile the nodes. -/
structure StripesFit (m : Memory) (N : ℕ) (cnt : ℕ → ℕ) : Prop where
  fits : ∀ s ∈ stripes m N (offElems cnt) 0, idsBytesOf (offElems cnt) s.1 s.2 ≠ 0 →
    idsBytesOf (offElems cnt) s.1 s.2 ≤ availForU m N (s.2 - s.1)
  tiles : Tiles 0 (stripes m N (offElems cnt) 0) N

variable {m : Memory} {N : ℕ} {cnt : ℕ → ℕ}

/-- It is enough that every node fits alone. -/
theorem stripesFit_of_single (h : ∀ u < N, cnt u * 4 ≤ availForU m N 1) : StripesFit m N cnt := by
  refine ⟨fun s hs _ => ?_, tiles_stripes m _ (Nat.zero_le N)⟩
  obtain ⟨hlt, hend⟩ := mem_stripes hs
  rw [hend]
  rcases stripeEnd_eq_or_fits m N (offElems cnt) s.1 with hone | hfits
  · rw [hone, idsBytesOf_succ, Nat.add_sub_cancel_left]
    exact h s.1 hlt
  · exact hfits

/-- A node that does not fit alone does not fit in any stripe. -/
theorem single_of_stripesFit (hm : Monotone m.payloadFill) (h : StripesFit m N cnt) {u : ℕ}
    (hu : u < N) : cnt u * 4 ≤ availForU m N 1 := by
  obtain ⟨s, hs, hlo, hhi⟩ := h.tiles.exists_mem (Nat.zero_le u) hu
  have hnode : cnt u * 4 ≤ idsBytesOf (offElems cnt) s.1 s.2 := by
    rw [← idsBytesOf_succ]
    exact idsBytesOf_le cnt hlo hhi
  by_cases hempty : idsBytesOf (offElems cnt) s.1 s.2 = 0
  · omega
  calc cnt u * 4 ≤ idsBytesOf (offElems cnt) s.1 s.2 := hnode
    _ ≤ availForU m N (s.2 - s.1) := h.fits s hs hempty
    _ ≤ availForU m N 1 := availForU_anti hm N one_pos (by omega)

/-- Where the check passes, the stripes fit exactly when every node after the first
fits alone. -/
theorem stripesFit_iff (budget safety maxMib N : ℕ) (cnt : ℕ → ℕ)
    (h : Feasible (.ofBudget budget safety maxMib) N cnt) :
    StripesFit (.ofBudget budget safety maxMib) N cnt ↔
      ∀ u, 0 < u → u < N → cnt u * 4 ≤ availForU (.ofBudget budget safety maxMib) N 1 := by
  constructor
  · intro hfit u _ hu
    exact single_of_stripesFit stripePayloadFill_mono hfit hu
  · intro hsingle
    refine stripesFit_of_single fun u hu => ?_
    rcases Nat.eq_zero_or_pos u with rfl | hpos
    · rw [← idsBytesOf_succ]
      exact Nat.le_of_not_lt fun hlt => h (.inr hlt)
    · exact hsingle u hpos hu

/-- A memory that leaves twelve bytes of three nodes to a stripe of one. -/
def tightMemory : Memory := .ofBudget 4194372 0 0

theorem availForU_tightMemory : availForU tightMemory 3 1 = 12 := by
  have hfill : stripePayloadFill 16 = 12 := stripePayloadFill_eq (by norm_num)
  simp [availForU, tightMemory, Memory.ofBudget, hfill]

theorem feasible_tightMemory {cnt : ℕ → ℕ} (h : cnt 0 ≤ 3) : Feasible tightMemory 3 cnt := by
  rw [Feasible, availForU_tightMemory, idsBytesOf_succ]
  omega

/-- Three nodes, each with an edge to the next. -/
def pathCounts : ℕ → ℕ := counts 3 fun u => if u < 2 then [u + 1] else []

theorem stripesFit_path : (List.range 3).map pathCounts = [1, 2, 1] ∧
    StripesFit tightMemory 3 pathCounts := by
  refine ⟨by decide, ?_⟩
  refine (stripesFit_iff 4194372 0 0 3 _ (feasible_tightMemory (by decide))).mpr fun u _ hu => ?_
  rw [show availForU (.ofBudget 4194372 0 0) 3 1 = 12 from availForU_tightMemory]
  have hall : ∀ u < 3, pathCounts u * 4 ≤ 12 := by decide
  exact hall u hu

/-- Three nodes, the middle one with an edge to every node. -/
def hubCounts : ℕ → ℕ := counts 3 fun u => if u = 1 then [0, 1, 2] else []

/-- The check passes, and the stripe of the hub does not fit. -/
theorem hub_exceeds : Feasible tightMemory 3 hubCounts ∧ ¬ StripesFit tightMemory 3 hubCounts := by
  refine ⟨feasible_tightMemory (by decide), fun h => ?_⟩
  have hhub : hubCounts 1 * 4 ≤ availForU tightMemory 3 1 :=
    single_of_stripesFit stripePayloadFill_mono h (by decide)
  rw [availForU_tightMemory] at hhub
  exact absurd hhub (by decide)

end HiDANN.Reverse
