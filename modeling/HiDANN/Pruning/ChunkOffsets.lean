import HiDANN.Library.Rounding
import HiDANN.Library.Scatter
import Mathlib.Data.List.GetD

/-! The chunks of dimensions of a product quantizer. A dimension goes to the first chunk
that has room, which is the rounded up share of a chunk until as many chunks are that
large as the division leaves over, and the rounded down share from then on. So the
chunks are filled one after the other. -/

namespace HiDANN.Pruning

open Rounding Scatter

/-! ### The program -/

def floatMax : ℕ := (2 ^ 24 - 1) * 2 ^ 104

section

variable (dim numPqChunks : ℕ)

/-- The shares, from a quotient in doubles. -/
def lowVal : ℕ := ⌊roundTo 53 (dim / numPqChunks)⌋₊

def highVal : ℕ := ⌈roundTo 53 (dim / numPqChunks)⌉₊

def maxNumHigh : ℕ := dim - lowVal dim numPqChunks * numPqChunks

/-- `bin_to_dims`, `cur_num_high` and `cur_bin_threshold`. -/
structure BinState where
  binToDims : ℕ → List ℕ
  curNumHigh : ℕ
  curBinThreshold : ℕ

/-- The bins of one dimension: `cur_best` and `cur_best_load`. The loads stay zero. -/
def pickBin (binLoads : ℕ → ℕ) (s : BinState) : ℕ :=
  ((List.range numPqChunks).foldl
    (fun (best : ℕ × ℕ) b =>
      if binLoads b < best.2 ∧ (s.binToDims b).length < s.curBinThreshold then (b, binLoads b)
      else best)
    ((numPqChunks + 1) % 2 ^ 32, floatMax)).1

/-- One dimension; `none` when the index of its bin is past the last one. -/
def placeDim (s : BinState) (d : ℕ) : Option BinState :=
  let curBest := pickBin numPqChunks (fun _ => 0) s
  if curBest < numPqChunks then
    let dims := s.binToDims curBest ++ [d]
    let binToDims := Function.update s.binToDims curBest dims
    if dims.length = highVal dim numPqChunks then
      let curNumHigh := s.curNumHigh + 1
      some ⟨binToDims, curNumHigh,
        if curNumHigh = maxNumHigh dim numPqChunks then lowVal dim numPqChunks
        else s.curBinThreshold⟩
    else some ⟨binToDims, s.curNumHigh, s.curBinThreshold⟩
  else none

def placeDims : Option BinState :=
  (List.range dim).foldlM (placeDim dim numPqChunks) ⟨fun _ => [], 0, highVal dim numPqChunks⟩

def binOffsets (binToDims : ℕ → List ℕ) : List ℕ :=
  (List.range numPqChunks).foldl
    (fun offsets b =>
      if 0 < b then
        offsets ++ [(offsets.getD (b - 1) 0 + (binToDims (b - 1)).length % 2 ^ 32) % 2 ^ 32]
      else offsets)
    [0]

def chunkOffsets : Option (List ℕ) :=
  match placeDims dim numPqChunks with
  | none => none
  | some s => some (binOffsets numPqChunks s.binToDims ++ [dim])

end

/-! ### Picking a bin -/

variable {dim q : ℕ}

theorem floatMax_pos : 0 < floatMax := by decide

theorem pickBin_eq {s : BinState} {B : ℕ} (hB : B < q)
    (hroom : (s.binToDims B).length < s.curBinThreshold)
    (hfull : ∀ b < B, ¬ (s.binToDims b).length < s.curBinThreshold) :
    pickBin q (fun _ => 0) s = B := by
  obtain ⟨k, rfl⟩ := Nat.exists_eq_add_of_lt hB
  rw [pickBin]
  set pick : ℕ × ℕ → ℕ → ℕ × ℕ := fun best b =>
    if 0 < best.2 ∧ (s.binToDims b).length < s.curBinThreshold then (b, 0) else best with hpick
  have hbefore : ∀ (bs : List ℕ) (best : ℕ × ℕ), (∀ b ∈ bs, b < B) → bs.foldl pick best = best := by
    intro bs
    induction bs with
    | nil => exact fun best _ => rfl
    | cons b bs ih =>
      intro best hbs
      have hb : pick best b = best := if_neg fun h => hfull b (hbs b List.mem_cons_self) h.2
      rw [List.foldl_cons, hb]
      exact ih best fun b hb => hbs b (List.mem_cons_of_mem _ hb)
  have hafter : ∀ (bs : List ℕ) (b : ℕ), bs.foldl pick (b, 0) = (b, 0) := by
    intro bs b
    induction bs with
    | nil => rfl
    | cons c bs ih =>
      have hc : pick (b, 0) c = (b, 0) := if_neg fun h => absurd h.1 (lt_irrefl 0)
      rw [List.foldl_cons, hc]
      exact ih
  have hat : ∀ n, pick (n, floatMax) B = (B, 0) := fun n => if_pos ⟨floatMax_pos, hroom⟩
  rw [Nat.add_assoc B k 1, List.range_add, List.foldl_append,
    hbefore _ _ fun b hb => List.mem_range.mp hb, List.range_succ_eq_map, List.map_cons,
    List.foldl_cons, Nat.add_zero B, hat, hafter]

/-! ### The sizes -/

def chunkSize (dim q b : ℕ) : ℕ := if b < dim % q then dim / q + 1 else dim / q

theorem offset_chunkSize (dim q b : ℕ) :
    offset (chunkSize dim q) b = b * (dim / q) + min b (dim % q) := by
  induction b with
  | zero => simp [offset]
  | succ b ih =>
    rw [offset, ih, chunkSize, Nat.succ_mul]
    split_ifs <;> omega

theorem offset_chunkSize_all (hq : 0 < q) : offset (chunkSize dim q) q = dim := by
  rw [offset_chunkSize, Nat.min_eq_right (Nat.mod_lt dim hq).le]
  exact Nat.div_add_mod dim q

theorem chunkSize_pos (hq : 0 < q) (hle : q ≤ dim) (b : ℕ) : 0 < chunkSize dim q b := by
  have := Nat.div_pos hle hq
  rw [chunkSize]
  split_ifs <;> omega

section Shares

variable (hq : 0 < q) (hle : q ≤ dim) (hdim : dim < 2 ^ 32)

include hq hle hdim

theorem lowVal_eq : lowVal dim q = dim / q := floor_roundTo_div hq (by omega)

theorem highVal_eq : highVal dim q = if dim % q = 0 then dim / q else dim / q + 1 := by
  rw [highVal, ceil_roundTo_div hq (by omega)]
  have hdecomp := Nat.div_add_mod' dim q
  have hlt := Nat.mod_lt dim hq
  split_ifs with hzero
  · rw [Nat.div_eq_iff hq]
    omega
  · rw [Nat.div_eq_iff hq, Nat.add_mul, Nat.one_mul]
    omega

theorem maxNumHigh_eq : maxNumHigh dim q = dim % q := by
  rw [maxNumHigh, lowVal_eq hq hle hdim]
  have := Nat.div_add_mod' dim q
  omega

end Shares

/-! ### Filling the bins -/

/-- The bins before `B` are full, `B` has `j` dimensions, and the others none. -/
structure Filling (dim q d : ℕ) (s : BinState) (B j : ℕ) : Prop where
  placed : d = offset (chunkSize dim q) B + j
  lt : j < chunkSize dim q B
  size : ∀ b, (s.binToDims b).length = if b < B then chunkSize dim q b else if b = B then j else 0
  threshold : s.curBinThreshold = chunkSize dim q B
  high : 0 < dim % q → s.curNumHigh = min B (dim % q)

variable {d B j : ℕ} {s : BinState}

theorem Filling.start (hq : 0 < q) (hle : q ≤ dim) (hdim : dim < 2 ^ 32) :
    Filling dim q 0 ⟨fun _ => [], 0, highVal dim q⟩ 0 0 where
  placed := rfl
  lt := chunkSize_pos hq hle 0
  size b := by
    rw [if_neg (Nat.not_lt_zero b), ite_self]
    rfl
  threshold := by
    dsimp only
    rw [highVal_eq hq hle hdim, chunkSize]
    split_ifs <;> omega
  high _ := (Nat.zero_min _).symm

theorem Filling.pickBin_eq (h : Filling dim q d s B j) (hB : B < q) : pickBin q (fun _ => 0) s = B := by
  refine Pruning.pickBin_eq hB ?_ fun b hb => ?_
  · rw [h.size, if_neg (lt_irrefl B), if_pos rfl, h.threshold]
    exact h.lt
  · rw [h.size, if_pos hb, h.threshold, chunkSize, chunkSize]
    split_ifs <;> omega

theorem Filling.bin_lt (h : Filling dim q d s B j) (hq : 0 < q) (hd : d < dim) : B < q := by
  by_contra hge
  have hoff := offset_le (chunkSize dim q) (Nat.le_of_not_lt hge)
  have hplaced := h.placed
  rw [offset_chunkSize_all hq] at hoff
  omega

theorem Filling.length_bin (h : Filling dim q d s B j) :
    (s.binToDims B ++ [d]).length = j + 1 := by
  rw [List.length_append, h.size, if_neg (lt_irrefl B), if_pos rfl, List.length_singleton]

theorem Filling.size_update (h : Filling dim q d s B j) (b : ℕ) :
    (Function.update s.binToDims B (s.binToDims B ++ [d]) b).length =
      if b < B then chunkSize dim q b else if b = B then j + 1 else 0 := by
  by_cases hb : b = B
  · rw [hb, Function.update_self, h.length_bin, if_neg (lt_irrefl B), if_pos rfl]
  · rw [Function.update_of_ne hb, h.size, if_neg hb, if_neg hb]

/-- A dimension in a bin that has room for another one. -/
theorem Filling.more (h : Filling dim q d s B j) (hmore : j + 1 < chunkSize dim q B) :
    Filling dim q (d + 1) { s with
      binToDims := Function.update s.binToDims B (s.binToDims B ++ [d]) } B (j + 1) where
  placed := by
    have hplaced := h.placed
    omega
  lt := hmore
  size := h.size_update
  threshold := h.threshold
  high := h.high

/-- A dimension that fills its bin, with the counters for the next bin. -/
theorem Filling.next (h : Filling dim q d s B j) (hq : 0 < q) (hle : q ≤ dim)
    (hfull : j + 1 = chunkSize dim q B) {curNumHigh curBinThreshold : ℕ}
    (hthreshold : curBinThreshold = chunkSize dim q (B + 1))
    (hhigh : 0 < dim % q → curNumHigh = min (B + 1) (dim % q)) :
    Filling dim q (d + 1)
      ⟨Function.update s.binToDims B (s.binToDims B ++ [d]), curNumHigh, curBinThreshold⟩
      (B + 1) 0 where
  placed := by
    have hplaced := h.placed
    rw [offset]
    omega
  lt := chunkSize_pos hq hle _
  size b := by
    rw [h.size_update, hfull]
    rcases Nat.lt_trichotomy b B with hb | rfl | hb
    · rw [if_pos hb, if_pos (by omega)]
    · rw [if_neg (lt_irrefl b), if_pos rfl, if_pos (Nat.lt_succ_self b)]
    · rw [if_neg (by omega), if_neg (by omega), if_neg (by omega)]
      split_ifs <;> rfl
  threshold := hthreshold
  high := hhigh

theorem Filling.placeDim (h : Filling dim q d s B j) (hq : 0 < q) (hle : q ≤ dim)
    (hdim : dim < 2 ^ 32) (hd : d < dim) :
    ∃ s' B' j', placeDim dim q s d = some s' ∧ Filling dim q (d + 1) s' B' j' := by
  have hB := h.bin_lt hq hd
  rw [Pruning.placeDim]
  dsimp only
  rw [h.pickBin_eq hB, if_pos hB, h.length_bin, highVal_eq hq hle hdim, lowVal_eq hq hle hdim,
    maxNumHigh_eq hq hle hdim]
  have hlt := h.lt
  have hthreshold := h.threshold
  by_cases hmore : j + 1 < chunkSize dim q B
  · -- there is room left, so the size is not the larger one yet
    have hnot : ¬ j + 1 = if dim % q = 0 then dim / q else dim / q + 1 := by
      rw [chunkSize] at hmore
      split_ifs at hmore ⊢ <;> omega
    rw [if_neg hnot]
    exact ⟨_, B, j + 1, rfl, h.more hmore⟩
  · have hfull : j + 1 = chunkSize dim q B := by omega
    have hsize := hfull
    rw [chunkSize] at hsize hthreshold
    rcases Nat.eq_zero_or_pos (dim % q) with hzero | hr
    · -- all shares are the same, and the threshold with them
      have hlow : chunkSize dim q (B + 1) = dim / q := by rw [chunkSize, if_neg (by omega)]
      rw [if_neg (by omega)] at hsize hthreshold
      rw [if_pos hzero, if_pos hsize, hzero, if_neg (Nat.succ_ne_zero _)]
      exact ⟨_, B + 1, 0, rfl,
        h.next hq hle hfull (hthreshold.trans hlow.symm) fun hr => by omega⟩
    · have hcount := h.high hr
      rw [if_neg hr.ne']
      by_cases hBr : B < dim % q
      · rw [if_pos hBr] at hsize hthreshold
        rw [if_pos hsize]
        refine ⟨_, B + 1, 0, rfl, h.next hq hle hfull ?_ fun _ => by omega⟩
        rw [chunkSize]
        split_ifs <;> omega
      · rw [if_neg hBr] at hsize hthreshold
        rw [if_neg (by omega)]
        refine ⟨_, B + 1, 0, rfl, h.next hq hle hfull ?_ fun _ => by omega⟩
        rw [chunkSize, if_neg (by omega)]
        exact hthreshold

/-- All of the dimensions are placed, and every chunk has its share. -/
theorem placeDims_eq (hq : 0 < q) (hle : q ≤ dim) (hdim : dim < 2 ^ 32) :
    ∃ s, placeDims dim q = some s ∧ ∀ b < q, (s.binToDims b).length = chunkSize dim q b := by
  have hrun : ∀ d ≤ dim, ∃ s B j, (List.range d).foldlM (Pruning.placeDim dim q)
      ⟨fun _ => [], 0, highVal dim q⟩ = some s ∧ Filling dim q d s B j := by
    intro d
    induction d with
    | zero => exact fun _ => ⟨_, 0, 0, rfl, Filling.start hq hle hdim⟩
    | succ d ih =>
      intro hd
      obtain ⟨s, B, j, hs, hfill⟩ := ih (by omega)
      obtain ⟨s', B', j', hs', hfill'⟩ := hfill.placeDim hq hle hdim hd
      refine ⟨s', B', j', ?_, hfill'⟩
      rw [List.range_succ, List.foldlM_append, hs]
      simpa using hs'
  obtain ⟨s, B, j, hs, hfill⟩ := hrun dim le_rfl
  refine ⟨s, hs, fun b hb => ?_⟩
  have hplaced := hfill.placed
  have hall : offset (chunkSize dim q) q = dim := offset_chunkSize_all hq
  have hBq : q ≤ B := by
    by_contra hlt
    have hend := offset_add_len_le (chunkSize dim q) (Nat.lt_of_not_le hlt)
    have := hfill.lt
    omega
  rw [hfill.size, if_pos (hb.trans_le hBq)]

/-! ### The offsets -/

/-- The offsets are the sums of the sizes, and no sum is as large as `2 ^ 32`. -/
theorem binOffsets_eq {binToDims : ℕ → List ℕ} (hq : 0 < q) (hdim : dim < 2 ^ 32)
    (hsize : ∀ b < q, (binToDims b).length = chunkSize dim q b) :
    binOffsets q binToDims = (List.range q).map (offset (chunkSize dim q)) := by
  have hsmall : ∀ b ≤ q, offset (chunkSize dim q) b < 2 ^ 32 := by
    intro b hb
    have hle := offset_le (chunkSize dim q) hb
    rw [offset_chunkSize_all hq] at hle
    omega
  set push : List ℕ → ℕ → List ℕ := fun offsets b =>
    if 0 < b then
      offsets ++ [(offsets.getD (b - 1) 0 + (binToDims (b - 1)).length % 2 ^ 32) % 2 ^ 32]
    else offsets with hpush
  have hfold : ∀ n < q, (List.range (n + 1)).foldl push [0] =
      (List.range (n + 1)).map (offset (chunkSize dim q)) := by
    intro n
    induction n with
    | zero => exact fun _ => rfl
    | succ n ih =>
      intro hn
      have hlast : ((List.range (n + 1)).map (offset (chunkSize dim q))).getD n 0 =
          offset (chunkSize dim q) n := by
        rw [List.getD_eq_getElem _ _ (by simp), List.getElem_map, List.getElem_range]
      have hnext := hsmall (n + 1) hn.le
      rw [offset] at hnext
      rw [List.range_succ, List.foldl_append, ih (by omega), List.map_append, List.foldl_cons,
        List.foldl_nil, hpush]
      dsimp only
      rw [if_pos (Nat.succ_pos n), Nat.add_sub_cancel, hlast, hsize n (by omega),
        Nat.mod_eq_of_lt (a := chunkSize dim q n) (by omega), Nat.mod_eq_of_lt hnext]
      rfl
  obtain ⟨n, rfl⟩ := Nat.exists_eq_add_of_lt hq
  exact hfold (0 + n) (by omega)

/-- The offsets in order from zero to the number of dimensions. -/
theorem chunkOffsets_eq (hq : 0 < q) (hle : q ≤ dim) (hdim : dim < 2 ^ 32) :
    chunkOffsets dim q = some ((List.range (q + 1)).map (offset (chunkSize dim q))) := by
  obtain ⟨s, hs, hsize⟩ := placeDims_eq hq hle hdim
  rw [chunkOffsets, hs]
  dsimp only
  rw [binOffsets_eq hq hdim hsize, List.range_succ, List.map_append, List.map_singleton,
    offset_chunkSize_all hq]

end HiDANN.Pruning
