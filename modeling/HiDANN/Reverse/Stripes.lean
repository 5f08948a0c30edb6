import HiDANN.Library.Bisect
import HiDANN.Library.Posix
import HiDANN.Format.Candidates
import HiDANN.Format.MemIndex
import HiDANN.Reverse.Contributions

/-! The program that adds reverse edges. It counts the nodes and then what every
row receives, writes the index, and fills the ids stripe by stripe: a stripe of
nodes has as many as fit the memory, is filled by going through the whole graph
once more, and is written in its place. -/

namespace HiDANN.Reverse

open Bytes Scatter Posix Bisect Format

/-! ### The memory of a stripe -/

/-- The memory budget, what of it is kept back, the part of a number of bytes that
a stripe may fill, and the cap in MiB, zero for none. -/
structure Memory where
  budget : ℕ
  safety : ℕ
  payloadFill : ℕ → ℕ
  maxMib : ℕ

def availForU (m : Memory) (N U : ℕ) : ℕ :=
  let avail := if m.safety < m.budget then m.budget - m.safety else 0
  let overhead := 4 * N + 8 * (N + 1) + 8 * U + 4 * 1024 * 1024
  let fill := m.payloadFill (avail - overhead)
  if U = 0 then 0
  else if avail ≤ overhead then 0
  else if fill = 0 then 0
  else if m.maxMib ≠ 0 then min fill (m.maxMib * 1024 * 1024 % 2 ^ 64)
  else fill

/-- `off_elems`, from the counters. -/
def offElems (cnt : ℕ → ℕ) : ℕ → ℕ := offset cnt

def idsBytesOf (off : ℕ → ℕ) (lo hi : ℕ) : ℕ := (off hi - off lo) * 4

def pickHi (m : Memory) (N : ℕ) (off : ℕ → ℕ) (lo : ℕ) : ℕ :=
  bisect (fun mid => availForU m N (mid - lo) ≠ 0 ∧
    idsBytesOf off lo mid ≤ availForU m N (mid - lo)) (lo + 1) N (lo + 1) (Nat.succ_pos lo)

/-- The end of the stripe at `lo`, with a node at least. -/
def stripeEnd (m : Memory) (N : ℕ) (off : ℕ → ℕ) (lo : ℕ) : ℕ :=
  if pickHi m N off lo ≤ lo then lo + 1 else pickHi m N off lo

theorem lt_stripeEnd (m : Memory) (N : ℕ) (off : ℕ → ℕ) (lo : ℕ) : lo < stripeEnd m N off lo := by
  unfold stripeEnd
  split_ifs <;> omega

theorem stripeEnd_le (m : Memory) {N : ℕ} (off : ℕ → ℕ) {lo : ℕ} (h : lo < N) :
    stripeEnd m N off lo ≤ N := by
  have hle : pickHi m N off lo ≤ N := by
    unfold pickHi
    rcases bisect_mem _ (lo + 1) (Nat.succ_pos lo) with he | he
    · rw [he]
      exact h
    · exact he.2
  unfold stripeEnd
  split_ifs <;> omega

/-! ### Filling a stripe -/

/-- The stripe buffer and the cursors, in bytes. -/
abbrev Stripe : Type := (ℕ → UInt8) × (ℕ → ℕ)

/-- A neighbour of `u`: where it lies in the stripe it gets `u`. -/
def reverseStep (lo hi stripeBytes u : ℕ) (s : Stripe) (v : ℕ) : Except String Stripe :=
  if lo ≤ v ∧ v < hi then
    if stripeBytes < s.2 (v - lo) + 4 then .error "cursor overflow"
    else .ok (fillStep s (v - lo, le 4 u))
  else .ok s

/-- The neighbours of `u` for its own row. The copy is not checked; one past the end
of the buffer has no meaning and stands as an error of its own. -/
def forwardStep (lo hi stripeBytes u : ℕ) (nbr : List ℕ) (s : Stripe) : Except String Stripe :=
  if lo ≤ u ∧ u < hi then
    if stripeBytes < s.2 (u - lo) + 4 * nbr.length then .error "write past the buffer"
    else .ok (fillStep s (u - lo, cells 4 nbr))
  else .ok s

def stripeNode (lo hi stripeBytes : ℕ) (nbr : ℕ → List ℕ) (s : Stripe) (u : ℕ) :
    Except String Stripe :=
  match forwardStep lo hi stripeBytes u (nbr u) s with
  | .error e => .error e
  | .ok s => (nbr u).foldlM (reverseStep lo hi stripeBytes u) s

/-- A stripe: scan the graph, fill, check the cursors, write. -/
def fillStripe (N : ℕ) (off : ℕ → ℕ) (graph : List UInt8) (lo hi : ℕ) (mem : ℕ → UInt8)
    (ids : List UInt8) : Except String ((ℕ → UInt8) × List UInt8) :=
  let stripeBytes := idsBytesOf off lo hi
  match scanNodes N graph with
  | .error e => .error e
  | .ok adj =>
    match (List.range N).foldlM (stripeNode lo hi stripeBytes fun u => adj.getD u [])
        (mem, fun i => (off (lo + i) - off lo) * 4) with
    | .error e => .error e
    | .ok s =>
      if (List.range (hi - lo)).any fun i => s.2 i ≠ (off (lo + i + 1) - off lo) * 4 then
        .error "stripe fill mismatch"
      else .ok (s.1, pwriteAll (64 * 1024 * 1024) (32 + off lo * 4)
        ((List.range stripeBytes).map s.1) ids 0)

/-- The stripes from `lo` on; one without ids is passed over. -/
def stripeLoop (m : Memory) (N : ℕ) (off : ℕ → ℕ) (graph : List UInt8) (lo : ℕ)
    (mem : ℕ → UInt8) (ids : List UInt8) : Except String (List UInt8) :=
  if lo < N then
    if idsBytesOf off lo (stripeEnd m N off lo) = 0 then
      stripeLoop m N off graph (stripeEnd m N off lo) mem ids
    else match fillStripe N off graph lo (stripeEnd m N off lo) mem ids with
      | .error e => .error e
      | .ok (mem, ids) => stripeLoop m N off graph (stripeEnd m N off lo) mem ids
  else .ok ids
termination_by N - lo
decreasing_by
  · have := lt_stripeEnd m N off lo
    omega
  · have := lt_stripeEnd m N off lo
    omega

/-! ### The program -/

@[irreducible] def rowBlockRows : ℕ := 2 ^ 20

theorem rowBlockRows_pos : 0 < rowBlockRows := by norm_num [rowBlockRows]

def writeRows (N : ℕ) (cnt off : ℕ → ℕ) (base : ℕ) (file : List UInt8) : List UInt8 :=
  if base < N then
    let rows := min rowBlockRows (N - base)
    writeRows N cnt off (base + rowBlockRows) (pwriteAll maxRwCount file.length
      ((List.range rows).flatMap fun i => candIdxRow (off (base + i) * 4) (cnt (base + i))) file 0)
  else file
termination_by N - base
decreasing_by
  have := rowBlockRows_pos
  omega

/-- The ids file before it is filled: the header, and zeros up to its length. -/
def preallocIds (totalIds : ℕ) : Except String (List UInt8) :=
  if totalIds = 0 then .ok (candIdsHdr totalIds)
  else if 2 ^ 63 ≤ 32 + totalIds * 4 then .error "lseek ids prealloc"
  else .ok (overwrite (candIdsHdr totalIds) (32 + totalIds * 4 - 1) [0])

/-- The candidate files of the counters, filled from the records of the graph. -/
def writeFiles (m : Memory) (N : ℕ) (cnt : ℕ → ℕ) (graph : List UInt8) :
    Except String (List UInt8 × List UInt8) :=
  let off := offElems cnt
  let idx := writeRows N cnt off 0 (candIdxHdr N)
  match preallocIds (off N) with
  | .error e => .error e
  | .ok ids =>
    if availForU m N 1 = 0 ∨ availForU m N 1 < idsBytesOf off 0 1 then
      .error "insufficient memory for even a single-node stripe"
    else match stripeLoop m N off graph 0 (fun _ => 0) ids with
      | .error e => .error e
      | .ok ids => .ok (idx, ids)

/-- The program, from the graph file to the candidate files. -/
def reverseEdges (m : Memory) (file : List UInt8) : Except String (List UInt8 × List UInt8) :=
  if file.length < 24 then .error "short read"
  else match countNodes (file.drop 24) with
    | .error e => .error e
    | .ok N =>
      if N = 0 then .error "graph seems empty"
      else match scanChecked N N (file.drop 24) with
        | .error e => .error e
        | .ok adj => writeFiles m N (counts N fun u => adj.getD u []) (file.drop 24)

/-! ### The index -/

theorem writeRows_eq (N : ℕ) (cnt off : ℕ → ℕ) (base : ℕ) (file : List UInt8) :
    writeRows N cnt off base file = file ++
      (List.range' base (N - base)).flatMap fun g => candIdxRow (off g * 4) (cnt g) := by
  fun_induction writeRows N cnt off base file with
  | case1 base file h rows ih =>
    have hrange : List.range' base (N - base) = (List.range rows).map (base + ·) ++
        List.range' (base + rowBlockRows) (N - (base + rowBlockRows)) := by
      rw [← List.range'_eq_map_range]
      rcases Nat.le_total rowBlockRows (N - base) with hle | hle
      · rw [show rows = rowBlockRows from min_eq_left hle, List.range'_append_1]
        congr 1
        omega
      · rw [show rows = N - base from min_eq_right hle,
          Nat.sub_eq_zero_of_le (show N ≤ base + rowBlockRows by omega), List.range'_zero,
          List.append_nil]
    rw [ih, pwriteAll_eq maxRwCount_pos le_rfl, overwrite_end, List.append_assoc, hrange,
      List.flatMap_append, List.flatMap_map]
  | case2 base file h =>
    rw [Nat.sub_eq_zero_of_le (Nat.le_of_not_lt h)]
    simp

/-- Counters that hold the lengths of the rows give the index of the rows. -/
theorem writeRows_candIdx {N : ℕ} {cnt : ℕ → ℕ} {r : ℕ → List ℕ}
    (hcnt : ∀ v < N, cnt v = (r v).length) :
    writeRows N cnt (offElems cnt) 0 (candIdxHdr N) = candIdx N r := by
  rw [writeRows_eq, candIdx, List.range_eq_range', Nat.sub_zero]
  congr 1
  refine List.flatMap_congr fun g hg => ?_
  have hg : g < N := by simpa using hg
  rw [hcnt g hg, offElems, rowStart, offset_congr fun v hv => hcnt v (hv.trans hg), Nat.mul_comm]

end HiDANN.Reverse
