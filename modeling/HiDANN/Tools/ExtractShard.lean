import HiDANN.Library.Bytes
import Mathlib.Data.List.AList
import Mathlib.Data.List.Induction

/-! Shard extraction. `extract_shard_data_from_ids` notes for every id the ranks it has in
the id map, reads the base rows once, in chunks, and writes each row it meets to all its
ranks, into a temporary file that has its full length from the start. The scan ends when
no id remains. The temporary file takes the place of the output at the end only; it is a
file of its own, apart from the inputs and the output. -/

namespace HiDANN.Tools.ExtractShard

open Bytes

structure Args where
  baseFbin : String
  idsUint32Bin : String
  outFbin : String
  chunkMb : ℤ

/-- The contents of the files; the last two need not be there. -/
structure Files where
  baseFbin : List UInt8
  idsUint32Bin : List UInt8
  outTmp : Option (List UInt8)
  outFbin : Option (List UInt8)

def readHeader (path : String) (file : List UInt8) : Except String (ℕ × ℕ) :=
  if (file.take 8).length ≠ 8 then .error ("short header: " ++ path)
  else .ok (readLe 4 file 0, readLe 4 file 4)

def readIds (path : String) (file : List UInt8) : Except String (List ℕ) :=
  match readHeader path file with
  | .error e => .error e
  | .ok (n, dim) =>
    if dim ≠ 1 then .error ("expected id-map dim=1, found dim=" ++ toString dim ++ ": " ++ path)
    else if (slice file 8 (n * 4)).length ≠ n * 4 then .error ("short id-map payload: " ++ path)
    else .ok (readCells 4 n (slice file 8 (n * 4)))

/-! ### Positions -/

abbrev Positions := AList fun _ : ℕ => List ℕ

/-- `positions[idx].append(rank)`; a key that is not there has an empty list. -/
def Positions.append (positions : Positions) (idx rank : ℕ) : Positions :=
  positions.insert idx ((positions.lookup idx).getD [] ++ [rank])

def positionsOf (ids : List ℕ) : Positions :=
  ids.zipIdx.foldl (fun positions p => positions.append p.1 p.2) ∅

/-! ### The scan -/

theorem max_one_pos (k : ℕ) : 0 < max 1 k := Nat.lt_of_lt_of_le Nat.one_pos (Nat.le_max_left 1 k)

/-- At least one row, also for a chunk size that is not positive. -/
def chunkRows (chunkMb : ℤ) (rowSize : ℕ) : { k : ℕ // 0 < k } :=
  ⟨max 1 (chunkMb * 1024 * 1024 / rowSize).toNat, max_one_pos _⟩

/-- The header, and a zero where the last row will end. -/
def createTmp (count dim rowSize : ℕ) : List UInt8 :=
  let out := le 4 count ++ le 4 dim
  if count = 0 then out else overwrite out (8 + count * rowSize - 1) [0]

structure Scan where
  out : List UInt8
  positions : Positions
  remaining : ℤ

def writeRow (rowSize : ℕ) (row out : List UInt8) (rank : ℕ) : List UInt8 :=
  overwrite out (8 + rank * rowSize) row

/-- One turn of the loop over a chunk. -/
def takeRow (rowSize idx : ℕ) (row : List UInt8) (s : Scan) : Scan :=
  match s.positions.lookup idx with
  | none => s
  | some ranks =>
    ⟨ranks.foldl (writeRow rowSize row) s.out, s.positions.erase idx, s.remaining - 1⟩

def takeChunk (rowSize base count : ℕ) (buf : List UInt8) (s : Scan) : Scan :=
  (List.range count).foldl
    (fun s i => takeRow rowSize (base + i) (slice buf (i * rowSize) rowSize) s) s

/-- The loop over the chunks, with what of the base file is still to be read, and the
error that leaves it. -/
def scanBase (path : String) (n rowSize : ℕ) (chunkRows : { k : ℕ // 0 < k }) (src : List UInt8)
    (base : ℕ) (s : Scan) : Scan × Option String :=
  if base < n ∧ 0 < s.remaining then
    let count := min chunkRows.val (n - base)
    let buf := src.take (count * rowSize)
    if buf.length ≠ count * rowSize then
      (s, some ("short base read at row " ++ toString base ++ ": " ++ path))
    else
      scanBase path n rowSize chunkRows (src.drop (count * rowSize)) (base + count)
        (takeChunk rowSize base count buf s)
  else (s, none)
termination_by n - base
decreasing_by
  have := chunkRows.property
  omega

/-- The files left behind, and the error or the line printed. -/
def main (args : Args) (fs : Files) : Files × Except String String :=
  match readHeader args.baseFbin fs.baseFbin with
  | .error e => (fs, .error e)
  | .ok (n, dim) =>
    match readIds args.idsUint32Bin fs.idsUint32Bin with
    | .error e => (fs, .error e)
    | .ok ids =>
      if ids.any (n ≤ ·) then
        (fs, .error ("id-map contains an id outside base range 0.." ++ toString ((n : ℤ) - 1)))
      else
        let rowSize := dim * 4
        if rowSize = 0 then (fs, .error "integer division or modulo by zero")
        else
          let positions := positionsOf ids
          match scanBase args.baseFbin n rowSize (chunkRows args.chunkMb rowSize)
              (fs.baseFbin.drop 8) 0
              ⟨createTmp ids.length dim rowSize, positions, positions.keys.length⟩ with
          | (s, some e) => ({ fs with outTmp := some s.out }, .error e)
          | (s, none) =>
            if s.positions.keys ≠ [] then
              ({ fs with outTmp := some s.out },
                .error ("failed to extract " ++ toString s.positions.keys.length ++ " ids"))
            else
              ({ fs with outTmp := none, outFbin := some s.out },
                .ok ("extracted_rows=" ++ toString ids.length ++ " dim=" ++ toString dim ++
                  " output=" ++ args.outFbin))

/-! ### The ranks of an id -/

/-- The places an id has in the id map. -/
def ranksOf (ids : List ℕ) (id : ℕ) : List ℕ :=
  (List.range ids.length).filter fun r => ids[r]? = some id

@[simp] theorem mem_ranksOf {ids : List ℕ} {id r : ℕ} :
    r ∈ ranksOf ids id ↔ ids[r]? = some id := by
  simp only [ranksOf, List.mem_filter, List.mem_range, decide_eq_true_eq, and_iff_right_iff_imp]
  exact fun h => (List.getElem?_eq_some_iff.mp h).1

theorem ranksOf_append (ids : List ℕ) (x id : ℕ) :
    ranksOf (ids ++ [x]) id = ranksOf ids id ++ if x = id then [ids.length] else [] := by
  rw [ranksOf, List.length_append, List.length_singleton, List.range_succ, List.filter_append]
  congr 1
  · apply List.filter_congr
    intro r hr
    rw [List.getElem?_append_left (List.mem_range.mp hr)]
  · by_cases h : x = id <;> simp [h]

theorem ranksOf_of_notMem {ids : List ℕ} {id : ℕ} (h : id ∉ ids) : ranksOf ids id = [] := by
  rw [List.eq_nil_iff_forall_not_mem]
  intro r hr
  exact h (List.mem_of_getElem? (mem_ranksOf.mp hr))

theorem positionsOf_append (ids : List ℕ) (x : ℕ) :
    positionsOf (ids ++ [x]) = (positionsOf ids).append x ids.length := by
  simp [positionsOf, List.zipIdx_append]

theorem lookup_positionsOf (ids : List ℕ) (id : ℕ) :
    (positionsOf ids).lookup id = if id ∈ ids then some (ranksOf ids id) else none := by
  induction ids using List.reverseRecOn with
  | nil => rfl
  | append_singleton ids x ih =>
    rw [positionsOf_append, Positions.append, ranksOf_append]
    by_cases hx : x = id
    · subst hx
      rw [AList.lookup_insert, ih]
      by_cases hmem : x ∈ ids
      · simp [hmem]
      · simp [hmem, ranksOf_of_notMem hmem]
    · rw [AList.lookup_insert_ne (Ne.symm hx), ih]
      simp [hx, Ne.symm hx]

/-! ### Rows -/

structure RowAt (rowSize : ℕ) (file : List UInt8) (rank : ℕ) (row : List UInt8) : Prop where
  length : row.length = rowSize
  hasAt : HasAt file (8 + rank * rowSize) row

theorem row_end_le (rowSize : ℕ) {r k : ℕ} (h : r < k) : r * rowSize + rowSize ≤ k * rowSize := by
  rw [← Nat.succ_mul]
  exact Nat.mul_le_mul_right rowSize h

theorem rowAt_slice {rowSize rank : ℕ} {file : List UInt8}
    (h : 8 + rank * rowSize + rowSize ≤ file.length) :
    RowAt rowSize file rank (slice file (8 + rank * rowSize) rowSize) :=
  ⟨length_slice_of_le h, hasAt_slice rowSize (by omega)⟩

theorem RowAt.le_length {rowSize rank : ℕ} {file row : List UInt8}
    (h : RowAt rowSize file rank row) : 8 + rank * rowSize + rowSize ≤ file.length := by
  have := h.hasAt.le_length
  rwa [h.length] at this

theorem rowAt_writeRow {rowSize : ℕ} {row : List UInt8} (hrow : row.length = rowSize)
    (out : List UInt8) (rank : ℕ) : RowAt rowSize (writeRow rowSize row out rank) rank row :=
  ⟨hrow, hasAt_overwrite out row _⟩

theorem RowAt.writeRow {rowSize r k : ℕ} {out row row' : List UInt8}
    (h : RowAt rowSize out r row') (hrow : row.length = rowSize) (hne : r ≠ k) :
    RowAt rowSize (writeRow rowSize row out k) r row' := by
  refine ⟨h.length, ?_⟩
  rcases Nat.lt_or_gt_of_ne hne with hlt | hgt
  · have := row_end_le rowSize hlt
    exact h.hasAt.overwrite_behind row (by rw [h.length]; omega)
  · have := row_end_le rowSize hgt
    exact h.hasAt.overwrite_before row (by rw [hrow]; omega)

section WriteRanks

variable {rowSize : ℕ} {row : List UInt8} {ranks : List ℕ} {out : List UInt8}

/-- Rows of other ranks stay, and so does the row itself where it is already. -/
theorem RowAt.writeRanks {r : ℕ} {row' : List UInt8} (h : RowAt rowSize out r row')
    (hrow : row.length = rowSize) (hr : r ∈ ranks → row' = row) :
    RowAt rowSize (ranks.foldl (ExtractShard.writeRow rowSize row) out) r row' := by
  induction ranks generalizing out with
  | nil => exact h
  | cons k ranks ih =>
    rw [List.foldl_cons]
    refine ih ?_ fun hmem => hr (List.mem_cons_of_mem k hmem)
    by_cases hk : r = k
    · subst hk
      obtain rfl := hr List.mem_cons_self
      exact rowAt_writeRow hrow out r
    · exact h.writeRow hrow hk

theorem rowAt_writeRanks (hrow : row.length = rowSize) {r : ℕ} (hr : r ∈ ranks) :
    RowAt rowSize (ranks.foldl (writeRow rowSize row) out) r row := by
  induction ranks generalizing out with
  | nil => cases hr
  | cons k ranks ih =>
    rw [List.foldl_cons]
    by_cases hk : r = k
    · subst hk
      exact (rowAt_writeRow hrow out r).writeRanks hrow fun _ => rfl
    · exact ih ((List.mem_cons.mp hr).resolve_left hk)

/-- The header is in front of every row. -/
theorem header_writeRanks {header : List UInt8} (hlen : header.length = 8)
    (h : HasAt out 0 header) : HasAt (ranks.foldl (writeRow rowSize row) out) 0 header := by
  induction ranks generalizing out with
  | nil => exact h
  | cons k ranks ih => exact ih (h.overwrite_behind row (by omega))

theorem length_writeRanks {count : ℕ} (hrow : row.length = rowSize) (hr : ∀ r ∈ ranks, r < count)
    (h : out.length = 8 + count * rowSize) :
    (ranks.foldl (writeRow rowSize row) out).length = 8 + count * rowSize := by
  induction ranks generalizing out with
  | nil => exact h
  | cons k ranks ih =>
    have hend := row_end_le rowSize (hr k List.mem_cons_self)
    refine ih (fun r hmem => hr r (List.mem_cons_of_mem k hmem)) ?_
    rw [writeRow, length_overwrite, hrow, h]
    omega

end WriteRanks

/-! ### The scan, row by row -/

def headerOf (count dim : ℕ) : List UInt8 := le 4 count ++ le 4 dim

@[simp] theorem length_headerOf (count dim : ℕ) : (headerOf count dim).length = 8 := by
  simp [headerOf]

theorem readHeader_eq (path : String) {file : List UInt8} {count dim : ℕ} (hcount : count < 2 ^ 32)
    (hdim : dim < 2 ^ 32) (h : HasAt file 0 (headerOf count dim)) :
    readHeader path file = .ok (count, dim) := by
  have hlen := h.le_length
  rw [length_headerOf] at hlen
  have hfirst := h.left.slice_eq
  have hsecond := h.right.slice_eq
  rw [length_le] at hfirst hsecond
  rw [length_le, Nat.zero_add] at hsecond
  rw [readHeader, if_neg (by rw [List.length_take]; omega), readLe, readLe, hfirst, hsecond,
    val_le_of_lt hcount, val_le_of_lt hdim]

def idMap (ids : List ℕ) : List UInt8 := headerOf ids.length 1 ++ cells 4 ids

theorem readIds_idMap (path : String) {ids : List ℕ} (hlen : ids.length < 2 ^ 32)
    (hids : ∀ id ∈ ids, id < 2 ^ 32) : readIds path (idMap ids) = .ok ids := by
  have hheader : readHeader path (idMap ids) = .ok (ids.length, 1) :=
    readHeader_eq path hlen one_lt_word ⟨[], cells 4 ids, rfl, rfl⟩
  have hslice : slice (idMap ids) 8 (ids.length * 4) = cells 4 ids := by
    have := slice_append_length (headerOf ids.length 1) (cells 4 ids) (ids.length * 4)
    rw [length_headerOf] at this
    rw [idMap, this, List.take_of_length_le (by rw [length_cells]; omega)]
  have hcells := readCells_cells (w := 4) ids hids []
  rw [List.append_nil] at hcells
  rw [readIds, hheader]
  dsimp only
  rw [if_neg (by omega), hslice, if_neg (by rw [length_cells]; omega), hcells]

/-- The base rows before `base` are in place at all ranks of their ids, and the map holds
the ids from `base` on, as many as are counted. -/
structure Scanned (file : List UInt8) (ids : List ℕ) (dim base : ℕ) (s : Scan) : Prop where
  positions : ∀ id, s.positions.lookup id =
    if id ∈ ids ∧ base ≤ id then some (ranksOf ids id) else none
  remaining : s.remaining = s.positions.keys.length
  header : HasAt s.out 0 (headerOf ids.length dim)
  length : s.out.length = 8 + ids.length * (dim * 4)
  rows : ∀ r id, ids[r]? = some id → id < base →
    ∃ row, RowAt (dim * 4) file id row ∧ RowAt (dim * 4) s.out r row

theorem createTmp_scanned (file : List UInt8) (ids : List ℕ) {dim : ℕ} (hdim : 1 ≤ dim) :
    Scanned file ids dim 0 ⟨createTmp ids.length dim (dim * 4), positionsOf ids,
      (positionsOf ids).keys.length⟩ := by
  refine ⟨fun id => ?_, rfl, ?_, ?_, fun r id _ h => absurd h (Nat.not_lt_zero id)⟩
  · rw [lookup_positionsOf]
    simp
  · have hself : HasAt (headerOf ids.length dim) 0 (headerOf ids.length dim) :=
      ⟨[], [], by simp, rfl⟩
    unfold createTmp
    dsimp only
    split_ifs with hzero
    · exact hself
    · have hrows := row_end_le (dim * 4) (Nat.pos_of_ne_zero hzero)
      exact hself.overwrite_behind [0] (by rw [length_headerOf]; omega)
  · unfold createTmp
    dsimp only
    split_ifs with hzero
    · rw [hzero, Nat.zero_mul]
      exact length_headerOf _ dim
    · have hrows := row_end_le (dim * 4) (Nat.pos_of_ne_zero hzero)
      have hheader : (le 4 ids.length ++ le 4 dim).length = 8 := length_headerOf _ dim
      rw [length_overwrite, hheader, List.length_singleton]
      omega

theorem Scanned.skip {file : List UInt8} {ids : List ℕ} {dim base : ℕ} {s : Scan}
    (hs : Scanned file ids dim base s) (hmem : base ∉ ids) :
    Scanned file ids dim (base + 1) s := by
  have hne : ∀ {id}, id ∈ ids → id ≠ base := by
    rintro id hid rfl
    exact hmem hid
  refine ⟨fun id => ?_, hs.remaining, hs.header, hs.length, fun r id hr hid => ?_⟩
  · have hiff : id ∈ ids ∧ base ≤ id ↔ id ∈ ids ∧ base + 1 ≤ id := by
      refine and_congr_right fun hid => ?_
      have := hne hid
      omega
    rw [hs.positions id]
    simp only [hiff]
  · have := hne (List.mem_of_getElem? hr)
    exact hs.rows r id hr (by omega)

theorem Scanned.write {file : List UInt8} {ids : List ℕ} {dim base : ℕ} {s : Scan}
    (hs : Scanned file ids dim base s) (hkey : base ∈ s.positions.keys) {row : List UInt8}
    (hrow : RowAt (dim * 4) file base row) :
    Scanned file ids dim (base + 1) ⟨(ranksOf ids base).foldl (writeRow (dim * 4) row) s.out,
      s.positions.erase base, s.remaining - 1⟩ := by
  refine ⟨fun id => ?_, ?_, header_writeRanks (length_headerOf _ dim) hs.header, ?_,
    fun r id hr hid => ?_⟩
  · by_cases hid : id = base
    · subst hid
      rw [AList.lookup_erase]
      exact (if_neg (by omega)).symm
    · have hiff : id ∈ ids ∧ base ≤ id ↔ id ∈ ids ∧ base + 1 ≤ id :=
        and_congr_right fun _ => by omega
      rw [AList.lookup_erase_ne hid, hs.positions id]
      simp only [hiff]
  · have hpos := List.length_pos_of_mem hkey
    dsimp only
    rw [hs.remaining, AList.keys_erase, List.length_erase_of_mem hkey]
    omega
  · refine length_writeRanks hrow.length (fun r hr => ?_) hs.length
    exact (List.getElem?_eq_some_iff.mp (mem_ranksOf.mp hr)).1
  · by_cases hid' : id = base
    · subst hid'
      exact ⟨row, hrow, rowAt_writeRanks hrow.length (mem_ranksOf.mpr hr)⟩
    · obtain ⟨row', hfile, hout⟩ := hs.rows r id hr (by omega)
      refine ⟨row', hfile, hout.writeRanks hrow.length fun hr' => ?_⟩
      have := (mem_ranksOf.mp hr').symm.trans hr
      exact absurd (Option.some.inj this).symm hid'

theorem mem_keys_of_lookup {positions : Positions} {id : ℕ} {ranks : List ℕ}
    (h : positions.lookup id = some ranks) : id ∈ positions.keys := by
  rw [← AList.mem_keys, ← AList.lookup_isSome, h]
  rfl

theorem Scanned.takeRow {file : List UInt8} {ids : List ℕ} {dim base : ℕ} {s : Scan}
    (hs : Scanned file ids dim base s) {row : List UInt8} (hrow : RowAt (dim * 4) file base row) :
    Scanned file ids dim (base + 1) (takeRow (dim * 4) base row s) := by
  unfold ExtractShard.takeRow
  have hlookup := hs.positions base
  cases hpos : s.positions.lookup base with
  | none =>
    refine hs.skip fun hmem => ?_
    rw [hpos, if_pos ⟨hmem, le_rfl⟩] at hlookup
    cases hlookup
  | some ranks =>
    rw [hpos] at hlookup
    obtain ⟨-, hranks⟩ := Option.ite_none_right_eq_some.mp hlookup.symm
    obtain rfl : ranksOf ids base = ranks := Option.some.inj hranks
    exact hs.write (mem_keys_of_lookup hpos) hrow

theorem Scanned.takeChunk {file : List UInt8} {ids : List ℕ} {dim base count : ℕ} {s : Scan}
    (hs : Scanned file ids dim base s)
    (hfile : 8 + (base + count) * (dim * 4) ≤ file.length) :
    Scanned file ids dim (base + count) (takeChunk (dim * 4) base count
      (slice file (8 + base * (dim * 4)) (count * (dim * 4))) s) := by
  have hprefix : ∀ k ≤ count, Scanned file ids dim (base + k)
      ((List.range k).foldl (fun s i => ExtractShard.takeRow (dim * 4) (base + i)
        (slice (slice file (8 + base * (dim * 4)) (count * (dim * 4))) (i * (dim * 4)) (dim * 4)) s)
        s) := by
    intro k hk
    induction k with
    | zero => exact hs
    | succ k ih =>
      have hin := row_end_le (dim * 4) hk
      have hend := row_end_le (dim * 4) (show base + k < base + count by omega)
      have hpos : 8 + base * (dim * 4) + k * (dim * 4) = 8 + (base + k) * (dim * 4) := by ring
      rw [List.range_succ, List.foldl_append, List.foldl_cons, List.foldl_nil, slice_slice file hin,
        hpos]
      exact (ih (by omega)).takeRow (rowAt_slice (by omega))
  exact hprefix count le_rfl

/-- A scan that ends without an error has taken some rows, all of the base range or all
that were left to look for. -/
theorem scanBase_scanned {file : List UInt8} {ids : List ℕ} {dim n : ℕ} (hdim : 1 ≤ dim)
    (path : String) (chunkRows : { k : ℕ // 0 < k }) (base : ℕ) {s t : Scan}
    (hs : Scanned file ids dim base s)
    (h : scanBase path n (dim * 4) chunkRows (file.drop (8 + base * (dim * 4))) base s =
      (t, none)) :
    ∃ stop, Scanned file ids dim stop t ∧ (n ≤ stop ∨ t.remaining ≤ 0) := by
  rw [scanBase] at h
  split_ifs at h with hgo
  · have hcount := chunkRows.property
    dsimp only at h
    generalize hc : min chunkRows.val (n - base) = count at h
    split_ifs at h with hshort
    · cases h
    · have hpos : 0 < count * (dim * 4) := Nat.mul_pos (by omega) (by omega)
      have hnext : 8 + base * (dim * 4) + count * (dim * 4) = 8 + (base + count) * (dim * 4) := by
        ring
      have hfile : 8 + (base + count) * (dim * 4) ≤ file.length := by
        rw [List.length_take, List.length_drop] at hshort
        omega
      rw [List.drop_drop, hnext, ← slice] at h
      exact scanBase_scanned hdim path chunkRows (base + count) (hs.takeChunk hfile) h
  · cases h
    exact ⟨base, hs, by omega⟩
termination_by n - base
decreasing_by omega

/-- A file that has all its rows is never too short. -/
theorem scanBase_ok {file : List UInt8} {dim n : ℕ} (hfile : 8 + n * (dim * 4) ≤ file.length)
    (path : String) (chunkRows : { k : ℕ // 0 < k }) (base : ℕ) (s : Scan) :
    (scanBase path n (dim * 4) chunkRows (file.drop (8 + base * (dim * 4))) base s).2 = none := by
  rw [scanBase]
  split_ifs with hgo
  · have hcount := chunkRows.property
    dsimp only
    generalize hc : min chunkRows.val (n - base) = count
    have hnext : 8 + base * (dim * 4) + count * (dim * 4) = 8 + (base + count) * (dim * 4) := by
      ring
    have hend := Nat.mul_le_mul_right (dim * 4) (show base + count ≤ n by omega)
    rw [if_neg, List.drop_drop, hnext]
    · exact scanBase_ok hfile path chunkRows (base + count) _
    · rw [List.length_take, List.length_drop]
      omega
  · rfl
termination_by n - base
decreasing_by omega

/-! ### The script -/

/-- What a run that ends normally has done. -/
theorem main_ok {args : Args} {fs : Files} {line : String} (h : (main args fs).2 = .ok line) :
    ∃ n dim ids s, readHeader args.baseFbin fs.baseFbin = .ok (n, dim) ∧
      readIds args.idsUint32Bin fs.idsUint32Bin = .ok ids ∧ (∀ id ∈ ids, id < n) ∧ 1 ≤ dim ∧
      scanBase args.baseFbin n (dim * 4) (chunkRows args.chunkMb (dim * 4)) (fs.baseFbin.drop 8) 0
        ⟨createTmp ids.length dim (dim * 4), positionsOf ids, (positionsOf ids).keys.length⟩ =
          (s, none) ∧
      s.positions.keys = [] ∧ (main args fs).1.outFbin = some s.out := by
  unfold main at h ⊢
  split at h
  next => cases h
  next n dim hheader =>
    split at h
    next => cases h
    next ids hids =>
      split_ifs at h with hrange
      dsimp only at h
      split_ifs at h with hdim
      split at h
      next => cases h
      next s hscan =>
        split_ifs at h with hkeys
        rw [not_ne_iff] at hkeys
        have hlt : ∀ id ∈ ids, id < n := by simpa using hrange
        refine ⟨n, dim, ids, s, hheader, hids, hlt, by omega, hscan, hkeys, ?_⟩
        simp [hrange, hdim, hscan, hkeys]

/-- A run that fails leaves the output as it was. -/
theorem main_error {args : Args} {fs : Files} {e : String} (h : (main args fs).2 = .error e) :
    (main args fs).1.outFbin = fs.outFbin := by
  unfold main at h ⊢
  split
  next => rfl
  next n dim hheader =>
    split
    next => rfl
    next ids hids =>
      dsimp only
      split_ifs with hrange hdim
      · rfl
      · rfl
      · split
        next => rfl
        next s hscan =>
          split_ifs with hkeys
          · rfl
          · simp [hheader, hids, hrange, hdim, hscan, hkeys] at h

/-- The file is the shard of the ids: the header, and at each rank the base row of the id
there, and no more. -/
structure IsShard (base : List UInt8) (dim : ℕ) (ids : List ℕ) (file : List UInt8) : Prop where
  header : HasAt file 0 (headerOf ids.length dim)
  rows : ∀ r (h : r < ids.length),
    ∃ row, RowAt (dim * 4) base ids[r] row ∧ RowAt (dim * 4) file r row
  length : file.length = 8 + ids.length * (dim * 4)

theorem main_isShard {args : Args} {fs : Files} {line : String} {n dim : ℕ} {ids : List ℕ}
    (hbase : readHeader args.baseFbin fs.baseFbin = .ok (n, dim))
    (hids : readIds args.idsUint32Bin fs.idsUint32Bin = .ok ids)
    (h : (main args fs).2 = .ok line) :
    (∀ id ∈ ids, id < n) ∧
      ∃ file, (main args fs).1.outFbin = some file ∧ IsShard fs.baseFbin dim ids file := by
  obtain ⟨n', dim', ids', s, hbase', hids', hlt, hdim, hscan, hkeys, hout⟩ := main_ok h
  rw [hbase] at hbase'
  rw [hids] at hids'
  cases hbase'
  cases hids'
  have hstart := createTmp_scanned fs.baseFbin ids hdim
  obtain ⟨stop, hs, -⟩ := scanBase_scanned hdim args.baseFbin
    (chunkRows args.chunkMb (dim * 4)) 0 hstart (by rwa [Nat.zero_mul])
  refine ⟨hlt, s.out, hout, hs.header, fun r hr => ?_, hs.length⟩
  refine hs.rows r ids[r] (List.getElem?_eq_getElem hr) ?_
  by_contra hstop
  have hlookup := hs.positions ids[r]
  rw [if_pos ⟨List.getElem_mem hr, by omega⟩] at hlookup
  have hkey := mem_keys_of_lookup hlookup
  rw [hkeys] at hkey
  cases hkey

/-- With every id in range and every base row there, the run ends normally. -/
theorem main_finishes {args : Args} {fs : Files} {n dim : ℕ} {ids : List ℕ}
    (hbase : readHeader args.baseFbin fs.baseFbin = .ok (n, dim)) (hdim : 1 ≤ dim)
    (hids : readIds args.idsUint32Bin fs.idsUint32Bin = .ok ids) (hlt : ∀ id ∈ ids, id < n)
    (hfile : 8 + n * (dim * 4) ≤ fs.baseFbin.length) : ∃ line, (main args fs).2 = .ok line := by
  have hstart := createTmp_scanned fs.baseFbin ids hdim
  have hok := scanBase_ok hfile args.baseFbin (chunkRows args.chunkMb (dim * 4)) 0
    ⟨createTmp ids.length dim (dim * 4), positionsOf ids, (positionsOf ids).keys.length⟩
  rw [Nat.zero_mul, Nat.add_zero] at hok
  generalize hscan : scanBase args.baseFbin n (dim * 4) (chunkRows args.chunkMb (dim * 4))
    (fs.baseFbin.drop 8) 0 ⟨createTmp ids.length dim (dim * 4), positionsOf ids,
      (positionsOf ids).keys.length⟩ = ended at hok
  obtain ⟨s, e⟩ := ended
  obtain rfl : e = none := hok
  obtain ⟨stop, hs, hend⟩ := scanBase_scanned hdim args.baseFbin
    (chunkRows args.chunkMb (dim * 4)) 0 hstart (by rwa [Nat.zero_mul])
  have hkeys : s.positions.keys = [] := by
    rcases hend with hstop | hnone
    · rw [List.eq_nil_iff_forall_not_mem]
      intro id hid
      rw [← AList.mem_keys, ← AList.lookup_isSome, hs.positions id, if_neg] at hid
      · cases hid
      · rintro ⟨hmem, hle⟩
        have := hlt id hmem
        omega
    · have hrem := hs.remaining
      exact List.eq_nil_of_length_eq_zero (by omega)
  have hrange : ¬ (ids.any (n ≤ ·)) = true := by simpa using hlt
  have hsize : dim * 4 ≠ 0 := by omega
  unfold main
  simp [hbase, hids, hrange, hsize, hscan, hkeys]

/-- Whatever the chunk size: a run that ends normally leaves the shard of the ids at the
output path; a run with an id out of range, or a base file that ends before a row it needs,
fails and leaves the output as it was. -/
theorem main_gathers (args : Args) (fs : Files) {n dim : ℕ} {ids : List ℕ}
    (hbase : readHeader args.baseFbin fs.baseFbin = .ok (n, dim))
    (hids : readIds args.idsUint32Bin fs.idsUint32Bin = .ok ids) :
    (∀ line, (main args fs).2 = .ok line →
      ∃ file, (main args fs).1.outFbin = some file ∧ IsShard fs.baseFbin dim ids file) ∧
    ((∃ id ∈ ids, n ≤ id ∨ fs.baseFbin.length < 8 + (id + 1) * (dim * 4)) →
      (∃ e, (main args fs).2 = .error e) ∧ (main args fs).1.outFbin = fs.outFbin) := by
  refine ⟨fun line h => (main_isShard hbase hids h).2, ?_⟩
  rintro ⟨id, hmem, hbad⟩
  cases h : (main args fs).2 with
  | error e => exact ⟨⟨e, rfl⟩, main_error h⟩
  | ok line =>
    exfalso
    obtain ⟨hlt, file, -, hshard⟩ := main_isShard hbase hids h
    obtain ⟨r, hr, rfl⟩ := List.getElem_of_mem hmem
    obtain ⟨row, hrow, -⟩ := hshard.rows r hr
    have hin := hlt _ hmem
    have hend := hrow.le_length
    rw [Nat.succ_mul] at hbad
    omega

/-- Three rows of one value, and an id map that repeats the last. -/
def threeRows : Files :=
  ⟨headerOf 3 1 ++ cells 4 [10, 11, 12], idMap [2, 0, 2], none, none⟩

def oneRowChunks : Args := ⟨"base.fbin", "ids.bin", "out.fbin", 0⟩

theorem threeRows_gathered : ∃ file, (main oneRowChunks threeRows).1.outFbin = some file ∧
    IsShard threeRows.baseFbin 1 [2, 0, 2] file := by
  obtain ⟨line, h⟩ := @main_finishes oneRowChunks threeRows 3 1 [2, 0, 2] rfl le_rfl rfl (by decide)
    (by decide)
  exact (main_gathers oneRowChunks threeRows rfl rfl).1 line h

end HiDANN.Tools.ExtractShard
