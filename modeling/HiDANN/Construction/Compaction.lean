import HiDANN.Library.Posix
import HiDANN.Library.Script
import HiDANN.Format.Candidates
import HiDANN.Construction.Buckets
import HiDANN.Construction.BucketLog

/-! Compaction of the bucket logs into the candidate file pair. The logs are
taken in bucket order: a log is read whole, counted, its index rows written, its
ids grouped by node and written with one call, and the log deleted. The program
runs to its end exactly when no bucket holds more ids than one call transfers,
and then leaves the pair of the rows the logs describe. -/

namespace HiDANN.Construction

open Bytes Posix Scatter Script Format

/-! ### The file system -/

inductive CandFile
  | idx
  | ids
  deriving DecidableEq

/-- The files of a construction directory that compaction touches: the candidate
files, the bucket logs, and whether each partition still has its graph and its
`.data` file. -/
@[ext]
structure Files where
  cand : CandFile → List UInt8
  logs : ℕ → Option (List UInt8)
  subindex : ℕ → Bool
  subdata : ℕ → Bool

inductive FsOp
  | truncate (f : CandFile)
  | pwrite (f : CandFile) (off : ℕ) (bs : List UInt8)
  | removeLog (b : ℕ)
  | removeSubindex (t : ℕ)
  | removeSubdata (t : ℕ)

def FsOp.apply (fs : Files) : FsOp → Files
  | .truncate f => { fs with cand := Function.update fs.cand f [] }
  | .pwrite f off bs =>
    { fs with cand := Function.update fs.cand f (overwrite (fs.cand f) off bs) }
  | .removeLog b => { fs with logs := Function.update fs.logs b none }
  | .removeSubindex t => { fs with subindex := Function.update fs.subindex t false }
  | .removeSubdata t => { fs with subdata := Function.update fs.subdata t false }

instance : Effect Files FsOp := ⟨FsOp.apply⟩

abbrev Proc := Prog Files FsOp String

/-- A positioned write that dies when fewer bytes are transferred than asked for. -/
def pwrite (f : CandFile) (off : ℕ) (bs : List UInt8) (msg : String) : Proc PUnit := do
  Prog.issue (.pwrite f off (bs.take maxRwCount))
  if bs.length ≤ maxRwCount then pure ⟨⟩ else Prog.die msg

/-! ### The program -/

/-- The records of a log whose gid lies in the bucket's range, keyed by the
position in the range. -/
def Buckets.inRange (c : Buckets) (b : ℕ) (blob : List UInt8) : List (ℕ × List ℕ) :=
  ((scanLog blob).filter fun p => c.bucketBase b ≤ p.1 ∧ p.1 < c.bucketLimit b).map
    fun p => (p.1 - c.bucketBase b, p.2)

/-- `sum_b`. -/
def idCount (items : List (ℕ × List ℕ)) : ℕ := (items.map fun p => p.2.length).sum

/-- One round of the bucket loop. A missing log reads as an empty one. A record
without ids, which the second pass skips, stores nothing. -/
def compactBucket (c : Buckets) (accIds b : ℕ) : Proc ℕ :=
  if c.bucketLimit b ≤ c.bucketBase b then pure accIds
  else do
    let blob ← Prog.look fun fs => (fs.logs b).getD []
    let items := c.inRange b blob
    let counts := tally (2 ^ 32) items
    let start := offset counts
    (List.range (c.bucketLimit b - c.bucketBase b)).forM fun u =>
      pwrite .idx (32 + 16 * (c.bucketBase b + u))
        (candIdxRow (4 * (accIds + start u)) (counts u)) "write idx row"
    (if 0 < idCount items then
      pwrite .ids (32 + 4 * accIds)
        (cells 4 ((List.range (idCount items)).map (fill (fun _ => 0, start) items).1))
        "pwrite cand.ids bucket"
    else pure ⟨⟩)
    (if blob = [] then pure ⟨⟩ else Prog.issue (.removeLog b))
    pure (accIds + idCount items)

def removeSubindexes (P : ℕ) : Proc PUnit :=
  (List.range P).forM fun t => do
    Prog.issue (.removeSubindex t)
    Prog.issue (.removeSubdata t)

/-- Create both files with a header; the ids header has no total yet. -/
def openCandidates (N : ℕ) : Proc PUnit := do
  Prog.issue (.truncate .idx)
  Prog.issue (.truncate .ids)
  pwrite .idx 0 (candIdxHdr N) "write idx hdr"
  pwrite .ids 0 (candIdsHdr 0) "write ids hdr"

def compaction (c : Buckets) (P : ℕ) (keepSubindex : Bool) : Proc PUnit := do
  openCandidates c.N
  let accIds ← (List.range c.B).foldlM (compactBucket c) 0
  pwrite .ids 0 (candIdsHdr accIds) "rewrite ids hdr"
  if keepSubindex then pure ⟨⟩ else removeSubindexes P

/-- Every partition still has its files. -/
def Files.hasSubindexes (fs : Files) (P : ℕ) : Bool :=
  (List.range P).all fun t => fs.subindex t && fs.subdata t

/-- A process started with `--stage compact`. -/
def compactStage (c : Buckets) (P : ℕ) (keepSubindex : Bool) : Proc PUnit := do
  let present ← Prog.look fun fs => fs.hasSubindexes P
  if present then compaction c P keepSubindex
  else Prog.die "missing subindex files for requested stage"

/-! ### The smallest construction -/

def oneNode : Buckets := ⟨1, 1, by norm_num, by norm_num⟩

/-- The node `0` with itself as a candidate. -/
def selfRecord : Record := ⟨0, [0], by norm_num, by simp, by simp, by simp⟩

def oneLog : Files :=
  ⟨fun _ => [], fun _ => some (encodeAll [selfRecord]), fun _ => true, fun _ => true⟩

/-! ### Rows of a bucket -/

/-- The bytes compaction reads for a bucket. -/
def Files.log (fs : Files) (b : ℕ) : List UInt8 := (fs.logs b).getD []

/-- The ids the logs hold for a node. -/
def logRow (c : Buckets) (fs : Files) (g : ℕ) : List ℕ := row (scanLog (fs.log (c.gidToBucket g))) g

def bucketIds (c : Buckets) (fs : Files) (b : ℕ) : ℕ := idCount (c.inRange b (fs.log b))

section Rows

variable (c : Buckets) (fs : Files) (b : ℕ)

theorem inRange_lt (blob : List UInt8) :
    ∀ p ∈ c.inRange b blob, p.1 < c.bucketLimit b - c.bucketBase b := by
  intro p hp
  simp only [Buckets.inRange, List.mem_map, List.mem_filter, decide_eq_true_eq] at hp
  obtain ⟨q, ⟨-, h1, h2⟩, rfl⟩ := hp
  simp only
  omega

theorem row_inRange (blob : List UInt8) {u : ℕ} (hu : c.bucketBase b + u < c.bucketLimit b) :
    row (c.inRange b blob) u = row (scanLog blob) (c.bucketBase b + u) := by
  have hkey := row_map_key (fun g => g - c.bucketBase b)
    ((scanLog blob).filter fun p => c.bucketBase b ≤ p.1 ∧ p.1 < c.bucketLimit b)
    (c.bucketBase b + u) (by
      intro p hp he
      simp only [List.mem_filter, decide_eq_true_eq] at hp
      omega)
  rw [Nat.add_sub_cancel_left] at hkey
  rw [Buckets.inRange, hkey]
  exact row_filter (fun g => c.bucketBase b ≤ g ∧ g < c.bucketLimit b) _ _ (by simpa using hu)

theorem row_inRange_log {u : ℕ} (hu : c.bucketBase b + u < c.bucketLimit b) :
    row (c.inRange b (fs.log b)) u = logRow c fs (c.bucketBase b + u) := by
  rw [row_inRange c b _ hu, logRow, c.gidToBucket_of_mem (by omega) hu]

theorem bucketIds_eq : bucketIds c fs b =
    offset (fun u => (logRow c fs (c.bucketBase b + u)).length)
      (c.bucketLimit b - c.bucketBase b) := by
  rw [bucketIds, idCount, sum_lengths (inRange_lt c b _)]
  exact offset_congr fun u hu => by rw [row_inRange_log c fs b (by omega)]

/-- The rows of the next bucket start where this bucket's ids end. -/
theorem rowStart_limit : rowStart (logRow c fs) (c.bucketLimit b) =
    rowStart (logRow c fs) (c.bucketBase b) + bucketIds c fs b := by
  have hle := c.bucketBase_le_limit b
  have h := offset_add (fun v => (logRow c fs v).length) (c.bucketBase b)
    (c.bucketLimit b - c.bucketBase b)
  rw [Nat.add_sub_cancel' hle] at h
  rw [rowStart, h, ← bucketIds_eq]
  rfl

theorem length_row_le_bucketIds {u : ℕ} (hu : c.bucketBase b + u < c.bucketLimit b) :
    (logRow c fs (c.bucketBase b + u)).length ≤ bucketIds c fs b := by
  rw [bucketIds_eq]
  have := offset_add_len_le (fun u => (logRow c fs (c.bucketBase b + u)).length)
    (u := u) (v := c.bucketLimit b - c.bucketBase b) (by omega)
  omega

end Rows

/-! ### Running it -/

section Run

variable {fs : Files} {f : CandFile} {off : ℕ} {bs : List UInt8} {msg : String}

variable (fs f off bs msg) in
theorem pwrite_ends (h : bs.length ≤ maxRwCount) :
    Prog.Ends (pwrite f off bs msg) fs ⟨⟩ (FsOp.apply fs (.pwrite f off bs)) := by
  unfold pwrite
  rw [if_pos h, List.take_of_length_le h]
  exact (Prog.ends_issue _ _).bind (Prog.ends_pure _ _)

variable (fs f off bs msg) in
theorem pwrite_append (h : bs.length ≤ maxRwCount) (hoff : off = (fs.cand f).length) :
    Prog.Ends (pwrite f off bs msg) fs ⟨⟩
      { fs with cand := Function.update fs.cand f (fs.cand f ++ bs) } := by
  subst hoff
  have := pwrite_ends fs f (fs.cand f).length bs msg h
  rwa [FsOp.apply, overwrite_end] at this

theorem pwrite_dies (h : maxRwCount < bs.length) : (pwrite f off bs msg).Dies fs := by
  unfold pwrite
  rw [if_neg (by omega)]
  exact (Prog.ends_issue _ _).dies_bind (Prog.dies_die _ _)

end Run

/-- The index file once the rows below `n` are written. -/
def idxTo (c : Buckets) (row : ℕ → List ℕ) (n : ℕ) : List UInt8 :=
  candIdxHdr c.N ++ (List.range n).flatMap fun g => candIdxRow (4 * rowStart row g) (row g).length

/-- The ids file, under its first header, once the ids of the nodes below `n` are written. -/
def idsTo (row : ℕ → List ℕ) (n : ℕ) : List UInt8 :=
  candIdsHdr 0 ++ cells 4 ((List.range n).flatMap row)

section Steps

variable (c : Buckets) (fs : Files)

/-- The files when the buckets below `n` are done. -/
def afterBuckets (n : ℕ) : Files where
  cand
    | .idx => idxTo c (logRow c fs) (c.bucketBase n)
    | .ids => idsTo (logRow c fs) (c.bucketBase n)
  logs b := if b < n ∧ c.bucketBase b < c.bucketLimit b ∧ fs.log b ≠ [] then none else fs.logs b
  subindex := fs.subindex
  subdata := fs.subdata

theorem length_idxTo (row : ℕ → List ℕ) (n : ℕ) : (idxTo c row n).length = 32 + 16 * n := by
  rw [idxTo, List.length_append, length_candIdxHdr, length_flatMap_const (w := 16) _ _ (by simp),
    List.length_range]

theorem length_idsTo (row : ℕ → List ℕ) (n : ℕ) :
    (idsTo row n).length = 32 + 4 * rowStart row n := by
  rw [idsTo, List.length_append, length_candIdsHdr, length_cells, length_rows]
  rfl

theorem idxTo_succ (row : ℕ → List ℕ) (n : ℕ) :
    idxTo c row n ++ candIdxRow (4 * rowStart row n) (row n).length = idxTo c row (n + 1) := by
  simp [idxTo, List.range_succ]

theorem idsTo_append (row : ℕ → List ℕ) (n m : ℕ) :
    idsTo row n ++ cells 4 ((List.range m).flatMap fun u => row (n + u)) = idsTo row (n + m) := by
  rw [idsTo, idsTo, List.range_add, List.flatMap_append, List.flatMap_map, cells_append,
    List.append_assoc]

/-- The counters hold the row lengths, and the prefix sums are the row starts. -/
theorem counts_eq {b : ℕ} (h : 4 * bucketIds c fs b ≤ maxRwCount) {u : ℕ}
    (hu : c.bucketBase b + u < c.bucketLimit b) :
    tally (2 ^ 32) (c.inRange b (fs.log b)) u = (logRow c fs (c.bucketBase b + u)).length := by
  have := length_row_le_bucketIds c fs b hu
  rw [tally_eq, row_inRange_log c fs b hu, Nat.mod_eq_of_lt]
  rw [maxRwCount] at h
  omega

theorem start_eq {b : ℕ} (h : 4 * bucketIds c fs b ≤ maxRwCount) {u : ℕ}
    (hu : c.bucketBase b + u ≤ c.bucketLimit b) :
    rowStart (logRow c fs) (c.bucketBase b) + offset (tally (2 ^ 32) (c.inRange b (fs.log b))) u =
      rowStart (logRow c fs) (c.bucketBase b + u) := by
  rw [rowStart, rowStart, offset_add,
    offset_congr fun v hv => counts_eq c fs h (u := v) (by omega)]

theorem outIds_eq {b : ℕ} (h : 4 * bucketIds c fs b ≤ maxRwCount) :
    (List.range (bucketIds c fs b)).map
        (fill (fun _ => 0, offset (tally (2 ^ 32) (c.inRange b (fs.log b))))
          (c.inRange b (fs.log b))).1 =
      (List.range (c.bucketLimit b - c.bucketBase b)).flatMap
        fun u => logRow c fs (c.bucketBase b + u) := by
  have hlen : ∀ u < c.bucketLimit b - c.bucketBase b,
      (row (c.inRange b (fs.log b)) u).length = tally (2 ^ 32) (c.inRange b (fs.log b)) u := by
    intro u hu
    rw [counts_eq c fs h (by omega), row_inRange_log c fs b (by omega)]
  have hfill := fill_eq_rows (fun _ => 0) (c.inRange b (fs.log b)) (inRange_lt c b _) hlen
  rw [bucketIds, idCount, sum_lengths (inRange_lt c b _), offset_congr hlen, hfill]
  exact List.flatMap_congr fun u hu =>
    row_inRange_log c fs b (by have := List.mem_range.mp hu; omega)

theorem afterBuckets_logs (b : ℕ) : (afterBuckets c fs b).logs b = fs.logs b := by
  simp [afterBuckets]

/-- The row loop appends the index rows of the bucket. -/
theorem rows_end {b : ℕ} (h : 4 * bucketIds c fs b ≤ maxRwCount) :
    Prog.Ends ((List.range (c.bucketLimit b - c.bucketBase b)).forM fun u =>
        pwrite .idx (32 + 16 * (c.bucketBase b + u))
          (candIdxRow (4 * (rowStart (logRow c fs) (c.bucketBase b) +
            offset (tally (2 ^ 32) (c.inRange b (fs.log b))) u))
            (tally (2 ^ 32) (c.inRange b (fs.log b)) u)) "write idx row")
      (afterBuckets c fs b) ⟨⟩
      { afterBuckets c fs b with
        cand := Function.update (afterBuckets c fs b).cand .idx
          (idxTo c (logRow c fs) (c.bucketLimit b)) } := by
  have hle := c.bucketBase_le_limit b
  have hloop := Prog.Ends.forM_range (ε := String)
    (g := fun u => pwrite .idx (32 + 16 * (c.bucketBase b + u))
      (candIdxRow (4 * (rowStart (logRow c fs) (c.bucketBase b) +
        offset (tally (2 ^ 32) (c.inRange b (fs.log b))) u))
        (tally (2 ^ 32) (c.inRange b (fs.log b)) u)) "write idx row")
    (fun u => ({ afterBuckets c fs b with
      cand := Function.update (afterBuckets c fs b).cand .idx
        (idxTo c (logRow c fs) (c.bucketBase b + u)) } : Files))
    (c.bucketLimit b - c.bucketBase b) ?_
  · rw [Nat.add_sub_cancel' hle] at hloop
    have hstart : ({ afterBuckets c fs b with
        cand := Function.update (afterBuckets c fs b).cand .idx
          (idxTo c (logRow c fs) (c.bucketBase b + 0)) } : Files) = afterBuckets c fs b := by
      rw [Nat.add_zero]
      exact Files.ext (Function.update_eq_self CandFile.idx _) rfl rfl rfl
    simp only [hstart] at hloop
    exact hloop
  · intro u hu
    rw [start_eq c fs h (by omega), counts_eq c fs h (by omega)]
    have := pwrite_append ({ afterBuckets c fs b with
        cand := Function.update (afterBuckets c fs b).cand .idx
          (idxTo c (logRow c fs) (c.bucketBase b + u)) } : Files) .idx
      (32 + 16 * (c.bucketBase b + u))
      (candIdxRow (4 * rowStart (logRow c fs) (c.bucketBase b + u))
        (logRow c fs (c.bucketBase b + u)).length) "write idx row"
      (by simp [maxRwCount]) (by simp [length_idxTo])
    simpa [idxTo_succ, ← Nat.add_assoc, Function.update_idem] using this

theorem length_outIds (n : ℕ) (mem : ℕ → ℕ) :
    (cells 4 ((List.range n).map mem)).length = 4 * n := by simp

theorem ids_end {b : ℕ} (h : 4 * bucketIds c fs b ≤ maxRwCount) (fs' : Files)
    (hids : fs'.cand .ids = idsTo (logRow c fs) (c.bucketBase b)) :
    Prog.Ends (if 0 < bucketIds c fs b then
        pwrite .ids (32 + 4 * rowStart (logRow c fs) (c.bucketBase b))
          (cells 4 ((List.range (bucketIds c fs b)).map
            (fill (fun _ => 0, offset (tally (2 ^ 32) (c.inRange b (fs.log b))))
              (c.inRange b (fs.log b))).1)) "pwrite cand.ids bucket"
      else pure ⟨⟩) fs' ⟨⟩
      { fs' with
        cand := Function.update fs'.cand .ids (idsTo (logRow c fs) (c.bucketLimit b)) } := by
  have hle := c.bucketBase_le_limit b
  have happ := idsTo_append (logRow c fs) (c.bucketBase b) (c.bucketLimit b - c.bucketBase b)
  rw [Nat.add_sub_cancel' hle, ← outIds_eq c fs h] at happ
  split_ifs with hpos
  · rw [← happ, ← hids]
    exact pwrite_append _ _ _ _ _ (by rw [length_outIds]; exact h) (by rw [hids, length_idsTo])
  · -- no ids, nothing to append
    have h0 : bucketIds c fs b = 0 := by omega
    rw [h0] at happ
    have hsame : ({ fs' with
        cand := Function.update fs'.cand .ids (idsTo (logRow c fs) (c.bucketLimit b)) } : Files) =
        fs' := by
      rw [← happ, ← hids]
      exact Files.ext (by simp) rfl rfl rfl
    rw [hsame]
    exact Prog.ends_pure _ _

theorem afterBuckets_empty {b : ℕ} (h : c.bucketLimit b ≤ c.bucketBase b) :
    afterBuckets c fs (b + 1) = afterBuckets c fs b := by
  have hbase : c.bucketBase (b + 1) = c.bucketBase b := by
    rw [c.bucketBase_succ]
    exact le_antisymm h (c.bucketBase_le_limit b)
  refine Files.ext ?_ ?_ rfl rfl
  · simp only [afterBuckets, hbase]
  · funext b'
    simp only [afterBuckets]
    by_cases hb : b' = b
    · subst hb
      simp [Nat.not_lt.mpr h]
    · have : b' < b + 1 ↔ b' < b := by omega
      simp only [this]

theorem afterBuckets_succ {b : ℕ} (h : c.bucketBase b < c.bucketLimit b) :
    afterBuckets c fs (b + 1) =
      { cand := Function.update (Function.update (afterBuckets c fs b).cand .idx
          (idxTo c (logRow c fs) (c.bucketLimit b)))
          CandFile.ids (idsTo (logRow c fs) (c.bucketLimit b))
        logs := if fs.log b = [] then (afterBuckets c fs b).logs
          else Function.update (afterBuckets c fs b).logs b none
        subindex := fs.subindex
        subdata := fs.subdata } := by
  refine Files.ext ?_ ?_ rfl rfl
  · funext f
    cases f <;> rfl
  · funext b'
    simp only [afterBuckets]
    by_cases hb : b' = b
    · subst hb
      by_cases hlog : fs.log b' = [] <;> simp [hlog, h]
    · have : b' < b + 1 ↔ b' < b := by omega
      split_ifs <;> simp_all

theorem log_afterBuckets (b : ℕ) : ((afterBuckets c fs b).logs b).getD [] = fs.log b := by
  rw [afterBuckets_logs, Files.log]

/-- A bucket within the limit is added to the pair. -/
theorem compactBucket_ends {b : ℕ} (h : 4 * bucketIds c fs b ≤ maxRwCount) :
    Prog.Ends (compactBucket c (rowStart (logRow c fs) (c.bucketBase b)) b)
      (afterBuckets c fs b) (rowStart (logRow c fs) (c.bucketBase (b + 1)))
      (afterBuckets c fs (b + 1)) := by
  rw [c.bucketBase_succ]
  unfold compactBucket
  split_ifs with hle
  · rw [afterBuckets_empty c fs hle, ← le_antisymm hle (c.bucketBase_le_limit b)]
    exact Prog.ends_pure _ _
  · rw [afterBuckets_succ c fs (Nat.lt_of_not_le hle)]
    refine (Prog.ends_look _ _).bind ?_
    rw [log_afterBuckets]
    refine (rows_end c fs h).bind ((ids_end c fs h _ ?_).bind ?_)
    · rfl
    · rw [rowStart_limit]
      split_ifs with hlog
      · exact (Prog.ends_pure _ _).bind (Prog.ends_pure _ _)
      · exact (Prog.ends_issue _ _).bind (Prog.ends_pure _ _)

theorem rowLoop_ends (n : ℕ) (off : ℕ → ℕ) (o cnt : ℕ → ℕ) (fs : Files) :
    ∃ fs', Prog.Ends ((List.range n).forM fun u =>
      pwrite .idx (off u) (candIdxRow (o u) (cnt u)) "write idx row") fs ⟨⟩ fs' := by
  refine ⟨_, Prog.Ends.forM_range (fun u => exec fs ((List.range u).map fun v =>
    FsOp.pwrite .idx (off v) (candIdxRow (o v) (cnt v)))) n fun u _ => ?_⟩
  have := pwrite_ends (exec fs ((List.range u).map fun v =>
      FsOp.pwrite .idx (off v) (candIdxRow (o v) (cnt v))))
    .idx (off u) (candIdxRow (o u) (cnt u)) "write idx row"
    (by simp [maxRwCount])
  rw [List.range_succ, List.map_append, exec_append]
  exact this

theorem compactBucket_dies {b : ℕ} (h : maxRwCount < 4 * bucketIds c fs b) :
    (compactBucket c (rowStart (logRow c fs) (c.bucketBase b)) b).Dies (afterBuckets c fs b) := by
  have hpos : 0 < bucketIds c fs b := by rw [maxRwCount] at h; omega
  unfold compactBucket
  split_ifs with hle
  · -- an empty range holds no ids
    rw [bucketIds_eq, Nat.sub_eq_zero_of_le hle] at hpos
    simp [offset] at hpos
  · refine (Prog.ends_look _ _).dies_bind ?_
    rw [log_afterBuckets]
    obtain ⟨fs', he⟩ := rowLoop_ends _ _ _ _ (afterBuckets c fs b)
    refine he.dies_bind (Prog.Dies.bind ?_ _)
    rw [bucketIds] at h hpos
    rw [if_pos hpos]
    exact pwrite_dies (by rw [length_outIds]; exact h)

/-! ### Complete runs -/

/-- The files after a compaction that runs to its end. -/
def compacted (P : ℕ) (keepSubindex : Bool) : Files where
  cand
    | .idx => candIdx c.N (logRow c fs)
    | .ids => candIds c.N (logRow c fs)
  logs := (afterBuckets c fs c.B).logs
  subindex t := (keepSubindex || decide (P ≤ t)) && fs.subindex t
  subdata t := (keepSubindex || decide (P ≤ t)) && fs.subdata t

/-- No bucket holds more ids than one write transfers. -/
def WithinLimit : Prop := ∀ b < c.B, 4 * bucketIds c fs b ≤ maxRwCount

instance : Decidable (WithinLimit c fs) :=
  inferInstanceAs (Decidable (∀ b < c.B, 4 * bucketIds c fs b ≤ maxRwCount))

theorem removeSubindexes_ends (P : ℕ) : Prog.Ends (removeSubindexes P) fs ⟨⟩
    { fs with
      subindex := fun t => decide (P ≤ t) && fs.subindex t
      subdata := fun t => decide (P ≤ t) && fs.subdata t } := by
  have h := Prog.Ends.forM_range (ε := String)
    (g := fun t => do
      Prog.issue (.removeSubindex t)
      Prog.issue (.removeSubdata t))
    (fun n => ({ fs with
      subindex := fun t => decide (n ≤ t) && fs.subindex t
      subdata := fun t => decide (n ≤ t) && fs.subdata t } : Files)) P ?_
  · simp only [Nat.zero_le, decide_true, Bool.true_and] at h
    exact h
  · intro n _
    refine (Prog.ends_issue _ _).bind ((Prog.ends_issue _ _).cast ?_)
    refine Files.ext rfl rfl ?_ ?_
    all_goals
      funext t
      by_cases ht : t = n
      · subst ht; simp [Effect.apply, FsOp.apply]
      · have : n + 1 ≤ t ↔ n ≤ t := by omega
        simp [Effect.apply, FsOp.apply, Function.update_of_ne ht, this]

theorem openCandidates_ends :
    Prog.Ends (openCandidates c.N) fs ⟨⟩ (afterBuckets c fs 0) := by
  unfold openCandidates
  refine (Prog.ends_issue _ _).bind ((Prog.ends_issue _ _).bind
    ((pwrite_append _ _ _ _ _ ?_ ?_).bind ?_))
  · simp [maxRwCount]
  · simp [Effect.apply, FsOp.apply]
  · refine (pwrite_append _ _ _ _ _ ?_ ?_).cast (Files.ext ?_ ?_ rfl rfl)
    · simp [maxRwCount]
    · simp [Effect.apply, FsOp.apply]
    · funext f
      cases f <;> simp [Effect.apply, FsOp.apply, afterBuckets, idxTo, idsTo]
    · funext b
      simp [afterBuckets, Effect.apply, FsOp.apply]

theorem compaction_ends (P : ℕ) (keepSubindex : Bool) (h : WithinLimit c fs) :
    Prog.Ends (compaction c P keepSubindex) fs ⟨⟩ (compacted c fs P keepSubindex) := by
  have hloop := Prog.Ends.foldlM_range (g := compactBucket c)
    (fun n => rowStart (logRow c fs) (c.bucketBase n)) (afterBuckets c fs) c.B
    (fun b hb => compactBucket_ends c fs (h b hb))
  rw [c.bucketBase_B, c.bucketBase_zero] at hloop
  unfold compaction
  refine (openCandidates_ends c fs).bind (hloop.bind ((pwrite_ends _ _ _ _ _ ?_).bind ?_))
  · simp [maxRwCount]
  · have hids : overwrite (idsTo (logRow c fs) c.N) 0 (candIdsHdr (rowStart (logRow c fs) c.N)) =
        candIds c.N (logRow c fs) := overwrite_front _ _ _ (by simp)
    have hcand : Function.update (afterBuckets c fs c.B).cand .ids
        (overwrite ((afterBuckets c fs c.B).cand .ids) 0
          (candIdsHdr (rowStart (logRow c fs) c.N))) = (compacted c fs P keepSubindex).cand := by
      funext f
      cases f <;> simp [compacted, afterBuckets, c.bucketBase_B, hids, idxTo, candIdx]
    cases keepSubindex with
    | true => exact (Prog.ends_pure _ _).cast (Files.ext hcand rfl (by simp [compacted,
        FsOp.apply, afterBuckets]) (by simp [compacted, FsOp.apply, afterBuckets]))
    | false => exact (removeSubindexes_ends _ P).cast (Files.ext hcand rfl (by simp [compacted,
        FsOp.apply, afterBuckets]) (by simp [compacted, FsOp.apply, afterBuckets]))

theorem compaction_dies (P : ℕ) (keepSubindex : Bool) (h : ¬ WithinLimit c fs) :
    (compaction c P keepSubindex).Dies fs := by
  have hex : ∃ b, b < c.B ∧ maxRwCount < 4 * bucketIds c fs b := by
    simpa [WithinLimit] using h
  classical
  -- the first bucket beyond the limit
  obtain ⟨hlt, hbad⟩ := Nat.find_spec hex
  have hmin : ∀ b < Nat.find hex, 4 * bucketIds c fs b ≤ maxRwCount := by
    intro b hb
    have := Nat.find_min hex hb
    have : b < c.B := hb.trans hlt
    omega
  have hloop := Prog.Dies.foldlM_range (g := compactBucket c)
    (fun n => rowStart (logRow c fs) (c.bucketBase n)) (afterBuckets c fs)
    (Nat.find hex) c.B (fun b hb => compactBucket_ends c fs (hmin b hb)) hlt
    (compactBucket_dies c fs hbad)
  rw [c.bucketBase_zero] at hloop
  exact (openCandidates_ends c fs).dies_bind (hloop.bind _)

/-- Compaction runs to its end exactly within the limit, with the pair of the logs' rows. -/
theorem compaction_ends_iff (P : ℕ) (keepSubindex : Bool) (fs' : Files) :
    Prog.Ends (compaction c P keepSubindex) fs ⟨⟩ fs' ↔
      WithinLimit c fs ∧ fs' = compacted c fs P keepSubindex := by
  constructor
  · intro h
    by_cases hl : WithinLimit c fs
    · exact ⟨hl, h.store.symm.trans (compaction_ends c fs P keepSubindex hl).store⟩
    · exact absurd (compaction_dies c fs P keepSubindex hl) h.not_dies
  · rintro ⟨hl, rfl⟩
    exact compaction_ends c fs P keepSubindex hl

/-! ### The rows are found again -/

theorem rowStart_base_le (h : WithinLimit c fs) {b : ℕ} (hb : b ≤ c.B) :
    4 * rowStart (logRow c fs) (c.bucketBase b) ≤ c.bucketBase b * maxRwCount := by
  induction b with
  | zero => simp [rowStart, offset]
  | succ b ih =>
    have ih := ih (by omega)
    have hlim := h b (by omega)
    rw [c.bucketBase_succ, rowStart_limit]
    by_cases hempty : c.bucketLimit b ≤ c.bucketBase b
    · have h0 : bucketIds c fs b = 0 := by
        rw [bucketIds_eq, Nat.sub_eq_zero_of_le hempty, offset]
      rw [h0, Nat.add_zero]
      exact ih.trans (Nat.mul_le_mul_right _ (c.bucketBase_le_limit b))
    · have : (c.bucketBase b + 1) * maxRwCount ≤ c.bucketLimit b * maxRwCount :=
        Nat.mul_le_mul_right _ (by omega)
      rw [Nat.succ_mul] at this
      omega

/-- Within the limit every counter, id and offset fits its field. -/
theorem fits_of_withinLimit (h : WithinLimit c fs) : Fits c.N (logRow c fs) where
  cnt_lt g hg := by
    have hb := c.gidToBucket_lt g
    have hr := (c.mem_range_iff hg (c.gidToBucket g)).mpr rfl
    have hlen := length_row_le_bucketIds c fs (c.gidToBucket g)
      (u := g - c.bucketBase (c.gidToBucket g)) (by omega)
    rw [Nat.add_sub_cancel' hr.1] at hlen
    have := h _ hb
    rw [maxRwCount] at this
    omega
  id_lt g _ v hv := by
    simp only [logRow, row, List.mem_flatMap, List.mem_filter] at hv
    obtain ⟨p, ⟨hp, -⟩, hv⟩ := hv
    exact scanFrom_ids_lt _ _ p hp v hv
  total_lt := by
    have ht := rowStart_base_le c fs h le_rfl
    have hN := c.N_lt
    rw [c.bucketBase_B, maxRwCount] at ht
    omega

/-- After a compaction that runs to its end every row of the pair is the row of the logs. -/
theorem candRow_compacted (h : WithinLimit c fs) (P : ℕ) (keepSubindex : Bool) {g : ℕ}
    (hg : g < c.N) :
    candRow ((compacted c fs P keepSubindex).cand .idx) ((compacted c fs P keepSubindex).cand .ids)
      g = logRow c fs g :=
  candRow_eq (fits_of_withinLimit c fs h) hg

end Steps

end HiDANN.Construction
