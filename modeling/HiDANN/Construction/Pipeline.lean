import HiDANN.Construction.Lossless
import HiDANN.Construction.PairLoop
import Mathlib.Data.List.Perm.Basic

/-! The stages of the construction as processes over the files of a construction
directory. One process can dump, process all pairs and compact; the driver
instead starts a process for the dump, one for each anchor and one for the
compaction, all over the same bucket logs. An index that does not load, or a
thread that runs out of its arena, ends a process before it is done. -/

namespace HiDANN.Construction

open Script Format

/-! ### Processes -/

inductive Stage
  | all
  | buildSubgraphs
  | pairProcessing
  | selfDump
  | crossPairs
  | compact
  deriving DecidableEq

namespace Stage

def doesSelfDump (s : Stage) : Bool := s = .all || s = .pairProcessing || s = .selfDump

def doesCrossPairs (s : Stage) : Bool := s = .all || s = .pairProcessing || s = .crossPairs

def doesCompact (s : Stage) : Bool := s = .all || s = .pairProcessing || s = .compact

end Stage

/-- The command line, as far as the stages after the subgraph build read it. -/
structure Args where
  stage : Stage
  anchorStart : ℤ
  anchorEnd : ℤ
  target : ℤ
  crossPairsFile : Option PairsFile
  keepSubindex : Bool

/-- `--anchor-start` and `--anchor-end` as a range without its end. -/
def chosenAnchors (P : ℕ) (a : Args) : Except String (ℕ × ℕ) :=
  if P < 2 then .ok (0, 0)
  else if a.anchorStart < 0 ∧ a.anchorEnd < 0 then .ok (0, P - 1)
  else
    let start := if 0 ≤ a.anchorStart then a.anchorStart else 0
    let stop := if 0 ≤ a.anchorEnd then a.anchorEnd else start
    if start < 0 ∨ stop < start ∨ (P : ℤ) - 1 ≤ stop then
      .error "invalid cross-pairs anchor range"
    else .ok (start.toNat, stop.toNat + 1)

/-- The anchors of the pair loop, from the first up to but not including the second. -/
def anchorRange (P : ℕ) (a : Args) : Except String (ℕ × ℕ) :=
  if a.stage ≠ .crossPairs then .ok (0, if 1 < P then P - 1 else 0)
  else match chosenAnchors P a with
    | .error e => .error e
    | .ok range =>
      if 0 ≤ a.target then
        if a.anchorStart < 0 ∨ a.anchorEnd < 0 ∨ a.anchorStart ≠ a.anchorEnd then
          .error "--target requires a single --anchor"
        else if a.target ≤ a.anchorStart ∨ (P : ℤ) ≤ a.target then
          .error "--target must satisfy anchor < target < P"
        else .ok range
      else .ok range

section

variable {ν δ : Type*} [LinearOrder δ] [Zero δ] [One δ] [Mul δ] [Div δ]

/-- One construction: the partitions, the parameters of pair processing and the
`--buckets` option, the same for all its processes. -/
structure Job (ν δ : Type*) where
  parts : Partitions ν
  pairs : PairArgs ν δ
  buckets : ℤ

namespace Job

variable (J : Job ν δ)

def P : ℕ := J.parts.P

omit [LinearOrder δ] [Zero δ] [One δ] [Mul δ] [Div δ] in
theorem bucketCount_pos' : 0 < bucketCount J.buckets J.parts.N J.parts.D J.P J.pairs.R :=
  bucketCount_pos _ _ _ _ _

def toBuckets : Buckets :=
  ⟨J.parts.N, bucketCount J.buckets J.parts.N J.parts.D J.P J.pairs.R, J.parts.N_lt,
    J.bucketCount_pos'⟩

/-- `load` of an index; the scratch of its searches is made for lists of the degree it has found. -/
def loadIndex (t : ℕ) : Except String Unit :=
  let r := ((J.parts.adj t).map List.length).foldl max 0
  if J.pairs.L = 0 ∨ r = 0 ∨ J.parts.D = 0 then
    .error ("In InMemQueryScratch, one of search_l = " ++ toString J.pairs.L ++ ", indexing_l = " ++
      toString J.pairs.L ++ ", dim = " ++ toString J.parts.D ++ " or r = " ++ toString r ++
      " is zero.\n")
  else .ok ()

def steps (a : Args) : Except String (List ℕ × List (Side × Side)) :=
  if a.stage.doesCrossPairs then do
    let mask ← loadCrossPairMask J.P a.crossPairsFile
    let (b, e) ← anchorRange J.P a
    pure (List.range' b (e - b), crossSteps J.P a.target mask b e)
  else pure ([], [])

/-- The pairs do not end the process: the indexes of anchors and targets load (one that is carried
over has been loaded as a target's), and no thread gets a `std::bad_alloc`, which nothing would
catch in a parallel region. -/
def Survives (ω : Team) (anchors : List ℕ) (pairs : List (Side × Side)) : Prop :=
  (∀ t ∈ anchors ++ pairs.map (fun p => p.2.index), J.loadIndex t = .ok ()) ∧
    ∀ k < ω.threads, ∃ arena,
      arenaRun ⟨0, 0⟩ (threadNodes J.parts J.pairs ω k pairs) = .ok arena

def records (a : Args) (pairs : List (Side × Side)) : List Record :=
  (if a.stage.doesSelfDump then selfDump J.parts else []) ++
    pairs.flatMap (pairRecords J.parts J.pairs)

end Job

end

/-- Some threads append the records, in any order and interleaving, and flush. -/
def Logged (c : Buckets) (logs : Logs) (recs : List Record) (logs' : Logs) : Prop :=
  ∃ (T : ℕ) (ops : List (Op (Fin T))) (s : Staging (Fin T)),
    (Staging.fresh logs).run c ops = some s ∧ s.Flushed ∧ (calls ops).Perm recs ∧ s.logs = logs'

/-- `open_all`: the logs are created where they are missing, and cut on request. -/
def openAll (B : ℕ) (truncate : Bool) (fs : Files) : Logs :=
  fun b => if truncate ∨ B ≤ b then [] else fs.log b

def Files.withLogs (fs : Files) (B : ℕ) (logs : Logs) : Files :=
  { fs with logs := fun b => if b < B then some (logs b) else fs.logs b }

section

variable {ν δ : Type*} [LinearOrder δ] [Zero δ] [One δ] [Mul δ] [Div δ]

/-- A process of a stage after the build that ends normally. -/
def Process (J : Job ν δ) (ω : Team) (a : Args) (fs fs' : Files) : Prop :=
  (0 ≤ a.target → a.stage = .crossPairs) ∧ fs.hasSubindexes J.P = true ∧
  ∃ anchors pairs, J.steps a = .ok (anchors, pairs) ∧ J.Survives ω anchors pairs ∧ ∃ fs₁,
    (if a.stage.doesSelfDump || a.stage.doesCrossPairs then
      ∃ logs, Logged J.toBuckets (openAll J.toBuckets.B a.stage.doesSelfDump fs)
          (J.records a pairs) logs ∧
        fs₁ = fs.withLogs J.toBuckets.B logs
    else fs₁ = fs) ∧
    if a.stage.doesCompact then
      Prog.Ends (compaction J.toBuckets J.P a.keepSubindex) fs₁ ⟨⟩ fs'
    else fs' = fs₁

/-- `--stage=pair-processing`. -/
def Single (J : Job ν δ) (ω : Team) (file : Option PairsFile) (keep : Bool) : Files → Files → Prop :=
  Process J ω ⟨.pairProcessing, -1, -1, -1, file, keep⟩

/-- One `--stage=cross-pairs --anchor=i` process after another. -/
def CrossChain (J : Job ν δ) (ω : Team) (file : Option PairsFile) (keep : Bool) :
    List ℕ → Files → Files → Prop
  | [], fs, fs' => fs' = fs
  | i :: is, fs, fs' => ∃ fs₁, Process J ω ⟨.crossPairs, i, i, -1, file, keep⟩ fs fs₁ ∧
      CrossChain J ω file keep is fs₁ fs'

/-- The stages as the driver starts them. -/
def Staged (J : Job ν δ) (ω : Team) (file : Option PairsFile) (keep : Bool) (fs fs' : Files) : Prop :=
  ∃ fs₁ fs₂, Process J ω ⟨.selfDump, -1, -1, -1, none, keep⟩ fs fs₁ ∧
    CrossChain J ω file keep (List.range (J.P - 1)) fs₁ fs₂ ∧
    Process J ω ⟨.compact, -1, -1, -1, none, keep⟩ fs₂ fs'

end

/-! ### Logs across processes -/

theorem log_withLogs (fs : Files) {B b : ℕ} (logs : Logs) (hb : b < B) :
    (fs.withLogs B logs).log b = logs b := by
  simp [Files.withLogs, Files.log, hb]

/-- The logs a process starts with hold the records, bucket by bucket. -/
def Opened (c : Buckets) (logs : Logs) (recs : List Record) : Prop :=
  ∃ log : ℕ → List Record, (∀ b, logs b = encodeAll (log b)) ∧
    ∀ b < c.B, (log b).Perm (recs.filter fun r => c.gidToBucket r.gid = b)

theorem opened_truncate (c : Buckets) (fs : Files) : Opened c (openAll c.B true fs) [] :=
  ⟨fun _ => [], fun b => by simp [openAll], fun b _ => by simp⟩

theorem opened_append {c : Buckets} {fs : Files} {recs : List Record} (h : Holds c fs recs) :
    Opened c (openAll c.B false fs) recs := by
  choose ls hls hlp using h.log
  refine ⟨fun b => if hb : b < c.B then ls b hb else [], fun b => ?_, fun b hb => ?_⟩
  · by_cases hb : b < c.B
    · simp [openAll, hb, Nat.not_le.mpr hb, hls b hb]
    · simp [openAll, hb, Nat.le_of_not_lt hb]
  · simpa only [dif_pos hb] using hlp b hb

/-- A process that logs adds its records to those the logs hold. -/
theorem Logged.holds {c : Buckets} {recs recs' : List Record} {logs logs' : Logs}
    (h : Logged c logs recs logs') (fs : Files) (hopen : Opened c logs recs')
    (hgid : ∀ r ∈ recs' ++ recs, r.gid < c.N) :
    Holds c (fs.withLogs c.B logs') (recs' ++ recs) := by
  obtain ⟨T, ops, s, hrun, hf, hperm, rfl⟩ := h
  obtain ⟨log, hlog, hlp⟩ := hopen
  obtain ⟨-, hend⟩ := Staging.run_flushed hlog hrun hf
  refine ⟨fun b hb => ?_, hgid⟩
  obtain ⟨rs, he, hp⟩ := hend b
  refine ⟨rs, by rw [log_withLogs fs _ hb, he], hp.trans ?_⟩
  rw [List.filter_append]
  exact (hlp b hb).append (hperm.filter _)

/-- One thread can always log the records. -/
theorem exists_logged {c : Buckets} {logs : Logs} {recs' : List Record}
    (hopen : Opened c logs recs') (recs : List Record) : ∃ logs', Logged c logs recs logs' := by
  obtain ⟨log, hlog, -⟩ := hopen
  obtain ⟨s, hrun, hf⟩ := (Staging.Sim.fresh (τ := Fin 1) c logs log hlog).run_calls (t := 0)
    (fun _ => rfl) (fun u hu => absurd (Subsingleton.elim u 0) hu) recs
  exact ⟨s.logs, 1, _, s, hrun, hf, by rw [Staging.calls_callOps], rfl⟩

end HiDANN.Construction
