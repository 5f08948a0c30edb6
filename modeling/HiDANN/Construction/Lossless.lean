import HiDANN.Construction.Staging
import HiDANN.Construction.Compaction

/-! Logging followed by compaction. Whatever the interleaving of the threads,
the rows of the candidate pair are the ids appended for each node, provided no
bucket collects more ids than the one write of its ids transfers; beyond that
compaction dies. -/

namespace HiDANN.Construction

open Posix Bytes Scatter Script Format

def appendedTo (c : Buckets) (rs : List Record) (b : ℕ) : ℕ :=
  ((rs.filter fun r => c.gidToBucket r.gid = b).map fun r => r.ids.length).sum

/-- Every row holds what was appended for its node, and the rows follow one
another without a gap from the first byte of the body to the last. -/
structure Lossless (N : ℕ) (rs : List Record) (idx ids : List UInt8) : Prop where
  rows : ∀ g < N, (candRow idx ids g).Perm (appended rs g)
  first : 0 < N → rowOff idx 0 = 0
  next : ∀ g, g + 1 < N → rowOff idx (g + 1) = rowOff idx g + 4 * rowCnt idx g
  last : ∀ g, g + 1 = N → rowOff idx g + 4 * rowCnt idx g = 4 * totalIds ids
  body : ids.length = 32 + 4 * totalIds ids

/-- The bucket ranges tile the ids, and each holds the ids mapped to its bucket. -/
structure Tiles (c : Buckets) : Prop where
  first : c.bucketBase 0 = 0
  next : ∀ b, c.bucketLimit b = c.bucketBase (b + 1)
  mono : ∀ b, c.bucketBase b ≤ c.bucketLimit b
  last : c.bucketBase c.B = c.N
  mem : ∀ gid < c.N, ∀ b, c.gidToBucket gid = b ↔ c.bucketBase b ≤ gid ∧ gid < c.bucketLimit b

theorem tiles (c : Buckets) : Tiles c where
  first := c.bucketBase_zero
  next _ := rfl
  mono := c.bucketBase_le_limit
  last := c.bucketBase_B
  mem _ h b := (c.mem_range_iff h b).symm

theorem row_scanLog (rs : List Record) (g : ℕ) :
    row (scanLog (encodeAll rs)) g = appended rs g := by
  rw [scanLog_encodeAll, row, appended, List.filter_map, List.flatMap_map]
  rfl

theorem appended_perm {rs rs' : List Record} (h : rs.Perm rs') (g : ℕ) :
    (appended rs g).Perm (appended rs' g) := (h.filter _).flatMap_right _

theorem appended_filter (c : Buckets) (rs : List Record) (g : ℕ) :
    appended (rs.filter fun r => c.gidToBucket r.gid = c.gidToBucket g) g = appended rs g := by
  rw [appended, appended, List.filter_filter]
  congr 1
  apply List.filter_congr
  intro r _
  by_cases h : r.gid = g <;> simp [h]

section Logs

variable {c : Buckets} {fs : Files} {rs : List Record} {log : ℕ → List Record}

/-- The logs hold, bucket by bucket, the records in some order. -/
structure Holds (c : Buckets) (fs : Files) (rs : List Record) : Prop where
  log : ∀ b < c.B, ∃ ls, fs.log b = encodeAll ls ∧
    ls.Perm (rs.filter fun r => c.gidToBucket r.gid = b)
  gid_lt : ∀ r ∈ rs, r.gid < c.N

theorem logRow_perm (h : Holds c fs rs) (g : ℕ) : (logRow c fs g).Perm (appended rs g) := by
  obtain ⟨ls, hlog, hperm⟩ := h.log _ (c.gidToBucket_lt g)
  rw [logRow, hlog, row_scanLog, ← appended_filter c rs g]
  exact appended_perm hperm g

theorem bucketIds_eq_appendedTo (h : Holds c fs rs) {b : ℕ} (hb : b < c.B) :
    bucketIds c fs b = appendedTo c rs b := by
  obtain ⟨ls, hlog, hperm⟩ := h.log b hb
  -- every record of the log lies in the bucket's range
  have hall : ∀ r ∈ ls, c.bucketBase b ≤ r.gid ∧ r.gid < c.bucketLimit b := by
    intro r hr
    have hm := hperm.mem_iff.mp hr
    simp only [List.mem_filter, decide_eq_true_eq] at hm
    exact (c.mem_range_iff (h.gid_lt r hm.1) b).mpr hm.2
  have hfilter : ((ls.map fun r => (r.gid, r.ids)).filter
      fun p => c.bucketBase b ≤ p.1 ∧ p.1 < c.bucketLimit b) = ls.map fun r => (r.gid, r.ids) := by
    rw [List.filter_eq_self]
    intro p hp
    obtain ⟨r, hr, rfl⟩ := List.mem_map.mp hp
    simpa using hall r hr
  rw [bucketIds, hlog, Buckets.inRange, scanLog_encodeAll, hfilter, idCount, appendedTo,
    List.map_map, List.map_map]
  exact (hperm.map _).sum_eq

theorem withinLimit_iff (h : Holds c fs rs) :
    WithinLimit c fs ↔ ∀ b < c.B, 4 * appendedTo c rs b ≤ maxRwCount :=
  forall₂_congr fun _ hb => by rw [bucketIds_eq_appendedTo h hb]

theorem lossless_compacted (h : Holds c fs rs) (hl : WithinLimit c fs) (P : ℕ)
    (keepSubindex : Bool) :
    Lossless c.N rs ((compacted c fs P keepSubindex).cand .idx)
      ((compacted c fs P keepSubindex).cand .ids) := by
  have hfit := fits_of_withinLimit c fs hl
  refine ⟨fun g hg => ?_, fun h0 => ?_, fun g hg => ?_, fun g hg => ?_, ?_⟩
  · rw [candRow_compacted c fs hl P keepSubindex hg]
    exact logRow_perm h g
  · exact (rowOff_candIdx hfit h0).trans rfl
  · exact (rowOff_candIdx hfit hg).trans (by
      rw [show (compacted c fs P keepSubindex).cand .idx = candIdx c.N (logRow c fs) from rfl,
        rowOff_candIdx hfit (by omega), rowCnt_candIdx hfit (by omega), rowStart, rowStart,
        offset, Nat.mul_add])
  · change rowOff (candIdx c.N (logRow c fs)) g + 4 * rowCnt (candIdx c.N (logRow c fs)) g =
      4 * totalIds (candIds c.N (logRow c fs))
    rw [rowOff_candIdx hfit (by omega), rowCnt_candIdx hfit (by omega), totalIds_candIds hfit,
      ← hg, rowStart, rowStart, offset, Nat.mul_add]
  · change (candIds c.N (logRow c fs)).length = 32 + 4 * totalIds (candIds c.N (logRow c fs))
    rw [totalIds_candIds hfit, length_candIds]

end Logs

section Threads

variable {τ : Type*} [DecidableEq τ] [Fintype τ]

/-- Once every buffer is flushed the logs hold the appended records. -/
theorem holds_of_flushed {c : Buckets} {ops : List (Op τ)} {s : Staging τ} {fs : Files}
    (hrun : (Staging.fresh (fun _ => []) : Staging τ).run c ops = some s) (hf : s.Flushed)
    (hgid : ∀ r ∈ calls ops, r.gid < c.N) (hlogs : ∀ b < c.B, fs.logs b = some (s.logs b)) :
    Holds c fs (calls ops) := by
  have hempty : ∀ b, (fun _ => [] : ℕ → List UInt8) b = encodeAll [] := fun _ => rfl
  obtain ⟨-, hlog⟩ := Staging.run_flushed hempty hrun hf
  refine ⟨fun b hb => ?_, hgid⟩
  obtain ⟨ls, he, hp⟩ := hlog b
  exact ⟨ls, by rw [Files.log, hlogs b hb, Option.getD_some, he], by simpa using hp⟩

/-- Compaction of the flushed logs produces the appended ids of every node,
exactly when no bucket was given more ids than one write transfers. -/
theorem staged_compaction_lossless_iff (c : Buckets) (P : ℕ) (keepSubindex : Bool)
    (ops : List (Op τ)) (s : Staging τ) (fs : Files)
    (hrun : (Staging.fresh (fun _ => []) : Staging τ).run c ops = some s) (hf : s.Flushed)
    (hgid : ∀ r ∈ calls ops, r.gid < c.N) (hlogs : ∀ b < c.B, fs.logs b = some (s.logs b)) :
    (Tiles c ∧ ∃ fs', Prog.Ends (compaction c P keepSubindex) fs ⟨⟩ fs' ∧
      Lossless c.N (calls ops) (fs'.cand .idx) (fs'.cand .ids)) ↔
    ∀ b < c.B, 4 * appendedTo c (calls ops) b ≤ maxRwCount := by
  have hh := holds_of_flushed hrun hf hgid hlogs
  rw [← withinLimit_iff hh]
  constructor
  · rintro ⟨-, fs', hends, -⟩
    exact ((compaction_ends_iff c fs P keepSubindex fs').mp hends).1
  · intro hl
    exact ⟨tiles c, _, compaction_ends c fs P keepSubindex hl,
      lossless_compacted hh hl P keepSubindex⟩

end Threads

def twoByTwo : Buckets := ⟨4, 2, by norm_num, by norm_num⟩

def ownRecord : Record := ⟨1, [0, 2], Bytes.one_lt_word, by simp, by simp, by simp⟩

def nextRecord : Record := ⟨1, [3], Bytes.one_lt_word, by simp, by simp, by simp⟩

def otherRecord : Record := ⟨2, [3, 1], Bytes.two_lt_word, by simp, by simp, by simp⟩

/-- One thread stages a record of node 1 and writes it last; the other, meanwhile, writes one of
node 2 when it changes to the bucket of its second record, which is of node 1. -/
def interleaved : List (Op Bool) :=
  [.call false ownRecord, .call true otherRecord, .store true, .store false, .spill true,
    .call true nextRecord, .spill false, .store true, .spill true, .flush true, .flush false]

/-- What is in the logs in the end. -/
def interleavedLogs : Files :=
  ⟨fun _ => [], fun b => some (encodeAll ([[nextRecord, ownRecord], [otherRecord]].getD b [])),
    fun _ => true, fun _ => true⟩

theorem interleaved_compacted :
    Tiles twoByTwo ∧ ∃ fs', Prog.Ends (compaction twoByTwo 1 true) interleavedLogs ⟨⟩ fs' ∧
      Lossless 4 [ownRecord, otherRecord, nextRecord] (fs'.cand .idx) (fs'.cand .ids) := by
  refine (staged_compaction_lossless_iff twoByTwo 1 true interleaved _ interleavedLogs rfl
    (fun t => ?_) (by decide) fun b hb => ?_).mpr (by decide)
  · cases t <;> exact ⟨rfl, rfl⟩
  · have hb : b < 2 := hb
    obtain rfl | rfl : b = 0 ∨ b = 1 := by omega
    all_goals rfl

/-- A record with as many ids as a record can have. -/
def fullRecord : Record where
  gid := 0
  ids := List.replicate 65535 0
  gid_lt := zero_lt_word
  ids_lt v hv := List.eq_of_mem_replicate hv ▸ by decide
  ids_pos := List.length_replicate ▸ by decide
  ids_le := List.length_replicate ▸ by decide

theorem appendedTo_replicate (n : ℕ) :
    appendedTo oneNode (List.replicate n fullRecord) 0 = n * 65535 := by
  have : oneNode.gidToBucket fullRecord.gid = 0 := rfl
  rw [appendedTo, List.filter_replicate_of_pos (by simpa using this), List.map_replicate,
    List.sum_replicate, fullRecord, List.length_replicate, smul_eq_mul]

/-- 8193 full records for one node are more than one write transfers. -/
theorem full_records_not_compacted :
    ∃ s : Staging Unit, (Staging.fresh fun _ => []).run oneNode
        ((List.replicate 8193 fullRecord).flatMap (Staging.callOps ()) ++ [.flush ()]) = some s ∧
      s.Flushed ∧
      ∀ fs : Files, (∀ b < 1, fs.logs b = some (s.logs b)) →
        ¬ ∃ fs', Prog.Ends (compaction oneNode 1 true) fs ⟨⟩ fs' ∧
          Lossless 1 (List.replicate 8193 fullRecord) (fs'.cand .idx) (fs'.cand .ids) := by
  obtain ⟨s, hrun, hf⟩ := (Staging.Sim.fresh oneNode (fun _ => []) (fun _ => [])
    (fun _ => rfl)).run_calls (t := ()) (fun _ => rfl) (fun _ _ => rfl)
    (List.replicate 8193 fullRecord)
  refine ⟨s, hrun, hf, fun fs hlogs ⟨fs', hends, _⟩ => ?_⟩
  have hgid : ∀ r ∈ calls ((List.replicate 8193 fullRecord).flatMap (Staging.callOps ()) ++
      [.flush ()]), r.gid < oneNode.N := by
    rw [Staging.calls_callOps]
    intro r hr
    rw [List.eq_of_mem_replicate hr]
    exact Nat.one_pos
  have hh := holds_of_flushed hrun hf hgid hlogs
  rw [Staging.calls_callOps] at hh
  have hl := ((compaction_ends_iff _ _ _ _ _).mp hends).1
  have hb := (withinLimit_iff hh).mp hl 0 Nat.one_pos
  rw [appendedTo_replicate, maxRwCount] at hb
  omega

end HiDANN.Construction
