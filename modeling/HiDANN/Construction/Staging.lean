import HiDANN.Library.StagedLog
import HiDANN.Construction.Buckets
import HiDANN.Construction.BucketLog

/-! The per-thread staging buffers in front of the bucket logs. A thread's
buffer holds records of one bucket only; a record for another bucket flushes it
first, a buffer without room for one more record of the same size is flushed
after the record, and the end of a parallel region flushes what is left. The
threads are interleaved between any two writes: a call of `append_record` is
three steps, of which the first and the last may write. The system refines the
partitioned log of `StagedLog`, with `encodeAll` between records and bytes. -/

namespace HiDANN.Construction

open Bytes

/-- The contents of the bucket logs, by the descriptor each was opened under;
the descriptor `fds[b]` of bucket `b` is named `b`. -/
abbrev Logs := ℕ → List UInt8

/-! ### One staging buffer -/

/-- `cur_b` and `cur_fd` are `-1` (here `none`) until the first record; `used`
is the length of `buf`. -/
structure TLStaging where
  curB : Option ℕ
  curFd : Option ℕ
  cap : ℕ
  buf : List UInt8

namespace TLStaging

def init (bytes : ℕ) : TLStaging := ⟨none, none, roundUp (max bytes 4096) 4096, []⟩

def used (st : TLStaging) : ℕ := st.buf.length

def flush (st : TLStaging) (logs : Logs) : Except String (TLStaging × Logs) :=
  if st.buf = [] then .ok (st, logs)
  else match st.curFd with
    | none => .error "flush with invalid cur_fd"
    | some fd => .ok ({ st with buf := [] }, Function.update logs fd (logs fd ++ st.buf))

/-- Double a capacity until it covers the need. -/
def growCap : ℕ → ℕ → ℕ → ℕ
  | 0, ncap, _ => ncap
  | fuel + 1, ncap, need => if ncap < need then growCap fuel (2 * ncap) need else ncap

def ensure (st : TLStaging) (need : ℕ) : TLStaging :=
  if st.used + need ≤ st.cap then st
  else
    let ncap := if st.cap ≠ 0 then st.cap * 2 else 64 * 1024
    { st with cap := roundUp (growCap (st.used + need) ncap (st.used + need)) 4096 }

/-- First step of `append_record`: change to the record's bucket. -/
def select (st : TLStaging) (logs : Logs) (fd b : ℕ) : Except String (TLStaging × Logs) :=
  if st.curB = some b then .ok (st, logs)
  else
    match if st.curB.isSome then st.flush logs else .ok (st, logs) with
    | .error e => .error e
    | .ok (st', logs') => .ok ({ st' with curB := some b, curFd := some fd }, logs')

/-- Second step: make room and stage the record. -/
def store (st : TLStaging) (gid : ℕ) (ids : List ℕ) : TLStaging :=
  let st' := st.ensure (recSize ids.length)
  { st' with buf := st'.buf ++ encodeRecord gid ids }

/-- Third step: flush when another record of this size would not fit. -/
def spill (st : TLStaging) (logs : Logs) (len : ℕ) : Except String (TLStaging × Logs) :=
  if st.cap < st.used + recSize len then st.flush logs else .ok (st, logs)

/-- `append_record` for the first `len` ids, when no other thread writes in between. -/
def appendRecord (st : TLStaging) (logs : Logs) (fd b gid : ℕ) (ids : List ℕ) (len : ℕ) :
    Except String (TLStaging × Logs) :=
  if len = 0 then .ok (st, logs)
  else match st.select logs fd b with
    | .error e => .error e
    | .ok (st', logs') => (st'.store gid (ids.take len)).spill logs' len

theorem growCap_ge (fuel ncap need : ℕ) (h0 : 0 < ncap) (h : need ≤ ncap * 2 ^ fuel) :
    need ≤ growCap fuel ncap need := by
  induction fuel generalizing ncap with
  | zero => simpa [growCap] using h
  | succ fuel ih =>
    rw [growCap]
    split_ifs with hlt
    · exact ih _ (by omega) (by rw [pow_succ] at h; linarith)
    · omega

/-- After `ensure` the record fits the buffer: no store leaves the allocation. -/
theorem ensure_fits (st : TLStaging) (need : ℕ) :
    st.used + need ≤ (st.ensure need).cap := by
  unfold ensure
  split_ifs with h
  · exact h
  all_goals
    refine (growCap_ge _ _ _ (by omega) ?_).trans (le_roundUp (by norm_num))
    exact Nat.lt_two_pow_self.le.trans (Nat.le_mul_of_pos_left _ (by omega))

@[simp] theorem ensure_buf (st : TLStaging) (need : ℕ) : (st.ensure need).buf = st.buf := by
  unfold ensure; split_ifs <;> rfl

@[simp] theorem ensure_curB (st : TLStaging) (need : ℕ) : (st.ensure need).curB = st.curB := by
  unfold ensure; split_ifs <;> rfl

@[simp] theorem ensure_curFd (st : TLStaging) (need : ℕ) : (st.ensure need).curFd = st.curFd := by
  unfold ensure; split_ifs <;> rfl

theorem flush_spec (c : Buckets) (st : TLStaging) (logs : Logs) (pend : List Record)
    (log : ℕ → List Record) (hbuf : st.buf = encodeAll pend)
    (hlogs : ∀ b, logs b = encodeAll (log b))
    (hcur : ∀ r ∈ pend, st.curB = some (c.gidToBucket r.gid)) (hfd : st.curFd = st.curB) :
    ∃ logs', st.flush logs = .ok ({ st with buf := [] }, logs') ∧
      ∀ b, logs' b = encodeAll (log b ++ pend.filter fun r => c.gidToBucket r.gid = b) := by
  cases pend with
  | nil =>
    have hb : st.buf = [] := hbuf
    exact ⟨logs, by simp [flush, ← hb], by simpa using hlogs⟩
  | cons r pend =>
    have hne : st.buf ≠ [] := fun h => by simpa using encodeAll_eq_nil (hbuf.symm.trans h)
    have hc := hcur r (by simp)
    refine ⟨_, by rw [flush, if_neg hne, hfd, hc], fun b => ?_⟩
    -- every staged record belongs to the selected bucket
    have hall : ∀ r' ∈ r :: pend, c.gidToBucket r'.gid = c.gidToBucket r.gid := by
      intro r' hr'
      have := (hcur r' hr').symm.trans hc
      simpa using this
    by_cases h : b = c.gidToBucket r.gid
    · subst h
      rw [Function.update_self, List.filter_eq_self.mpr (by simpa using hall), encodeAll_append,
        hlogs, hbuf]
    · have hnone : (r :: pend).filter (fun r => c.gidToBucket r.gid = b) = [] := by
        rw [List.filter_eq_nil_iff]
        intro r' hr'
        simpa [hall r' hr'] using Ne.symm h
      rw [Function.update_of_ne h, hnone, List.append_nil, hlogs]

theorem select_curFd {st st' : TLStaging} {logs logs' : Logs} {b : ℕ} (hfd : st.curFd = st.curB)
    (h : st.select logs b b = .ok (st', logs')) : st'.curFd = some b := by
  unfold select at h
  split_ifs at h with hb
  · cases h
    rw [hfd, hb]
  all_goals
    split at h
    · cases h
    · cases h
      rfl

theorem spill_ok (st : TLStaging) {fd : ℕ} (hfd : st.curFd = some fd) (logs : Logs) (len : ℕ) :
    ∃ x, st.spill logs len = .ok x := by
  unfold spill flush
  rw [hfd]
  split_ifs
  · exact ⟨_, rfl⟩
  · exact ⟨_, rfl⟩
  · exact ⟨_, rfl⟩

end TLStaging

/-! ### All threads -/

variable {τ : Type*}

/-- Where a thread stands inside `append_record`. -/
inductive Pc
  | idle
  | selected (r : Record)
  | stored (len : ℕ)
  deriving DecidableEq

structure Staging (τ : Type*) where
  stage : τ → TLStaging
  pc : τ → Pc
  logs : Logs
  fatal : Option String

/-- A thread enters `append_record`, stages the record, leaves with or without a
write, or flushes at the end of a parallel region. -/
inductive Op (τ : Type*)
  | call (t : τ) (r : Record)
  | store (t : τ)
  | spill (t : τ)
  | flush (t : τ)

def calls : List (Op τ) → List Record
  | [] => []
  | .call _ r :: ops => r :: calls ops
  | .store _ :: ops => calls ops
  | .spill _ :: ops => calls ops
  | .flush _ :: ops => calls ops

namespace Staging

/-- Freshly initialised staging buffers (256 KiB each) in front of given logs. -/
def fresh (logs : Logs) : Staging τ := ⟨fun _ => .init (2 ^ 18), fun _ => .idle, logs, none⟩

/-- Nothing is in flight and every buffer has been flushed. -/
def Flushed (s : Staging τ) : Prop := ∀ t, s.pc t = .idle ∧ (s.stage t).buf = []

instance [Fintype τ] (s : Staging τ) : Decidable s.Flushed := inferInstanceAs (Decidable (∀ _, _))

variable [DecidableEq τ]

def after (s : Staging τ) (t : τ) (pc : Pc) : Except String (TLStaging × Logs) → Staging τ
  | .error e => { s with fatal := some e }
  | .ok (st, logs) =>
    { s with stage := Function.update s.stage t st, pc := Function.update s.pc t pc, logs := logs }

/-- One step; `none` when the thread is elsewhere or the process has died. -/
def step (c : Buckets) (s : Staging τ) (op : Op τ) : Option (Staging τ) :=
  if s.fatal.isSome then none
  else match op with
    | .call t r => match s.pc t with
      | .idle => some (s.after t (.selected r)
          ((s.stage t).select s.logs (c.gidToBucket r.gid) (c.gidToBucket r.gid)))
      | _ => none
    | .store t => match s.pc t with
      | .selected r => some (s.after t (.stored r.ids.length)
          (.ok ((s.stage t).store r.gid r.ids, s.logs)))
      | _ => none
    | .spill t => match s.pc t with
      | .stored len => some (s.after t .idle ((s.stage t).spill s.logs len))
      | _ => none
    | .flush t => match s.pc t with
      | .idle => some (s.after t .idle ((s.stage t).flush s.logs))
      | _ => none

def run (c : Buckets) : Staging τ → List (Op τ) → Option (Staging τ)
  | s, [] => some s
  | s, op :: ops => (s.step c op).bind fun s' => run c s' ops

/-! ### Refinement -/

/-- The bytes of a record that has been accepted but not staged yet. -/
def Pc.inflight : Pc → List UInt8
  | .selected r => encodeRecord r.gid r.ids
  | _ => []

/-- The thread state represents a state of the partitioned log. -/
structure Sim (c : Buckets) (s : Staging τ) (a : StagedLog.State τ ℕ Record) : Prop where
  alive : s.fatal = none
  staged : ∀ t, (s.stage t).buf ++ Pc.inflight (s.pc t) = encodeAll (a.pending t)
  logs : ∀ b, s.logs b = encodeAll (a.log b)
  cur : ∀ t, ∀ r ∈ a.pending t, (s.stage t).curB = some (c.gidToBucket r.gid)
  fd : ∀ t, (s.stage t).curFd = (s.stage t).curB

abbrev bucketOf (c : Buckets) (r : Record) : ℕ := c.gidToBucket r.gid

variable {c : Buckets} {s s' : Staging τ} {a : StagedLog.State τ ℕ Record}

/-- Emptying the buffer of a thread with nothing in flight is an abstract flush. -/
theorem Sim.flush (h : Sim c s a) {t : τ} (ht : Pc.inflight (s.pc t) = []) :
    ∃ logs', (s.stage t).flush s.logs = .ok ({ s.stage t with buf := [] }, logs') ∧
      Sim c (s.after t .idle (.ok ({ s.stage t with buf := [] }, logs')))
        (a.step (bucketOf c) (.flush t)) := by
  have hbuf := h.staged t
  rw [ht, List.append_nil] at hbuf
  obtain ⟨logs', he, hl⟩ :=
    TLStaging.flush_spec c (s.stage t) s.logs (a.pending t) a.log hbuf h.logs (h.cur t) (h.fd t)
  refine ⟨logs', he, h.alive, fun u => ?_, hl, fun u => ?_, fun u => ?_⟩
  all_goals by_cases hu : u = t
  · subst hu; simp [after, StagedLog.State.step, Pc.inflight]
  · simp [after, StagedLog.State.step, Function.update_of_ne hu, h.staged]
  · subst hu; simp [StagedLog.State.step]
  · simpa [after, StagedLog.State.step, Function.update_of_ne hu] using h.cur u
  · subst hu; simpa [after] using h.fd u
  · simpa [after, Function.update_of_ne hu] using h.fd u

/-- Accepting a record with the right bucket selected is an abstract put. -/
theorem Sim.put (h : Sim c s a) {t : τ} (ht : s.pc t = .idle) (r : Record) (st : TLStaging)
    (hb : st.buf = (s.stage t).buf) (hc : st.curB = some (c.gidToBucket r.gid))
    (hf : st.curFd = st.curB)
    (hp : ∀ r' ∈ a.pending t, (s.stage t).curB = some (c.gidToBucket r.gid)) :
    Sim c (s.after t (.selected r) (.ok (st, s.logs))) (a.step (bucketOf c) (.put t r)) := by
  refine ⟨h.alive, fun u => ?_, h.logs, fun u => ?_, fun u => ?_⟩
  all_goals by_cases hu : u = t
  · subst hu
    have hs : (s.stage u).buf = encodeAll (a.pending u) := by
      simpa [ht, Pc.inflight] using h.staged u
    simp [after, StagedLog.State.step, Pc.inflight, hb, hs, encodeAll]
  · simp [after, StagedLog.State.step, Function.update_of_ne hu, h.staged]
  · subst hu
    intro r' hr'
    simp only [StagedLog.State.step, Function.update_self, List.mem_append,
      List.mem_singleton] at hr'
    rcases hr' with hr' | rfl
    · have h1 := h.cur u r' hr'
      rw [hp r' hr'] at h1
      simpa [after, hc] using h1
    · simpa [after] using hc
  · simpa [after, StagedLog.State.step, Function.update_of_ne hu] using h.cur u
  · subst hu; simpa [after] using hf
  · simpa [after, Function.update_of_ne hu] using h.fd u

/-- A step that leaves the buffer's records and the logs as they are. -/
theorem Sim.stay (h : Sim c s a) {t : τ} (pc : Pc) (st : TLStaging)
    (hb : st.buf ++ Pc.inflight pc = (s.stage t).buf ++ Pc.inflight (s.pc t))
    (hc : st.curB = (s.stage t).curB) (hf : st.curFd = (s.stage t).curFd) :
    Sim c (s.after t pc (.ok (st, s.logs))) a := by
  refine ⟨h.alive, fun u => ?_, h.logs, fun u => ?_, fun u => ?_⟩
  all_goals by_cases hu : u = t
  · subst hu; simp [after, hb, h.staged]
  · simp [after, Function.update_of_ne hu, h.staged]
  · subst hu; simpa [after, hc] using h.cur u
  · simpa [after, Function.update_of_ne hu] using h.cur u
  · subst hu; simp [after, hc, hf, h.fd]
  · simpa [after, Function.update_of_ne hu] using h.fd u

theorem after_after (s : Staging τ) (t : τ) (pc pc' : Pc) (x y : TLStaging × Logs) :
    (s.after t pc (.ok x)).after t pc' (.ok y) = s.after t pc' (.ok y) := by
  simp [after, Function.update_idem]

theorem Sim.call (h : Sim c s a) {t : τ} (ht : s.pc t = .idle) (r : Record) :
    ∃ es, StagedLog.written es = [r] ∧
      Sim c (s.after t (.selected r)
        ((s.stage t).select s.logs (c.gidToBucket r.gid) (c.gidToBucket r.gid)))
        (a.run (bucketOf c) es) := by
  by_cases hcur : (s.stage t).curB = some (c.gidToBucket r.gid)
  · refine ⟨[.put t r], rfl, ?_⟩
    rw [TLStaging.select, if_pos hcur]
    exact h.put ht r _ rfl hcur (h.fd t) (fun _ _ => hcur)
  · refine ⟨[.flush t, .put t r], rfl, ?_⟩
    obtain ⟨logs', he, hs⟩ := h.flush (t := t) (by rw [ht]; rfl)
    have hres : (if (s.stage t).curB.isSome then (s.stage t).flush s.logs
        else .ok (s.stage t, s.logs)) = .ok ({ s.stage t with buf := [] }, logs') := by
      cases hB : (s.stage t).curB with
      | some b => simpa [hB] using he
      | none =>
        -- an unused buffer is empty, so the flush that is skipped would write nothing
        have hnil : a.pending t = [] := by
          rcases hp : a.pending t with _ | ⟨r', rs⟩
          · rfl
          · have := h.cur t r' (by simp [hp])
            rw [hB] at this
            cases this
        have hbuf : (s.stage t).buf = [] := by
          have := h.staged t
          rw [hnil, ht] at this
          simpa [Pc.inflight] using this
        rw [TLStaging.flush, if_pos hbuf] at he
        simpa [hB] using he
    rw [TLStaging.select, if_neg hcur, hres]
    simp only
    rw [← after_after s t .idle _ ({ s.stage t with buf := [] }, logs')]
    have hlogs : logs' = (s.after t .idle (.ok ({ s.stage t with buf := [] }, logs'))).logs := rfl
    conv in (_, logs') => rw [hlogs]
    exact hs.put (by simp [after]) r _ (by simp [after]) rfl rfl
      (by simp [StagedLog.State.step])

/-- Every step of the threads is a sequence of steps of the partitioned log. -/
theorem Sim.step (h : Sim c s a) (op : Op τ) (hs : s.step c op = some s') :
    ∃ es, StagedLog.written es = calls [op] ∧ Sim c s' (a.run (bucketOf c) es) := by
  unfold Staging.step at hs
  rw [if_neg (by simp [h.alive])] at hs
  cases op with
  | call t r =>
    simp only at hs
    split at hs
    case h_1 ht =>
      cases hs
      exact h.call ht r
    case h_2 => cases hs
  | store t =>
    simp only at hs
    split at hs
    case h_1 r ht =>
      cases hs
      refine ⟨[], rfl, h.stay _ _ ?_ ?_ ?_⟩
      · simp [TLStaging.store, ht, Pc.inflight]
      · simp [TLStaging.store]
      · simp [TLStaging.store]
    case h_2 => cases hs
  | spill t =>
    simp only at hs
    split at hs
    case h_1 len ht =>
      cases hs
      rw [TLStaging.spill]
      split_ifs
      · obtain ⟨logs', he, hsim⟩ := h.flush (t := t) (by rw [ht]; rfl)
        exact ⟨[.flush t], rfl, by rw [he]; exact hsim⟩
      · exact ⟨[], rfl, h.stay _ _ (by rw [ht]; rfl) rfl rfl⟩
    case h_2 => cases hs
  | flush t =>
    simp only at hs
    split at hs
    case h_1 ht =>
      cases hs
      obtain ⟨logs', he, hsim⟩ := h.flush (t := t) (by rw [ht]; rfl)
      exact ⟨[.flush t], rfl, by rw [he]; exact hsim⟩
    case h_2 => cases hs

omit [DecidableEq τ] in
theorem calls_append (ops ops' : List (Op τ)) : calls (ops ++ ops') = calls ops ++ calls ops' := by
  induction ops with
  | nil => rfl
  | cons op ops ih => cases op <;> simp [calls, ih]

omit [DecidableEq τ] in
theorem calls_cons (op : Op τ) (ops : List (Op τ)) :
    calls (op :: ops) = calls [op] ++ calls ops := by
  cases op <;> rfl

theorem Sim.run (h : Sim c s a) (ops : List (Op τ)) (hs : s.run c ops = some s') :
    ∃ es, StagedLog.written es = calls ops ∧ Sim c s' (a.run (bucketOf c) es) := by
  induction ops generalizing s a with
  | nil =>
    cases hs
    exact ⟨[], rfl, h⟩
  | cons op ops ih =>
    unfold Staging.run at hs
    rw [Option.bind_eq_some_iff] at hs
    obtain ⟨s₁, h₁, h₂⟩ := hs
    obtain ⟨es, he, hsim⟩ := h.step op h₁
    obtain ⟨es', he', hsim'⟩ := ih hsim h₂
    refine ⟨es ++ es', ?_, by rw [StagedLog.State.run_append]; exact hsim'⟩
    rw [StagedLog.written_append, he, he', ← calls_cons]

omit [DecidableEq τ] in
theorem Sim.fresh (c : Buckets) (logs : Logs) (log : ℕ → List Record)
    (hl : ∀ b, logs b = encodeAll (log b)) :
    Sim c (Staging.fresh logs : Staging τ) ⟨fun _ => [], log⟩ :=
  ⟨rfl, fun _ => rfl, hl, fun _ _ h => absurd h (by simp), fun _ => rfl⟩

/-! ### Uninterrupted calls -/

def callOps (t : τ) (r : Record) : List (Op τ) := [.call t r, .store t, .spill t]

theorem Sim.select_ok (h : Sim c s a) {t : τ} (ht : s.pc t = .idle) (r : Record) :
    ∃ x, (s.stage t).select s.logs (c.gidToBucket r.gid) (c.gidToBucket r.gid) = .ok x := by
  obtain ⟨es, -, hsim⟩ := h.call ht r
  cases hx : (s.stage t).select s.logs (c.gidToBucket r.gid) (c.gidToBucket r.gid) with
  | ok x => exact ⟨x, rfl⟩
  | error e =>
    have := hsim.alive
    simp [hx, after] at this

/-- A call no other thread interrupts is `append_record`, and succeeds. -/
theorem Sim.run_callOps (h : Sim c s a) {t : τ} (ht : s.pc t = .idle) (r : Record) :
    ∃ x, (s.stage t).appendRecord s.logs (c.gidToBucket r.gid) (c.gidToBucket r.gid) r.gid r.ids
        r.ids.length = .ok x ∧ s.run c (callOps t r) = some (s.after t .idle (.ok x)) := by
  obtain ⟨⟨st, logs⟩, hsel⟩ := h.select_ok ht r
  have hfd := TLStaging.select_curFd (h.fd t) hsel
  obtain ⟨x, hx⟩ := TLStaging.spill_ok (st.store r.gid r.ids) (by simpa [TLStaging.store]
    using hfd) logs r.ids.length
  have hpos := r.ids_pos
  refine ⟨x, by simp [TLStaging.appendRecord, hsel, hx, Nat.ne_of_gt hpos], ?_⟩
  have halive := h.alive
  simp [callOps, Staging.run, Staging.step, halive, ht, hsel, hx, after]

theorem run_append (s : Staging τ) (ops ops' : List (Op τ)) :
    s.run c (ops ++ ops') = (s.run c ops).bind fun s' => s'.run c ops' := by
  induction ops generalizing s with
  | nil => rfl
  | cons op ops ih =>
    rw [List.cons_append, Staging.run, Staging.run, Option.bind_assoc]
    exact congrArg _ (funext fun s' => ih s')

omit [DecidableEq τ] in
theorem calls_callOps (t : τ) (rs : List Record) :
    calls (rs.flatMap (callOps t) ++ [.flush t]) = rs := by
  induction rs with
  | nil => rfl
  | cons r rs ih =>
    rw [List.flatMap_cons, List.append_assoc, calls_append, ih]
    rfl

theorem Sim.run_calls (h : Sim c s a) {t : τ} (hidle : ∀ u, s.pc u = .idle)
    (hbuf : ∀ u ≠ t, (s.stage u).buf = []) (rs : List Record) :
    ∃ s', s.run c (rs.flatMap (callOps t) ++ [.flush t]) = some s' ∧ s'.Flushed := by
  induction rs generalizing s a with
  | nil =>
    obtain ⟨logs', he, -⟩ := h.flush (t := t) (by rw [hidle]; rfl)
    refine ⟨s.after t .idle (.ok ({ s.stage t with buf := [] }, logs')), ?_, fun u => ?_⟩
    · simp [Staging.run, Staging.step, h.alive, hidle, he]
    · by_cases hu : u = t
      · subst hu; simp [after]
      · simp [after, Function.update_of_ne hu, hidle, hbuf u hu]
  | cons r rs ih =>
    obtain ⟨x, -, hx⟩ := h.run_callOps (hidle t) r
    obtain ⟨es, -, hsim⟩ := h.run _ hx
    obtain ⟨s', hs', hf⟩ := ih hsim
      (fun u => by by_cases hu : u = t <;> simp [after, hu, hidle])
      (fun u hu => by simp [after, Function.update_of_ne hu, hbuf u hu])
    exact ⟨s', by rw [List.flatMap_cons, List.append_assoc, run_append, hx]; exact hs', hf⟩

/-- Whatever the interleaving, once everything is flushed each log holds, after
the records it held before, the records appended for its bucket, in some order;
and no thread has died. -/
theorem run_flushed [Fintype τ] {logs : Logs} {log : ℕ → List Record}
    (hl : ∀ b, logs b = encodeAll (log b)) {ops : List (Op τ)}
    (hs : (Staging.fresh logs : Staging τ).run c ops = some s') (hf : s'.Flushed) :
    s'.fatal = none ∧ ∀ b, ∃ rs, s'.logs b = encodeAll rs ∧
      rs.Perm (log b ++ (calls ops).filter fun r => c.gidToBucket r.gid = b) := by
  obtain ⟨es, he, hsim⟩ := (Sim.fresh c logs log hl).run ops hs
  have hdrained : (StagedLog.State.run (bucketOf c) ⟨fun _ => [], log⟩ es).drained := by
    intro t
    have := hsim.staged t
    rw [(hf t).1, (hf t).2] at this
    exact encodeAll_eq_nil this.symm
  refine ⟨hsim.alive, fun b => ⟨_, hsim.logs b, ?_⟩⟩
  have := StagedLog.State.run_drained (bucketOf c) (s := ⟨fun _ => [], log⟩) (fun _ => rfl) es
    hdrained b
  rwa [he] at this

end Staging

end HiDANN.Construction
