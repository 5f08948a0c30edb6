import HiDANN.Disk.Sources
import Mathlib.Data.List.Nodup
import Mathlib.Data.List.Perm.Basic
import Mathlib.Data.List.TakeDrop

/-! The io_uring batch reader. `execute_io_uring` prepares entries in the ring, submits what
is prepared, waits for as many reads as were taken, and goes on behind them. The kernel
answers a submission with the number of entries it has taken, always from the front, and a
wait with any of the reads in flight; a call is run against a list of such answers. The
index into the requests and the queue in the ring agree as long as every submission takes
the whole queue, or nothing of a full one. -/

namespace HiDANN.Disk.IoUring

variable {α : Type*}

structure Ring (α : Type*) where
  capacity : ℕ
  -- prepared, not yet taken by the kernel
  queued : List α
  -- taken, not yet complete
  inFlight : List α

/-- `io_uring_get_sqe` and `io_uring_prep_read`; a full ring gives no entry. -/
def Ring.prepRead (ring : Ring α) (req : α) : Option (Ring α) :=
  if ring.queued.length < ring.capacity then some { ring with queued := ring.queued ++ [req] }
  else none

def maxEvents : ℕ := 1024

/-- The inner loop; `room` is what `batch_size` may still grow by. -/
def prepareBatch (readReqs : List α) (processed : ℕ) : ℕ → Ring α → ℕ → Ring α
  | 0, ring, _ => ring
  | room + 1, ring, batchSize =>
    match readReqs[processed + batchSize]? with
    | none => ring
    | some req =>
      match ring.prepRead req with
      | none => ring
      | some ring => prepareBatch readReqs processed room ring (batchSize + 1)

/-- What the call asks the kernel for next. -/
inductive Phase
  | submit
  | wait (submitted completedInBatch : ℕ)
  | returned
  | exited

/-- The call between two answers, with the requests the kernel has taken, in order, and
those whose completion was awaited. -/
structure State (α : Type*) where
  ring : Ring α
  processed : ℕ
  phase : Phase
  submitted : List α
  completed : List α

/-- The head of the outer loop. -/
def nextBatch (readReqs : List α) (s : State α) : State α :=
  if s.processed < readReqs.length then
    { s with ring := prepareBatch readReqs s.processed maxEvents s.ring 0, phase := .submit }
  else { s with phase := .returned }

/-- The head of the waiting loop. -/
def awaitNext (readReqs : List α) (s : State α) (submitted completedInBatch : ℕ) : State α :=
  if completedInBatch < submitted then { s with phase := .wait submitted completedInBatch }
  else nextBatch readReqs { s with processed := s.processed + submitted }

inductive Answer
  | submitted (ret : ℕ)
  | submitFailed
  -- of the read at place `j` among those in flight
  | completion (j : ℕ)
  | waitFailed
  | readFailed

/-- The first `ret` entries go to the kernel. -/
def State.consume (s : State α) (ret : ℕ) : State α :=
  { s with
    ring := { s.ring with
      queued := s.ring.queued.drop ret
      inFlight := s.ring.inFlight ++ s.ring.queued.take ret }
    submitted := s.submitted ++ s.ring.queued.take ret }

/-- `io_uring_cqe_seen`. -/
def State.cqeSeen (s : State α) (j : ℕ) (req : α) : State α :=
  { s with
    ring := { s.ring with inFlight := s.ring.inFlight.eraseIdx j }
    completed := s.completed ++ [req] }

/-- The call from one answer to the next; none for an answer that cannot come. A failure
ends the process. -/
def step (readReqs : List α) (s : State α) (a : Answer) : Option (State α) :=
  match s.phase, a with
  | .submit, .submitted ret =>
    if ret ≤ s.ring.queued.length then some (awaitNext readReqs (s.consume ret) ret 0) else none
  | .submit, .submitFailed => some { s with phase := .exited }
  | .wait submitted completedInBatch, .completion j =>
    match s.ring.inFlight[j]? with
    | none => none
    | some req => some (awaitNext readReqs (s.cqeSeen j req) submitted (completedInBatch + 1))
  | .wait _ _, .waitFailed => some { s with phase := .exited }
  | .wait _ _, .readFailed => some { s with phase := .exited }
  | _, _ => none

/-- `execute_io_uring` on an empty ring, up to the first answer. -/
def executeIoUring (capacity : ℕ) (readReqs : List α) : State α :=
  nextBatch readReqs ⟨⟨capacity, [], []⟩, 0, .submit, [], []⟩

def run (readReqs : List α) : State α → List Answer → Option (State α)
  | s, [] => some s
  | s, a :: answers =>
    match step readReqs s a with
    | none => none
    | some s => run readReqs s answers

/-! ### What a step does -/

theorem step_cases {readReqs : List α} {s t : State α} {a : Answer}
    (h : step readReqs s a = some t) :
    (∃ ret, s.phase = .submit ∧ a = .submitted ret ∧ ret ≤ s.ring.queued.length ∧
      t = awaitNext readReqs (s.consume ret) ret 0) ∨
    (∃ submitted completedInBatch j req, s.phase = .wait submitted completedInBatch ∧
      a = .completion j ∧ s.ring.inFlight[j]? = some req ∧
      t = awaitNext readReqs (s.cqeSeen j req) submitted (completedInBatch + 1)) ∨
    t = { s with phase := .exited } := by
  unfold step at h
  split at h
  next ret hp =>
    split_ifs at h with hret
    exact .inl ⟨ret, hp, rfl, hret, (Option.some.inj h).symm⟩
  next => exact .inr (.inr (Option.some.inj h).symm)
  next submitted completedInBatch j hp =>
    split at h
    next => cases h
    next req hreq =>
      exact .inr (.inl ⟨submitted, completedInBatch, j, req, hp, rfl, hreq,
        (Option.some.inj h).symm⟩)
  next => exact .inr (.inr (Option.some.inj h).symm)
  next => exact .inr (.inr (Option.some.inj h).symm)
  next => cases h

/-- A batch is the requests from `processed` on, as many as the room and the ring allow. -/
theorem prepareBatch_eq (readReqs : List α) (processed room batchSize : ℕ) (ring : Ring α) :
    prepareBatch readReqs processed room ring batchSize =
      { ring with
        queued := ring.queued ++ (readReqs.drop (processed + batchSize)).take
          (min room (ring.capacity - ring.queued.length)) } := by
  induction room generalizing ring batchSize with
  | zero => simp [prepareBatch]
  | succ room ih =>
    simp only [prepareBatch]
    cases hreq : readReqs[processed + batchSize]? with
    | none =>
      have hle := List.getElem?_eq_none_iff.mp hreq
      simp [List.drop_eq_nil_of_le hle]
    | some req =>
      obtain ⟨hlt, hget⟩ := List.getElem?_eq_some_iff.mp hreq
      unfold Ring.prepRead
      split_ifs with hroom
      · dsimp only
        rw [ih, List.drop_eq_getElem_cons hlt, hget]
        have hmin : min (room + 1) (ring.capacity - ring.queued.length) =
            min room (ring.capacity - (ring.queued ++ [req]).length) + 1 := by
          rw [List.length_append, List.length_singleton]
          omega
        rw [hmin, List.take_succ_cons, ← Nat.add_assoc]
        simp
      · have hfull : ring.capacity - ring.queued.length = 0 := by omega
        simp [hfull]

theorem nextBatch_of_lt {readReqs : List α} {s : State α}
    (h : s.processed < readReqs.length) :
    nextBatch readReqs s = { s with
      ring := { s.ring with
        queued := s.ring.queued ++ (readReqs.drop s.processed).take
          (min maxEvents (s.ring.capacity - s.ring.queued.length)) }
      phase := .submit } := by
  rw [nextBatch, if_pos h, prepareBatch_eq, Nat.add_zero]

theorem nextBatch_of_le {readReqs : List α} {s : State α}
    (h : readReqs.length ≤ s.processed) :
    nextBatch readReqs s = { s with phase := .returned } := by
  rw [nextBatch, if_neg (by omega)]

/-! ### Completions -/

def Phase.Awaits : Phase → ℕ → Prop
  | .submit, k => k = 0
  | .wait submitted completedInBatch, k => k + completedInBatch = submitted ∧ 0 < k
  | .returned, k => k = 0
  | .exited, _ => True

/-- What was taken is in flight or awaited, and as many reads are in flight as the call
still waits for; a wait never lacks a read that can complete. -/
structure Accounted (s : State α) : Prop where
  taken : s.submitted.Perm (s.completed ++ s.ring.inFlight)
  awaits : s.phase.Awaits s.ring.inFlight.length

theorem nextBatch_accounted {readReqs : List α} {s : State α}
    (ht : s.submitted.Perm (s.completed ++ s.ring.inFlight)) (hi : s.ring.inFlight.length = 0) :
    Accounted (nextBatch readReqs s) := by
  by_cases h : s.processed < readReqs.length
  · rw [nextBatch_of_lt h]
    exact ⟨ht, hi⟩
  · rw [nextBatch_of_le (by omega)]
    exact ⟨ht, hi⟩

theorem awaitNext_accounted {readReqs : List α} {s : State α} {submitted completedInBatch : ℕ}
    (ht : s.submitted.Perm (s.completed ++ s.ring.inFlight))
    (hi : s.ring.inFlight.length + completedInBatch = submitted) :
    Accounted (awaitNext readReqs s submitted completedInBatch) := by
  unfold awaitNext
  split_ifs with hlt
  · have hpos : 0 < s.ring.inFlight.length := by omega
    exact ⟨ht, hi, hpos⟩
  · exact nextBatch_accounted ht (by dsimp only; omega)

theorem step_accounted {readReqs : List α} {s t : State α} {a : Answer}
    (h : step readReqs s a = some t) (hs : Accounted s) : Accounted t := by
  obtain ⟨ret, hp, -, hret, rfl⟩ | ⟨submitted, completedInBatch, j, req, hp, -, hreq, rfl⟩ |
    rfl := step_cases h
  · have hidle : s.ring.inFlight.length = 0 := by simpa [hp, Phase.Awaits] using hs.awaits
    apply awaitNext_accounted
    · rw [State.consume, ← List.append_assoc]
      exact hs.taken.append_right _
    · rw [State.consume, List.length_append, List.length_take]
      omega
  · obtain ⟨hj, hget⟩ := List.getElem?_eq_some_iff.mp hreq
    have haw : s.ring.inFlight.length + completedInBatch = submitted ∧
        0 < s.ring.inFlight.length := by
      simpa [hp, Phase.Awaits] using hs.awaits
    apply awaitNext_accounted
    · rw [State.cqeSeen, List.append_assoc, List.singleton_append, ← hget]
      exact hs.taken.trans ((List.getElem_cons_eraseIdx_perm hj).symm.append_left _)
    · rw [State.cqeSeen, List.length_eraseIdx_of_lt hj]
      omega
  · exact ⟨hs.taken, trivial⟩

theorem run_cons {readReqs : List α} {s t : State α} {a : Answer} {answers : List Answer}
    (h : run readReqs s (a :: answers) = some t) :
    ∃ u, step readReqs s a = some u ∧ run readReqs u answers = some t := by
  rw [run] at h
  cases hfirst : step readReqs s a with
  | none =>
    rw [hfirst] at h
    cases h
  | some u =>
    rw [hfirst] at h
    exact ⟨u, rfl, h⟩

theorem run_induction {readReqs : List α} {P : State α → Prop}
    (hstep : ∀ {s a t}, step readReqs s a = some t → P s → P t) {answers : List Answer}
    {s t : State α} (h : run readReqs s answers = some t) (hs : P s) : P t := by
  induction answers generalizing s with
  | nil =>
    obtain rfl := Option.some.inj h
    exact hs
  | cons a answers ih =>
    obtain ⟨u, hfirst, hrest⟩ := run_cons h
    exact ih hrest (hstep hfirst hs)

theorem run_accounted {capacity : ℕ} {readReqs : List α} {answers : List Answer} {t : State α}
    (h : run readReqs (executeIoUring capacity readReqs) answers = some t) : Accounted t :=
  run_induction step_accounted h (nextBatch_accounted (List.Perm.refl _) rfl)

/-! ### Submissions that take the whole queue -/

/-- A submission takes the whole queue, or nothing of a full ring. -/
def TakesWhole (ring : Ring α) : Answer → Prop
  | .submitted ret => ret = ring.queued.length ∨ ret = 0 ∧ ring.queued.length = ring.capacity
  | _ => True

def WholeSubmits (readReqs : List α) : State α → List Answer → Prop
  | _, [] => True
  | s, a :: answers =>
    TakesWhole s.ring a ∧
      match step readReqs s a with
      | none => True
      | some s => WholeSubmits readReqs s answers

/-- The requests up to `base` are taken, and those from it on are queued. -/
structure InStep (readReqs : List α) (s : State α) (base : ℕ) : Prop where
  le : base ≤ readReqs.length
  submitted : s.submitted = readReqs.take base
  queued : s.ring.queued = (readReqs.drop base).take s.ring.queued.length
  fits : s.ring.queued.length ≤ s.ring.capacity

/-- Only the queue and what was taken count. -/
theorem InStep.of_eq {readReqs : List α} {s t : State α} {base : ℕ} (h : InStep readReqs s base)
    (hring : t.ring.queued = s.ring.queued) (hcap : t.ring.capacity = s.ring.capacity)
    (htaken : t.submitted = s.submitted) : InStep readReqs t base := by
  constructor
  case le => exact h.le
  case submitted => exact htaken.trans h.submitted
  case queued =>
    rw [hring]
    exact h.queued
  case fits =>
    rw [hring, hcap]
    exact h.fits

/-- Nothing is left over that could be prepared again. -/
def Ring.Settled (ring : Ring α) : Prop :=
  ring.queued = [] ∨ ring.queued.length = ring.capacity

/-- The index and the queue agree. -/
def OnTrack (readReqs : List α) (s : State α) : Prop :=
  match s.phase with
  | .submit => InStep readReqs s s.processed
  | .wait submitted _ => InStep readReqs s (s.processed + submitted) ∧ s.ring.Settled
  | .returned => InStep readReqs s s.processed ∧ readReqs.length ≤ s.processed
  | .exited => True

theorem nextBatch_onTrack {readReqs : List α} {s : State α}
    (hs : InStep readReqs s s.processed) (hq : s.ring.Settled) :
    OnTrack readReqs (nextBatch readReqs s) := by
  by_cases h : s.processed < readReqs.length
  · rw [nextBatch_of_lt h]
    change InStep readReqs _ s.processed
    rcases hq with hnil | hfull
    · refine ⟨hs.le, hs.submitted, ?_, ?_⟩
      · simp [hnil]
      · simp only [hnil, List.nil_append, List.length_take, List.length_nil]
        omega
    · have hzero : s.ring.capacity - s.ring.queued.length = 0 := by omega
      simp only [hzero, Nat.min_zero, List.take_zero, List.append_nil]
      exact hs.of_eq rfl rfl rfl
  · rw [nextBatch_of_le (by omega)]
    exact ⟨hs.of_eq rfl rfl rfl, by dsimp only; omega⟩

theorem awaitNext_onTrack {readReqs : List α} {s : State α} {submitted completedInBatch : ℕ}
    (hs : InStep readReqs s (s.processed + submitted)) (hq : s.ring.Settled) :
    OnTrack readReqs (awaitNext readReqs s submitted completedInBatch) := by
  unfold awaitNext
  split_ifs
  · exact ⟨hs.of_eq rfl rfl rfl, hq⟩
  · exact nextBatch_onTrack (hs.of_eq rfl rfl rfl) hq

/-- What is taken of the queue moves the base on. -/
theorem InStep.consume {readReqs : List α} {s : State α} {base ret : ℕ}
    (hs : InStep readReqs s base) (hret : ret ≤ s.ring.queued.length) :
    InStep readReqs (s.consume ret) (base + ret) := by
  have hlen : s.ring.queued.length ≤ readReqs.length - base := by
    have := congrArg List.length hs.queued
    rw [List.length_take, List.length_drop] at this
    omega
  have hfits := hs.fits
  have hle := hs.le
  refine ⟨by omega, ?_, ?_, ?_⟩
  · rw [State.consume, hs.submitted, hs.queued, List.take_take, Nat.min_eq_left hret,
      List.take_add]
  · rw [State.consume]
    dsimp only
    rw [List.length_drop]
    conv_lhs => rw [hs.queued]
    rw [List.drop_take, List.drop_drop]
  · rw [State.consume]
    dsimp only
    rw [List.length_drop]
    omega

theorem step_onTrack {readReqs : List α} {s t : State α} {a : Answer}
    (h : step readReqs s a = some t) (hs : OnTrack readReqs s)
    (ha : TakesWhole s.ring a) : OnTrack readReqs t := by
  obtain ⟨ret, hp, rfl, hret, rfl⟩ | ⟨submitted, completedInBatch, j, req, hp, -, -, rfl⟩ |
    rfl := step_cases h
  · rw [OnTrack, hp] at hs
    apply awaitNext_onTrack (hs.consume hret)
    rcases ha with rfl | ⟨rfl, hfull⟩
    · exact .inl (by simp [State.consume])
    · exact .inr (by simpa [State.consume] using hfull)
  · rw [OnTrack, hp] at hs
    obtain ⟨hstep, hq⟩ := hs
    exact awaitNext_onTrack (hstep.of_eq rfl rfl rfl) hq
  · trivial

theorem run_onTrack {readReqs : List α} {answers : List Answer} {s t : State α}
    (h : run readReqs s answers = some t) (hs : OnTrack readReqs s)
    (hwhole : WholeSubmits readReqs s answers) : OnTrack readReqs t := by
  induction answers generalizing s with
  | nil =>
    obtain rfl := Option.some.inj h
    exact hs
  | cons a answers ih =>
    obtain ⟨ha, hnext⟩ := hwhole
    obtain ⟨u, hfirst, hrest⟩ := run_cons h
    rw [hfirst] at hnext
    exact ih hrest (step_onTrack hfirst hs ha) hnext

/-! ### Submissions that do not -/

/-- A request was prepared twice. -/
def Doubled (s : State α) : Prop := ¬ (s.submitted ++ s.ring.queued).Nodup

/-- Entries are left over in a ring with room, and the next batch starts with them. -/
structure LeftOver (readReqs : List α) (s : State α) (base : ℕ) : Prop where
  queued : s.ring.queued = (readReqs.drop base).take s.ring.queued.length
  pos : 0 < s.ring.queued.length
  room : s.ring.queued.length < s.ring.capacity

/-- A request is prepared twice, or will be. -/
def Spoiled (readReqs : List α) (s : State α) : Prop :=
  Doubled s ∨ s.phase = .exited ∨
    ∃ submitted completedInBatch, s.phase = .wait submitted completedInBatch ∧
      LeftOver readReqs s (s.processed + submitted)

theorem Doubled.nextBatch {readReqs : List α} {s : State α} (hs : Doubled s) :
    Doubled (nextBatch readReqs s) := by
  by_cases h : s.processed < readReqs.length
  · rw [nextBatch_of_lt h, Doubled]
    dsimp only
    rw [← List.append_assoc]
    exact fun hnodup => hs (List.Nodup.of_append_left hnodup)
  · rw [nextBatch_of_le (by omega)]
    exact hs

theorem Doubled.awaitNext {readReqs : List α} {s : State α} (hs : Doubled s)
    (submitted completedInBatch : ℕ) :
    Doubled (awaitNext readReqs s submitted completedInBatch) := by
  unfold IoUring.awaitNext
  split_ifs
  · exact hs
  · exact Doubled.nextBatch (s := { s with processed := s.processed + submitted }) hs

theorem LeftOver.nextBatch {readReqs : List α} {s : State α}
    (hs : LeftOver readReqs s s.processed) : Doubled (nextBatch readReqs s) := by
  have hlt : s.processed < readReqs.length := by
    have hlen := congrArg List.length hs.queued
    rw [List.length_take, List.length_drop] at hlen
    have hpos := hs.pos
    omega
  have hroom : 0 < min maxEvents (s.ring.capacity - s.ring.queued.length) := by
    have h := hs.room
    have hmax : 0 < maxEvents := by decide
    omega
  have hmem : ∀ k, 0 < k → readReqs[s.processed] ∈ (readReqs.drop s.processed).take k := by
    intro k hk
    rw [List.drop_eq_getElem_cons hlt, ← Nat.sub_add_cancel hk, List.take_succ_cons]
    exact List.mem_cons_self
  have hold : readReqs[s.processed] ∈ s.ring.queued := by
    rw [hs.queued]
    exact hmem _ hs.pos
  rw [nextBatch_of_lt hlt, Doubled]
  intro hnodup
  have hqueue := List.Nodup.of_append_right hnodup
  exact List.disjoint_of_nodup_append hqueue hold (hmem _ hroom)

theorem LeftOver.awaitNext {readReqs : List α} {s : State α} {submitted : ℕ}
    (hs : LeftOver readReqs s (s.processed + submitted)) (completedInBatch : ℕ) :
    Spoiled readReqs (awaitNext readReqs s submitted completedInBatch) := by
  unfold IoUring.awaitNext
  split_ifs
  · exact .inr (.inr ⟨submitted, completedInBatch, rfl, hs.queued, hs.pos, hs.room⟩)
  · exact .inl (LeftOver.nextBatch (s := { s with processed := s.processed + submitted })
      ⟨hs.queued, hs.pos, hs.room⟩)

theorem step_spoiled {readReqs : List α} {s t : State α} {a : Answer}
    (h : step readReqs s a = some t) (hs : Spoiled readReqs s) : Spoiled readReqs t := by
  obtain ⟨ret, hp, -, hret, rfl⟩ | ⟨submitted, completedInBatch, j, req, hp, -, -, rfl⟩ |
    rfl := step_cases h
  · obtain hd | hexit | ⟨_, _, hwait, -⟩ := hs
    · refine .inl (Doubled.awaitNext ?_ _ _)
      rw [Doubled, State.consume, List.append_assoc, List.take_append_drop]
      exact hd
    · rw [hp] at hexit
      cases hexit
    · rw [hp] at hwait
      cases hwait
  · obtain hd | hexit | ⟨_, _, hwait, hleft⟩ := hs
    · exact .inl (Doubled.awaitNext (s := s.cqeSeen j req) hd _ _)
    · rw [hp] at hexit
      cases hexit
    · rw [hp] at hwait
      cases hwait
      exact LeftOver.awaitNext (s := s.cqeSeen j req) ⟨hleft.queued, hleft.pos, hleft.room⟩ _
  · exact .inr (.inl rfl)

/-- A submission that takes neither everything nor nothing of a full ring leaves entries
behind. -/
theorem step_spoils {readReqs : List α} {s t : State α} {a : Answer}
    (h : step readReqs s a = some t) (hs : OnTrack readReqs s) (ha : ¬ TakesWhole s.ring a) :
    Spoiled readReqs t := by
  obtain ⟨ret, hp, rfl, hret, rfl⟩ | ⟨_, _, _, _, -, rfl, -⟩ | rfl := step_cases h
  · rw [OnTrack, hp] at hs
    have hnext := hs.consume hret
    have hfits := hs.fits
    obtain ⟨hall, hnone⟩ := not_or.mp ha
    have hlen : (s.consume ret).ring.queued.length = s.ring.queued.length - ret := by
      rw [State.consume, List.length_drop]
    have hcap : (s.consume ret).ring.capacity = s.ring.capacity := rfl
    refine LeftOver.awaitNext ⟨hnext.queued, by omega, ?_⟩ 0
    rw [hlen, hcap]
    by_cases hzero : ret = 0
    · have hne : s.ring.queued.length ≠ s.ring.capacity := fun hfull => hnone ⟨hzero, hfull⟩
      omega
    · omega
  · exact absurd trivial ha
  · exact .inr (.inl rfl)

theorem run_spoiled {readReqs : List α} {answers : List Answer} {s t : State α}
    (h : run readReqs s answers = some t) (hs : OnTrack readReqs s)
    (hwhole : ¬ WholeSubmits readReqs s answers) : Spoiled readReqs t := by
  induction answers generalizing s with
  | nil => exact absurd trivial hwhole
  | cons a answers ih =>
    obtain ⟨u, hfirst, hrest⟩ := run_cons h
    by_cases ha : TakesWhole s.ring a
    · refine ih hrest (step_onTrack hfirst hs ha) fun hnext => hwhole ⟨ha, ?_⟩
      rw [hfirst]
      exact hnext
    · exact run_induction step_spoiled hrest (step_spoils hfirst hs ha)

/-! ### A call -/

/-- Every request was submitted once, as many completions awaited as requests submitted,
and nothing is left in the ring. -/
structure SubmittedOnce (readReqs : List α) (s : State α) : Prop where
  once : s.submitted.Perm readReqs
  awaited : s.completed.length = s.submitted.length
  drained : s.ring.queued = []

theorem executeIoUring_onTrack (capacity : ℕ) (readReqs : List α) :
    OnTrack readReqs (executeIoUring capacity readReqs) :=
  nextBatch_onTrack ⟨Nat.zero_le _, rfl, rfl, Nat.zero_le _⟩ (.inl rfl)

theorem nodup_zipIdx (readReqs : List α) : readReqs.zipIdx.Nodup := by
  apply List.Nodup.of_map Prod.snd
  rw [List.zipIdx_map_snd]
  exact List.nodup_range' 1

/-- On requests that are told apart by their places, a call that returns has submitted each
of them once exactly when every submission on the way took the whole queue, or nothing of a
full ring. -/
theorem executeIoUring_submittedOnce_iff (capacity : ℕ) (readReqs : List α)
    (answers : List Answer) (s : State (α × ℕ))
    (h : run readReqs.zipIdx (executeIoUring capacity readReqs.zipIdx) answers = some s)
    (hr : s.phase = .returned) :
    SubmittedOnce readReqs.zipIdx s ↔
      WholeSubmits readReqs.zipIdx (executeIoUring capacity readReqs.zipIdx) answers := by
  have hstart := executeIoUring_onTrack capacity readReqs.zipIdx
  constructor
  · intro hs
    by_contra hwhole
    obtain hd | hexit | ⟨_, _, hwait, -⟩ := run_spoiled h hstart hwhole
    · apply hd
      rw [hs.drained, List.append_nil]
      exact hs.once.nodup_iff.mpr (nodup_zipIdx readReqs)
    · rw [hr] at hexit
      cases hexit
    · rw [hr] at hwait
      cases hwait
  · intro hwhole
    have hend := run_onTrack h hstart hwhole
    rw [OnTrack, hr] at hend
    obtain ⟨hin, hle⟩ := hend
    have hacc := run_accounted h
    have hidle : s.ring.inFlight.length = 0 := by simpa [hr, Phase.Awaits] using hacc.awaits
    refine ⟨?_, ?_, ?_⟩
    · rw [hin.submitted, List.take_of_length_le hle]
    · have := hacc.taken.length_eq
      rw [List.length_append] at this
      omega
    · rw [hin.queued, List.drop_eq_nil_of_le hle, List.take_nil]

def threeReads : List (AlignedRead × ℕ) :=
  ([⟨0, 4096⟩, ⟨4096, 4096⟩, ⟨8192, 4096⟩] : List AlignedRead).zipIdx

/-- Nothing is taken of a full ring of two, then both entries, completing in the other
order, then the last. -/
def threeAnswers : List Answer :=
  [.submitted 0, .submitted 2, .completion 1, .completion 0, .submitted 1, .completion 0]

theorem threeReads_whole : WholeSubmits threeReads (executeIoUring 2 threeReads) threeAnswers :=
  ⟨.inr ⟨rfl, rfl⟩, .inl rfl, trivial, trivial, .inl rfl, trivial, trivial⟩

theorem threeReads_submittedOnce :
    ∃ s, run threeReads (executeIoUring 2 threeReads) threeAnswers = some s ∧
      SubmittedOnce threeReads s :=
  ⟨_, rfl, (executeIoUring_submittedOnce_iff 2 _ threeAnswers _ rfl rfl).mpr threeReads_whole⟩

/-- The first submission takes one of two entries; the other is prepared again, and one of
the two copies is still in the ring when the call returns. -/
theorem short_submission_left_over :
    ∃ s, run ([⟨0, 4096⟩, ⟨4096, 4096⟩] : List AlignedRead).zipIdx
        (executeIoUring 1024 ([⟨0, 4096⟩, ⟨4096, 4096⟩] : List AlignedRead).zipIdx)
        [.submitted 1, .completion 0, .submitted 1, .completion 0] = some s ∧
      s.phase = .returned ∧ s.ring.queued = [(⟨4096, 4096⟩, 1)] ∧
      ¬ SubmittedOnce ([⟨0, 4096⟩, ⟨4096, 4096⟩] : List AlignedRead).zipIdx s := by
  refine ⟨_, rfl, rfl, rfl, fun h => ?_⟩
  have hdrained := h.drained
  cases hdrained

end HiDANN.Disk.IoUring
