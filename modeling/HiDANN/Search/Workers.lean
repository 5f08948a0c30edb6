import HiDANN.Library.Holders
import HiDANN.Library.Runs
import HiDANN.Search.Explicit
import Mathlib.Algebra.BigOperators.Fin

/-! The parallel loop over the queries. A thread takes the next query, unless another one has
failed, registers with the reader, takes a scratch, gets its context, searches and gives the
scratch back; the first exception leaves its message. Threads are interleaved between accesses to
what they share, and see the flag late. -/

namespace HiDANN.Search

open Relation Holders TopK

/-- Where a thread is. A scratch is held in `ScratchStoreManager`, and an exception without a
text is not a `std::exception`. -/
inductive Worker
  | ready
  | begun (query : ℕ)
  | ensuring (query : ℕ) (scratch : Option ℕ)
  | registering (query : ℕ) (scratch : Option ℕ)
  | popping (query : ℕ)
  | fetching (query scratch : ℕ)
  | searching (query scratch ctx : ℕ)
  | leaving (scratch : ℕ) (thrown : Option (Option String))
  | caught (what : Option String)
  | first (what : Option String)
  | done

namespace Worker

def query : Worker → Option ℕ
  | begun i | ensuring i _ | registering i _ | popping i | fetching i _ | searching i _ _ => some i
  | _ => none

def scratch : Worker → Option ℕ
  | ensuring _ k | registering _ k => k
  | fetching _ k | searching _ k _ | leaving k _ => some k
  | _ => none

def thrown : Worker → Option (Option String)
  | leaving _ e => e
  | caught e | first e => some e
  | _ => none

def registered (i : ℕ) : Option ℕ → Worker
  | none => popping i
  | some k => fetching i k

def raise (what : Option String) : Option ℕ → Worker
  | none => caught what
  | some k => leaving k (some what)

/-- After the search, with or without an exception. -/
def released : Option (Option String) → Worker
  | none => ready
  | some what => caught what

/-- What a thread relies on of its context. -/
def Registered (ctx : Option ℕ) : Worker → Prop
  | registering .. => ctx = none
  | popping _ | ensuring _ (some _) | fetching .. => ctx.isSome
  | searching _ _ c => ctx = some c
  | _ => True

/-- How many steps there can be before the thread is done with its query, and one more. -/
def rank : Worker → ℕ
  | begun _ => 12
  | ensuring _ none => 11
  | registering _ none => 10
  | popping _ => 9
  | ensuring _ (some _) => 8
  | registering _ (some _) => 7
  | fetching .. => 6
  | searching .. => 5
  | leaving .. => 4
  | caught _ => 3
  | first _ => 2
  | ready => 1
  | done => 0

end Worker

/-- What the threads of a search share, the contexts by thread, and the results. -/
structure Workers (n : ℕ) (β : Type*) where
  next : ℕ
  worker : Fin n → Worker
  scratches : List ℕ
  contexts : ℕ
  ctxMap : Fin n → Option ℕ
  cached : Fin n → Option ℕ
  failure : Bool
  message : String
  results : ℕ → Option β

namespace Workers

variable {n : ℕ} {β : Type*}

/-- `load`, which makes a scratch for each thread. -/
def load (numThreads : ℕ) : Workers n β where
  next := 0
  worker _ := .ready
  scratches := List.range numThreads
  contexts := 0
  ctxMap _ := none
  cached _ := none
  failure := false
  message := ""
  results _ := none

/-- The next loop, with what the reader and the search keep. -/
def restart (s : Workers n β) : Workers n β :=
  { s with
    next := 0
    worker := fun _ => .ready
    failure := false
    message := ""
    results := fun _ => none }

def put (s : Workers n β) (w : Fin n) (t : Worker) : Workers n β :=
  { s with worker := Function.update s.worker w t }

/-- `get_ctx`, with the cache of the thread. -/
def getCtx (s : Workers n β) (w : Fin n) : Except String (ℕ × (Fin n → Option ℕ)) :=
  match s.cached w with
  | some c => .ok (c, s.cached)
  | none => match s.ctxMap w with
    | none => .error "get_ctx() called from an unregistered thread"
    | some c => .ok (c, Function.update s.cached w (some c))

def registeredTwice : String :=
  "register_thread() called more than once from the same thread for the same reader"

def text (what : Option String) : String := what.getD "unknown exception in search worker"

section Step

variable (queryNum : ℕ) (result : ℕ → β) (Fails : ℕ → Option String → Prop)

/-- What a thread does on its own. `Fails` are the exceptions of `io_setup` and of the reads. -/
inductive Move (s : Workers n β) (w : Fin n) : Worker → Worker → Prop
  | finish : queryNum ≤ s.next → Move s w .ready .done
  | skip {i : ℕ} : s.failure → Move s w (.begun i) .ready
  | enter {i : ℕ} : Move s w (.begun i) (.ensuring i none)
  | registered {i : ℕ} {k : Option ℕ} : (s.ctxMap w).isSome →
    Move s w (.ensuring i k) (.registered i k)
  | unregistered {i : ℕ} {k : Option ℕ} : s.ctxMap w = none →
    Move s w (.ensuring i k) (.registering i k)
  | registeredTwice {i : ℕ} {k : Option ℕ} : (s.ctxMap w).isSome →
    Move s w (.registering i k) (.raise (some registeredTwice) k)
  | registerFails {i : ℕ} {k : Option ℕ} {what : Option String} : Fails i what →
    Move s w (.registering i k) (.raise what k)
  | fetchFails {i k : ℕ} {e : String} : s.getCtx w = .error e →
    Move s w (.fetching i k) (.leaving k (some (some e)))
  | searchFails {i k c : ℕ} {what : Option String} : Fails i what →
    Move s w (.searching i k c) (.leaving k (some what))

/-- A step of a thread. -/
inductive Step : Workers n β → Workers n β → Prop
  | move {s : Workers n β} {w : Fin n} {t : Worker} : Move queryNum Fails s w (s.worker w) t →
    Step s (s.put w t)
  | take {s : Workers n β} {w : Fin n} : s.worker w = .ready → s.next < queryNum →
    Step s { s.put w (.begun s.next) with next := s.next + 1 }
  | register {s : Workers n β} {w : Fin n} {i : ℕ} {k : Option ℕ} :
    s.worker w = .registering i k → s.ctxMap w = none →
    Step s { s.put w (.registered i k) with
      ctxMap := Function.update s.ctxMap w (some s.contexts)
      contexts := s.contexts + 1 }
  | pop {s : Workers n β} {w : Fin n} {i k : ℕ} {scratches : List ℕ} : s.worker w = .popping i →
    s.scratches = k :: scratches →
    Step s { s.put w (.ensuring i (some k)) with scratches := scratches }
  | wait {s : Workers n β} {w : Fin n} {i : ℕ} : s.worker w = .popping i → s.scratches = [] →
    Step s s
  | fetch {s : Workers n β} {w : Fin n} {i k c : ℕ} {cached : Fin n → Option ℕ} :
    s.worker w = .fetching i k → s.getCtx w = .ok (c, cached) →
    Step s { s.put w (.searching i k c) with cached := cached }
  | answer {s : Workers n β} {w : Fin n} {i k c : ℕ} : s.worker w = .searching i k c →
    Step s { s.put w (.leaving k none) with
      results := Function.update s.results i (some (result i)) }
  | release {s : Workers n β} {w : Fin n} {k : ℕ} {thrown : Option (Option String)} :
    s.worker w = .leaving k thrown →
    Step s { s.put w (.released thrown) with scratches := s.scratches ++ [k] }
  | exchange {s : Workers n β} {w : Fin n} {what : Option String} : s.worker w = .caught what →
    Step s { s.put w (if s.failure then .ready else .first what) with failure := true }
  | record {s : Workers n β} {w : Fin n} {what : Option String} : s.worker w = .first what →
    Step s { s.put w .ready with message := text what }

end Step

def Done (s : Workers n β) : Prop := ∀ w, s.worker w = .done

/-- What the program makes of a loop that has ended. -/
def answers (queryNum : ℕ) (s : Workers n β) : Except String (List β) :=
  if s.failure then
    .error ("Search aborted due to worker initialization/read failure: " ++ s.message)
  else .ok ((List.range queryNum).filterMap s.results)

/-! ### What is held -/

def queries (s : Workers n β) (w : Fin n) : Option ℕ := (s.worker w).query

def held (s : Workers n β) (w : Fin n) : Option ℕ := (s.worker w).scratch

variable {queryNum numThreads : ℕ} {result : ℕ → β} {Fails : ℕ → Option String → Prop}
  {s s' : Workers n β} {w : Fin n} {t t' : Worker}

theorem worker_put (s : Workers n β) (w : Fin n) (t : Worker) : (s.put w t).worker w = t :=
  Function.update_self ..

theorem worker_put_of_ne (s : Workers n β) {v : Fin n} (h : v ≠ w) (t : Worker) :
    (s.put w t).worker v = s.worker v := Function.update_of_ne h ..

theorem queries_put (s : Workers n β) (w : Fin n) {t : Worker} {i : Option ℕ} (h : t.query = i) :
    (s.put w t).queries = Function.update s.queries w i :=
  h ▸ Function.comp_update Worker.query s.worker w t

theorem held_put (s : Workers n β) (w : Fin n) {t : Worker} {k : Option ℕ} (h : t.scratch = k) :
    (s.put w t).held = Function.update s.held w k :=
  h ▸ Function.comp_update Worker.scratch s.worker w t

theorem queries_put_eq (h : t.query = s.queries w) : (s.put w t).queries = s.queries := by
  rw [queries_put s w h, Function.update_eq_self]

theorem held_put_eq (h : t.scratch = s.held w) : (s.put w t).held = s.held := by
  rw [held_put s w h, Function.update_eq_self]

@[simp] theorem query_registered (i : ℕ) (k : Option ℕ) :
    (Worker.registered i k).query = some i := by cases k <;> rfl

@[simp] theorem scratch_registered (i : ℕ) (k : Option ℕ) :
    (Worker.registered i k).scratch = k := by cases k <;> rfl

@[simp] theorem thrown_registered (i : ℕ) (k : Option ℕ) :
    (Worker.registered i k).thrown = none := by cases k <;> rfl

@[simp] theorem query_raise (what : Option String) (k : Option ℕ) :
    (Worker.raise what k).query = none := by cases k <;> rfl

@[simp] theorem scratch_raise (what : Option String) (k : Option ℕ) :
    (Worker.raise what k).scratch = k := by cases k <;> rfl

@[simp] theorem thrown_raise (what : Option String) (k : Option ℕ) :
    (Worker.raise what k).thrown = some what := by cases k <;> rfl

@[simp] theorem query_released (thrown : Option (Option String)) :
    (Worker.released thrown).query = none := by cases thrown <;> rfl

@[simp] theorem scratch_released (thrown : Option (Option String)) :
    (Worker.released thrown).scratch = none := by cases thrown <;> rfl

@[simp] theorem thrown_released (thrown : Option (Option String)) :
    (Worker.released thrown).thrown = thrown := by cases thrown <;> rfl

/-- A thread that moves keeps its scratch. -/
theorem Move.scratch (h : Move queryNum Fails s w t t') : t'.scratch = t.scratch := by
  cases h with
  | registered => exact scratch_registered ..
  | registeredTwice | registerFails => exact scratch_raise ..
  | finish | skip | enter | unregistered | fetchFails | searchFails => rfl

/-- It keeps its query, or drops it for a reason. -/
theorem Move.query (h : Move queryNum Fails s w t t') :
    t'.query = t.query ∧ t'.thrown = t.thrown ∨
      t'.query = none ∧ t.thrown = none ∧ (s.failure ∨ t'.thrown.isSome) := by
  cases h with
  | registered => exact .inl ⟨query_registered .., thrown_registered ..⟩
  | registeredTwice | registerFails => exact .inr ⟨query_raise .., rfl, .inr (by simp)⟩
  | finish | enter | unregistered => exact .inl ⟨rfl, rfl⟩
  | skip hfailure => exact .inr ⟨rfl, rfl, .inl hfailure⟩
  | fetchFails | searchFails => exact .inr ⟨rfl, rfl, .inr rfl⟩

/-- No scratch is lost, and none has two holders. -/
theorem Step.pooled (hs : Step queryNum result Fails s s')
    (h : Pooled (Finset.range numThreads) s.scratches s.held) :
    Pooled (Finset.range numThreads) s'.scratches s'.held := by
  have hsame : ∀ {w t}, t.scratch = (s.worker w).scratch →
      Pooled (Finset.range numThreads) s.scratches (s.put w t).held := fun ht => by
    rwa [held_put_eq ht]
  cases hs with
  | move hmove => exact hsame hmove.scratch
  | take hw => exact hsame (by rw [hw]; rfl)
  | register hw => exact hsame (by rw [hw, scratch_registered]; rfl)
  | @pop w i k scratches hw hpool =>
    rw [hpool] at h
    have htake := h.take (show s.held w = none by rw [held, hw]; rfl)
    rwa [← held_put s w (t := .ensuring i (some k)) (k := some k) rfl] at htake
  | wait => exact h
  | fetch hw => exact hsame (by rw [hw]; rfl)
  | answer hw => exact hsame (by rw [hw]; rfl)
  | @release w k thrown hw =>
    have hgive := h.give (show s.held w = some k by rw [held, hw]; rfl)
    rwa [← held_put s w (scratch_released thrown)] at hgive
  | exchange hw => exact hsame (by rw [hw]; split_ifs <;> rfl)
  | record hw => exact hsame (by rw [hw]; rfl)

/-- No query has two threads. -/
theorem Step.numbered (hs : Step queryNum result Fails s s') (h : Numbered s.next s.queries) :
    Numbered s'.next s'.queries := by
  have hsame : ∀ {w t}, t.query = (s.worker w).query → Numbered s.next (s.put w t).queries :=
    fun ht => by rwa [queries_put_eq ht]
  have hdrop : ∀ {w t}, t.query = none → Numbered s.next (s.put w t).queries := by
    intro w t ht
    rw [queries_put s w ht]
    exact h.release w
  cases hs with
  | move hmove =>
    rcases hmove.query with ⟨hquery, -⟩ | ⟨hquery, -⟩
    · exact hsame hquery
    · exact hdrop hquery
  | @take w hw =>
    have hnext := h.next w
    rwa [← queries_put s w (t := .begun s.next) (i := some s.next) rfl] at hnext
  | register hw => exact hsame (by rw [hw, query_registered]; rfl)
  | pop hw => exact hsame (by rw [hw]; rfl)
  | wait => exact h
  | fetch hw => exact hsame (by rw [hw]; rfl)
  | answer => exact hdrop rfl
  | release => exact hdrop (query_released _)
  | exchange hw => exact hsame (by rw [hw]; split_ifs <;> rfl)
  | record hw => exact hsame (by rw [hw]; rfl)

/-! ### Contexts -/

/-- Every thread has a context of its own, if any. -/
structure HasCtx (s : Workers n β) : Prop where
  numbered : Numbered s.contexts s.ctxMap
  cached : ∀ w c, s.cached w = some c → s.ctxMap w = some c
  place : ∀ w, (s.worker w).Registered (s.ctxMap w)

theorem registered_registered {ctx : Option ℕ} (h : ctx.isSome) (i : ℕ) (k : Option ℕ) :
    (Worker.registered i k).Registered ctx := by cases k <;> exact h

theorem registered_raise (ctx : Option ℕ) (what : Option String) (k : Option ℕ) :
    (Worker.raise what k).Registered ctx := by cases k <;> trivial

theorem registered_released (ctx : Option ℕ) (thrown : Option (Option String)) :
    (Worker.released thrown).Registered ctx := by cases thrown <;> trivial

theorem HasCtx.put (h : HasCtx s) (ht : t.Registered (s.ctxMap w)) : HasCtx (s.put w t) := by
  refine ⟨h.numbered, h.cached, fun v => ?_⟩
  rcases eq_or_ne v w with rfl | hv
  · rw [worker_put]
    exact ht
  · rw [worker_put_of_ne s hv]
    exact h.place v

theorem HasCtx.getCtx (h : HasCtx s) (hw : (s.ctxMap w).isSome) :
    ∃ c cached, s.getCtx w = .ok (c, cached) ∧ s.ctxMap w = some c ∧
      ∀ v c, cached v = some c → s.ctxMap v = some c := by
  obtain ⟨c, hc⟩ := Option.isSome_iff_exists.mp hw
  rw [Workers.getCtx]
  cases hcached : s.cached w with
  | some c' => exact ⟨c', s.cached, rfl, h.cached w c' hcached, h.cached⟩
  | none =>
    rw [hc]
    refine ⟨c, _, rfl, rfl, fun v c' hv => ?_⟩
    rcases eq_or_ne v w with rfl | hne
    · rw [Function.update_self] at hv
      exact hc.trans hv
    · rw [Function.update_of_ne hne] at hv
      exact h.cached v c' hv

theorem Move.place (h : Move queryNum Fails s w t t') (hplace : t.Registered (s.ctxMap w)) :
    t'.Registered (s.ctxMap w) := by
  cases h with
  | registered hctx => exact registered_registered hctx ..
  | unregistered hctx => exact hctx
  | registeredTwice | registerFails => exact registered_raise ..
  | finish | skip | enter | fetchFails | searchFails => trivial

theorem Step.hasCtx (hs : Step queryNum result Fails s s') (h : HasCtx s) : HasCtx s' := by
  cases hs with
  | move hmove => exact h.put (hmove.place (h.place _))
  | take => exact ⟨h.numbered, h.cached, (h.put (t := .begun s.next) trivial).place⟩
  | @register w i k hw hnone =>
    refine ⟨h.numbered.next w, fun v c hv => ?_, fun v => ?_⟩
    · have hold := h.cached v c hv
      have hne : v ≠ w := by
        rintro rfl
        rw [hnone] at hold
        cases hold
      exact (Function.update_of_ne hne ..).trans hold
    · rcases eq_or_ne v w with rfl | hne
      · simp only [put, Function.update_self]
        exact registered_registered rfl ..
      · simp only [put, Function.update_of_ne hne]
        exact h.place v
  | @pop w i k scratches hw =>
    have hplace := h.place w
    rw [hw] at hplace
    exact ⟨h.numbered, h.cached, (h.put (t := .ensuring i (some k)) hplace).place⟩
  | wait => exact h
  | @fetch w i k c cached hw hget =>
    have hplace := h.place w
    rw [hw] at hplace
    obtain ⟨c', cached', hget', hctx, hcached⟩ := h.getCtx hplace
    obtain ⟨rfl, rfl⟩ := Prod.mk.inj (Except.ok.inj (hget'.symm.trans hget))
    exact ⟨h.numbered, hcached, (h.put (t := .searching i k c') hctx).place⟩
  | answer => exact ⟨h.numbered, h.cached, (h.put (t := .leaving _ none) trivial).place⟩
  | release =>
    exact ⟨h.numbered, h.cached, (h.put (t := .released _) (registered_released ..)).place⟩
  | @exchange w what hw =>
    refine ⟨h.numbered, h.cached,
      (h.put (w := w) (t := if s.failure then .ready else .first what) ?_).place⟩
    split_ifs <;> trivial
  | record => exact ⟨h.numbered, h.cached, (h.put (t := .ready) trivial).place⟩

theorem Move.ne_first (h : Move queryNum Fails s w t t') (what : Option String) :
    t ≠ .first what ∧ t' ≠ .first what := by
  cases h with
  | @registered _ k | @registeredTwice _ k | @registerFails _ k => cases k <;> exact ⟨nofun, nofun⟩
  | finish | skip | enter | unregistered | fetchFails | searchFails => exact ⟨nofun, nofun⟩

/-- The errors of the reader itself are never thrown. -/
theorem Move.thrown (h : Move queryNum Fails s w t t') (hc : HasCtx s)
    (hplace : t.Registered (s.ctxMap w)) {what : Option String} (hwhat : t'.thrown = some what) :
    ∃ i, t.query = some i ∧ Fails i what := by
  cases h with
  | registered =>
    rw [thrown_registered] at hwhat
    cases hwhat
  | registeredTwice hctx =>
    rw [Worker.Registered] at hplace
    rw [hplace] at hctx
    cases hctx
  | registerFails hfails =>
    rw [thrown_raise] at hwhat
    obtain rfl := Option.some.inj hwhat
    exact ⟨_, rfl, hfails⟩
  | fetchFails hget =>
    obtain ⟨c, cached, hget', -⟩ := hc.getCtx hplace
    rw [hget'] at hget
    cases hget
  | searchFails hfails =>
    obtain rfl := Option.some.inj hwhat
    exact ⟨_, rfl, hfails⟩
  | finish | skip | enter | unregistered => cases hwhat

/-! ### Queries -/

/-- A query that has been taken has its result, a thread, or a failure that stops the others. -/
def Accounted (s : Workers n β) (i : ℕ) : Prop :=
  s.results i ≠ none ∨ (∃ w, s.queries w = some i) ∨ s.failure ∨
    ∃ w, (s.worker w).thrown ≠ none

/-- What another thread does leaves a query accounted for. -/
theorem Accounted.mono {i : ℕ} (h : s.Accounted i) (hworker : ∀ v ≠ w, s'.worker v = s.worker v)
    (hquery : s.queries w ≠ some i) (hthrown : (s.worker w).thrown = none)
    (hres : s.results i ≠ none → s'.results i ≠ none) (hfail : s.failure → s'.failure) :
    s'.Accounted i := by
  rcases h with h | ⟨v, hv⟩ | h | ⟨v, hv⟩
  · exact .inl (hres h)
  · refine .inr (.inl ⟨v, ?_⟩)
    rw [queries, hworker v, ← hv, queries]
    rintro rfl
    exact hquery hv
  · exact .inr (.inr (.inl (hfail h)))
  · refine .inr (.inr (.inr ⟨v, ?_⟩))
    rwa [hworker v]
    rintro rfl
    exact hv hthrown

variable (queryNum result) in
structure Answered (s : Workers n β) : Prop where
  next_le : s.next ≤ queryNum
  results : ∀ i b, s.results i = some b → b = result i ∧ i < s.next ∧ ∀ w, s.queries w ≠ some i
  accounted : ∀ i < s.next, s.Accounted i

/-- A thread keeps its query, or drops it for a reason. -/
theorem Answered.put (h : Answered queryNum result s)
    (hquery : t.query = s.queries w ∧ t.thrown = (s.worker w).thrown ∨
      t.query = none ∧ (s.worker w).thrown = none ∧ (s.failure ∨ t.thrown.isSome)) :
    Answered queryNum result (s.put w t) := by
  have hold : ∀ v i, (s.put w t).queries v = some i → s.queries v = some i := by
    intro v i hi
    rcases hquery with ⟨heq, -⟩ | ⟨heq, -⟩
    · rwa [queries_put_eq heq] at hi
    · rw [queries_put s w heq] at hi
      rcases eq_or_ne v w with rfl | hv
      · rw [Function.update_self] at hi
        cases hi
      · rwa [Function.update_of_ne hv] at hi
  refine ⟨h.next_le, fun i b hb => ?_, fun i hi => ?_⟩
  · obtain ⟨heq, hlt, hfree⟩ := h.results i b hb
    exact ⟨heq, hlt, fun v hv => hfree v (hold v i hv)⟩
  · rcases hquery with ⟨heq, hthrown⟩ | ⟨-, hnone, hwhy⟩
    · rcases h.accounted i hi with hres | ⟨v, hv⟩ | hfail | ⟨v, hv⟩
      · exact .inl hres
      · exact .inr (.inl ⟨v, by rwa [queries_put_eq heq]⟩)
      · exact .inr (.inr (.inl hfail))
      · refine .inr (.inr (.inr ⟨v, ?_⟩))
        rcases eq_or_ne v w with rfl | hne
        · rwa [worker_put, hthrown]
        · rwa [worker_put_of_ne s hne]
    · rcases hwhy with hfail | hsome
      · exact .inr (.inr (.inl hfail))
      · refine .inr (.inr (.inr ⟨w, ?_⟩))
        rw [worker_put]
        exact Option.ne_none_iff_isSome.mpr hsome

/-- A thread takes the next query. -/
theorem Answered.take (h : Answered queryNum result s) (hw : s.worker w = .ready)
    (hlt : s.next < queryNum) :
    Answered queryNum result { s.put w (.begun s.next) with next := s.next + 1 } := by
  have hnone : s.queries w = none := by rw [queries, hw]; rfl
  have hother : ∀ v ≠ w, (s.put w (.begun s.next)).worker v = s.worker v :=
    fun v hv => worker_put_of_ne s hv _
  refine ⟨hlt, fun i b hb => ?_, fun i hi => ?_⟩
  · obtain ⟨heq, hi, hfree⟩ := h.results i b hb
    refine ⟨heq, hi.trans (Nat.lt_succ_self _), fun v hv => ?_⟩
    have hv : (s.put w (.begun s.next)).queries v = some i := hv
    rw [queries_put s w (i := some s.next) rfl] at hv
    rcases eq_or_ne v w with rfl | hne
    · rw [Function.update_self] at hv
      exact hi.ne (Option.some.inj hv).symm
    · rw [Function.update_of_ne hne] at hv
      exact hfree v hv
  · rcases Nat.lt_succ_iff_lt_or_eq.mp hi with hi | rfl
    · refine (h.accounted i hi).mono hother ?_ (by rw [hw]; rfl) id id
      rw [hnone]
      exact nofun
    · exact .inr (.inl ⟨w, congrArg Worker.query (worker_put s w _)⟩)

/-- A thread leaves its query with the result. -/
theorem Answered.answer {i k c : ℕ} (h : Answered queryNum result s)
    (hn : Numbered s.next s.queries) (hw : s.worker w = .searching i k c) :
    Answered queryNum result { s.put w (.leaving k none) with
      results := Function.update s.results i (some (result i)) } := by
  have hi : s.queries w = some i := by rw [queries, hw]; rfl
  have hother : ∀ v ≠ w, (s.put w (.leaving k none)).worker v = s.worker v :=
    fun v hv => worker_put_of_ne s hv _
  refine ⟨h.next_le, fun j b hb => ?_, fun j hj => ?_⟩
  · have hqueries : (s.put w (.leaving k none)).queries = Function.update s.queries w none :=
      queries_put s w rfl
    have hleft : ∀ v j, (s.put w (.leaving k none)).queries v = some j →
        v ≠ w ∧ s.queries v = some j := by
      intro v j hv
      rw [hqueries] at hv
      rcases eq_or_ne v w with rfl | hne
      · rw [Function.update_self] at hv
        cases hv
      · exact ⟨hne, by rwa [Function.update_of_ne hne] at hv⟩
    dsimp only at hb
    rcases eq_or_ne j i with rfl | hne
    · rw [Function.update_self] at hb
      refine ⟨(Option.some.inj hb).symm, hn.lt w j hi, fun v hv => ?_⟩
      obtain ⟨hvw, hv⟩ := hleft v j hv
      exact hvw (hn.exclusive v w j hv hi)
    · rw [Function.update_of_ne hne] at hb
      obtain ⟨heq, hlt, hfree⟩ := h.results j b hb
      exact ⟨heq, hlt, fun v hv => hfree v (hleft v j hv).2⟩
  · rcases eq_or_ne j i with rfl | hne
    · refine .inl ?_
      dsimp only
      rw [Function.update_self]
      exact nofun
    · refine (h.accounted j hj).mono hother ?_ (by rw [hw]; rfl) (fun hres => ?_) id
      · rw [hi]
        exact fun heq => hne (Option.some.inj heq).symm
      · dsimp only
        rwa [Function.update_of_ne hne]

theorem Step.answered (hs : Step queryNum result Fails s s') (hn : Numbered s.next s.queries)
    (hfailed : ∀ w what, s.worker w = .first what → s.failure)
    (h : Answered queryNum result s) : Answered queryNum result s' := by
  -- the query and the exception stay with the thread
  have hsame : ∀ {w t}, t.query = (s.worker w).query → t.thrown = (s.worker w).thrown →
      Answered queryNum result (s.put w t) := fun hquery hthrown => h.put (.inl ⟨hquery, hthrown⟩)
  cases hs with
  | move hmove => exact h.put hmove.query
  | take hw hlt => exact h.take hw hlt
  | @register w i k hw =>
    have := hsame (w := w) (t := .registered i k) (by rw [hw, query_registered]; rfl)
      (by rw [hw, thrown_registered]; rfl)
    exact ⟨this.next_le, this.results, this.accounted⟩
  | @pop w i k scratches hw =>
    have := hsame (w := w) (t := .ensuring i (some k)) (by rw [hw]; rfl) (by rw [hw]; rfl)
    exact ⟨this.next_le, this.results, this.accounted⟩
  | wait => exact h
  | @fetch w i k c cached hw =>
    have := hsame (w := w) (t := .searching i k c) (by rw [hw]; rfl) (by rw [hw]; rfl)
    exact ⟨this.next_le, this.results, this.accounted⟩
  | answer hw => exact h.answer hn hw
  | @release w k thrown hw =>
    have := hsame (w := w) (t := .released thrown) (by rw [hw, query_released]; rfl)
      (by rw [hw, thrown_released]; rfl)
    exact ⟨this.next_le, this.results, this.accounted⟩
  | @exchange w what hw =>
    have hquery : (s.put w (if s.failure then .ready else .first what)).queries = s.queries :=
      queries_put_eq (by rw [queries, hw]; split_ifs <;> rfl)
    exact ⟨h.next_le, fun i b hb => hquery ▸ h.results i b hb, fun i _ => .inr (.inr (.inl rfl))⟩
  | @record w what hw =>
    have hquery : (s.put w .ready).queries = s.queries :=
      queries_put_eq (by rw [queries, hw]; rfl)
    exact ⟨h.next_le, fun i b hb => hquery ▸ h.results i b hb,
      fun i _ => .inr (.inr (.inl (hfailed w what hw)))⟩

/-! ### Failures -/

variable (queryNum Fails) in
structure Failures (s : Workers n β) : Prop where
  thrown : ∀ w what, (s.worker w).thrown = some what → ∃ i < queryNum, Fails i what
  failed : ∀ w what, s.worker w = .first what → s.failure
  told : s.failure → (∃ w what, s.worker w = .first what) ∨
    ∃ i < queryNum, ∃ what, Fails i what ∧ s.message = text what

theorem Failures.put (h : Failures queryNum Fails s)
    (hthrown : ∀ what, t.thrown = some what → ∃ i < queryNum, Fails i what)
    (hwas : ∀ what, s.worker w ≠ .first what) (hfirst : ∀ what, t ≠ .first what) :
    Failures queryNum Fails (s.put w t) := by
  refine ⟨fun v what hv => ?_, fun v what hv => ?_, fun hfail => ?_⟩
  · rcases eq_or_ne v w with rfl | hne
    · rw [worker_put] at hv
      exact hthrown what hv
    · rw [worker_put_of_ne s hne] at hv
      exact h.thrown v what hv
  · rcases eq_or_ne v w with rfl | hne
    · rw [worker_put] at hv
      exact absurd hv (hfirst what)
    · rw [worker_put_of_ne s hne] at hv
      exact h.failed v what hv
  · refine (h.told hfail).imp (fun ⟨v, what, hv⟩ => ⟨v, what, ?_⟩) id
    rw [worker_put_of_ne s, hv]
    rintro rfl
    exact hwas what hv

/-- The first thread that has caught an exception is going to tell it. -/
theorem Failures.exchange {what : Option String} (h : Failures queryNum Fails s)
    (hw : s.worker w = .caught what) :
    Failures queryNum Fails { s.put w (if s.failure then .ready else .first what) with
      failure := true } := by
  have hother : ∀ v ≠ w, (s.put w (if s.failure then .ready else .first what)).worker v =
      s.worker v := fun v hv => worker_put_of_ne s hv _
  refine ⟨fun v e hv => ?_, fun _ _ _ => rfl, fun _ => ?_⟩
  · rcases eq_or_ne v w with rfl | hne
    · dsimp only at hv
      rw [worker_put] at hv
      split_ifs at hv with hfail
      · cases hv
      · exact h.thrown v e (by rw [hw]; exact hv)
    · exact h.thrown v e (hother v hne ▸ hv)
  · by_cases hfail : s.failure
    · refine (h.told hfail).imp (fun ⟨v, e, hv⟩ => ⟨v, e, (hother v ?_).trans hv⟩) id
      rintro rfl
      rw [hw] at hv
      cases hv
    · refine .inl ⟨w, what, (worker_put s w _).trans ?_⟩
      rw [if_neg hfail]

/-- The exception that is told is one of a query. -/
theorem Failures.record {what : Option String} (h : Failures queryNum Fails s)
    (hw : s.worker w = .first what) :
    Failures queryNum Fails { s.put w .ready with message := text what } := by
  have hother : ∀ v ≠ w, (s.put w .ready).worker v = s.worker v :=
    fun v hv => worker_put_of_ne s hv _
  obtain ⟨i, hi, hfails⟩ := h.thrown w what (by rw [hw]; rfl)
  refine ⟨fun v e hv => ?_, fun v e hv => ?_, fun _ => .inr ⟨i, hi, what, hfails, rfl⟩⟩
  · rcases eq_or_ne v w with rfl | hne
    · dsimp only at hv
      rw [worker_put] at hv
      cases hv
    · exact h.thrown v e (hother v hne ▸ hv)
  · exact h.failed w what hw

theorem Step.failures (hs : Step queryNum result Fails s s') (hn : Numbered s.next s.queries)
    (hle : s.next ≤ queryNum) (hc : HasCtx s) (h : Failures queryNum Fails s) :
    Failures queryNum Fails s' := by
  -- nothing is thrown
  have hquiet : ∀ {w t}, t.thrown = none → (∀ what, s.worker w ≠ .first what) →
      Failures queryNum Fails (s.put w t) := fun {w t} ht hwas =>
    h.put (fun what hwhat => by rw [ht] at hwhat; cases hwhat) hwas fun what hfirst => by
      rw [hfirst] at ht
      cases ht
  cases hs with
  | @move w t hmove =>
    refine h.put (fun what hwhat => ?_) (fun what => (hmove.ne_first what).1)
      fun what => (hmove.ne_first what).2
    obtain ⟨i, hi, hfails⟩ := hmove.thrown hc (hc.place w) hwhat
    exact ⟨i, (hn.lt w i hi).trans_le hle, hfails⟩
  | @take w hw =>
    have := hquiet (w := w) (t := .begun s.next) rfl fun what => by rw [hw]; exact nofun
    exact ⟨this.thrown, this.failed, this.told⟩
  | @register w i k hw =>
    have := hquiet (w := w) (thrown_registered i k) fun what => by rw [hw]; exact nofun
    exact ⟨this.thrown, this.failed, this.told⟩
  | @pop w i k scratches hw =>
    have := hquiet (w := w) (t := .ensuring i (some k)) rfl fun what => by rw [hw]; exact nofun
    exact ⟨this.thrown, this.failed, this.told⟩
  | wait => exact h
  | @fetch w i k c cached hw =>
    have := hquiet (w := w) (t := .searching i k c) rfl fun what => by rw [hw]; exact nofun
    exact ⟨this.thrown, this.failed, this.told⟩
  | @answer w i k c hw =>
    have := hquiet (w := w) (t := .leaving k none) rfl fun what => by rw [hw]; exact nofun
    exact ⟨this.thrown, this.failed, this.told⟩
  | @release w k thrown hw =>
    have := h.put (w := w) (t := .released thrown) (fun what hwhat => ?_)
      (fun what => by rw [hw]; exact nofun) (fun what => by cases thrown <;> exact nofun)
    · exact ⟨this.thrown, this.failed, this.told⟩
    · rw [thrown_released] at hwhat
      exact h.thrown w what (by rw [hw]; exact hwhat)
  | exchange hw => exact h.exchange hw
  | record hw => exact h.record hw

theorem Move.done (h : Move queryNum Fails s w t t') (hdone : t' = .done) : queryNum ≤ s.next := by
  cases h with
  | finish hle => exact hle
  | @registered i k | @registeredTwice i k | @registerFails i k => cases k <;> cases hdone
  | skip | enter | unregistered | fetchFails | searchFails => cases hdone

theorem Step.ended (hs : Step queryNum result Fails s s')
    (h : ∀ w, s.worker w = .done → queryNum ≤ s.next) :
    ∀ w, s'.worker w = .done → queryNum ≤ s'.next := by
  have hput : ∀ {w t}, (t = .done → queryNum ≤ s.next) → ∀ v, (s.put w t).worker v = .done →
      queryNum ≤ s.next := by
    intro w t ht v hv
    rcases eq_or_ne v w with rfl | hne
    · rw [worker_put] at hv
      exact ht hv
    · rw [worker_put_of_ne s hne] at hv
      exact h v hv
  cases hs with
  | move hmove => exact hput hmove.done
  | take =>
    exact fun v hv => (hput (t := .begun s.next) nofun v hv).trans (Nat.le_succ _)
  | @register w i k => exact hput (by cases k <;> exact nofun)
  | pop => exact hput nofun
  | wait => exact h
  | fetch => exact hput nofun
  | answer => exact hput nofun
  | @release w k thrown => exact hput (by cases thrown <;> exact nofun)
  | exchange => exact hput (by split_ifs <;> exact nofun)
  | record => exact hput nofun

/-! ### Runs -/

variable (queryNum numThreads result Fails) in
structure WorkersInv (s : Workers n β) : Prop where
  pooled : Pooled (Finset.range numThreads) s.scratches s.held
  numbered : Numbered s.next s.queries
  ctx : HasCtx s
  answered : Answered queryNum result s
  failures : Failures queryNum Fails s
  ended : ∀ w, s.worker w = .done → queryNum ≤ s.next

/-- A loop begins. The reader may know some threads already. -/
structure Start (numThreads : ℕ) (s : Workers n β) : Prop where
  next : s.next = 0
  worker : ∀ w, s.worker w = .ready
  pooled : Pooled (Finset.range numThreads) s.scratches s.held
  contexts : Numbered s.contexts s.ctxMap
  cached : ∀ w c, s.cached w = some c → s.ctxMap w = some c
  failure : s.failure = false
  results : ∀ i, s.results i = none

theorem load_start (numThreads : ℕ) : Start numThreads (load numThreads : Workers n β) where
  next := rfl
  worker _ := rfl
  pooled := ⟨nofun, List.nodup_range, fun k => by simp [load, held, Worker.scratch], nofun⟩
  contexts := ⟨nofun, nofun⟩
  cached := nofun
  failure := rfl
  results _ := rfl

theorem Start.inv (h : Start numThreads s) :
    WorkersInv queryNum numThreads result Fails s where
  pooled := h.pooled
  numbered := by
    have hnone : ∀ w, s.queries w = none := fun w => by rw [queries, h.worker]; rfl
    refine ⟨fun v w i hv => ?_, fun v i hv => ?_⟩ <;>
      · rw [hnone] at hv
        cases hv
  ctx := ⟨h.contexts, h.cached, fun w => by rw [h.worker]; trivial⟩
  answered := by
    refine ⟨h.next ▸ Nat.zero_le _, fun i b hb => ?_, fun i hi => ?_⟩
    · rw [h.results] at hb
      cases hb
    · exact absurd (h.next ▸ hi) (Nat.not_lt_zero i)
  failures := by
    refine ⟨fun w what hw => ?_, fun w what hw => ?_, fun hfail => ?_⟩
    · rw [h.worker] at hw
      cases hw
    · rw [h.worker] at hw
      cases hw
    · rw [h.failure] at hfail
      cases hfail
  ended w hw := by
    rw [h.worker] at hw
    cases hw

theorem WorkersInv.step (h : WorkersInv queryNum numThreads result Fails s)
    (hs : Step queryNum result Fails s s') : WorkersInv queryNum numThreads result Fails s' :=
  ⟨hs.pooled h.pooled, hs.numbered h.numbered, hs.hasCtx h.ctx,
    hs.answered h.numbered h.failures.failed h.answered,
    hs.failures h.numbered h.answered.next_le h.ctx h.failures, hs.ended h.ended⟩

/-- A thread that has no scratch finds one. -/
theorem WorkersInv.scratches_ne_nil (h : WorkersInv queryNum numThreads result Fails s)
    (hn : n ≤ numThreads) (hw : s.held w = none) : s.scratches ≠ [] :=
  h.pooled.ne_nil (by rwa [Fintype.card_fin, Finset.card_range]) hw

theorem Move.rank (h : Move queryNum Fails s w t t') : t'.rank < t.rank := by
  cases h with
  | @registered i k | @unregistered i k | @registeredTwice i k | @registerFails i k =>
    cases k <;> simp [Worker.registered, Worker.raise, Worker.rank]
  | finish | skip | enter | fetchFails | searchFails => simp [Worker.rank]

def remaining (queryNum : ℕ) (s : Workers n β) : ℕ :=
  12 * (queryNum - s.next) + ∑ w, (s.worker w).rank

theorem sum_rank_put (s : Workers n β) (w : Fin n) (t : Worker) :
    (∑ v, ((s.put w t).worker v).rank) + (s.worker w).rank =
      (∑ v, (s.worker v).rank) + t.rank := by
  have hrest : ∑ v ∈ Finset.univ.erase w, ((s.put w t).worker v).rank =
      ∑ v ∈ Finset.univ.erase w, (s.worker v).rank :=
    Finset.sum_congr rfl fun v hv => by rw [worker_put_of_ne s (Finset.ne_of_mem_erase hv)]
  rw [← Finset.add_sum_erase _ _ (Finset.mem_univ w),
    ← Finset.add_sum_erase _ (fun v => (s.worker v).rank) (Finset.mem_univ w), hrest, worker_put]
  omega

theorem remaining_lt (hnext : s'.next = s.next) (hworker : s'.worker = (s.put w t).worker)
    (ht : t.rank < (s.worker w).rank) : remaining queryNum s' < remaining queryNum s := by
  have hsum := sum_rank_put s w t
  rw [remaining, remaining, hnext, hworker]
  omega

/-- Every step is progress, as no thread has to wait for a scratch. -/
theorem WorkersInv.remaining_lt (h : WorkersInv queryNum numThreads result Fails s)
    (hn : n ≤ numThreads) (hs : Step queryNum result Fails s s') :
    remaining queryNum s' < remaining queryNum s := by
  cases hs with
  | move hmove => exact remaining_lt rfl rfl hmove.rank
  | @take w hw hlt =>
    have hsum := sum_rank_put s w (.begun s.next)
    have hready : (s.worker w).rank = 1 := by rw [hw, Worker.rank]
    have hbegun : (Worker.begun s.next).rank = 12 := by rw [Worker.rank]
    rw [remaining, remaining]
    dsimp only
    omega
  | @register w i k hw =>
    refine remaining_lt rfl rfl ?_
    rw [hw]
    cases k <;> simp [Worker.registered, Worker.rank]
  | pop hw => exact remaining_lt rfl rfl (by simp [hw, Worker.rank])
  | @wait w i hw hempty =>
    exact absurd hempty (h.scratches_ne_nil hn (w := w) (by rw [held, hw]; rfl))
  | fetch hw => exact remaining_lt rfl rfl (by simp [hw, Worker.rank])
  | answer hw => exact remaining_lt rfl rfl (by simp [hw, Worker.rank])
  | @release w k thrown hw =>
    refine remaining_lt rfl rfl ?_
    rw [hw]
    cases thrown <;> simp [Worker.released, Worker.rank]
  | exchange hw =>
    refine remaining_lt rfl rfl ?_
    rw [hw]
    split_ifs <;> simp [Worker.rank]
  | record hw => exact remaining_lt rfl rfl (by simp [hw, Worker.rank])

/-- A thread that has not ended can go on. -/
theorem WorkersInv.exists_step (h : WorkersInv queryNum numThreads result Fails s)
    (hn : n ≤ numThreads) (hnot : ¬ s.Done) : ∃ s', Step queryNum result Fails s s' := by
  obtain ⟨w, hw⟩ := not_forall.mp hnot
  have hplace := h.ctx.place w
  have hmove : ∀ {t t'}, s.worker w = t → Move queryNum Fails s w t t' →
      ∃ s', Step queryNum result Fails s s' := fun ht hm => ⟨_, .move (ht ▸ hm)⟩
  cases ht : s.worker w with
  | ready =>
    rcases Nat.lt_or_ge s.next queryNum with hlt | hge
    · exact ⟨_, .take ht hlt⟩
    · exact hmove ht (.finish hge)
  | begun i => exact hmove ht .enter
  | ensuring i k =>
    by_cases hctx : (s.ctxMap w).isSome
    · exact hmove ht (.registered hctx)
    · exact hmove ht (.unregistered (Option.not_isSome_iff_eq_none.mp hctx))
  | registering i k =>
    rw [ht] at hplace
    exact ⟨_, .register ht hplace⟩
  | popping i =>
    have hne := h.scratches_ne_nil hn (w := w) (by rw [held, ht]; rfl)
    obtain ⟨k, scratches, hpool⟩ := List.exists_cons_of_ne_nil hne
    exact ⟨_, .pop ht hpool⟩
  | fetching i k =>
    rw [ht] at hplace
    obtain ⟨c, cached, hget, -⟩ := h.ctx.getCtx hplace
    exact ⟨_, .fetch ht hget⟩
  | searching i k c => exact ⟨_, .answer ht⟩
  | leaving k thrown => exact ⟨_, .release ht⟩
  | caught what => exact ⟨_, .exchange ht⟩
  | first what => exact ⟨_, .record ht⟩
  | done => exact absurd ht hw

theorem WorkersInv.restart (h : WorkersInv queryNum numThreads result Fails s) (hdone : s.Done) :
    Start numThreads s.restart := by
  have hnone : ∀ w, s.held w = none := fun w => by rw [held, hdone]; rfl
  have hpooled := h.pooled
  rw [funext hnone] at hpooled
  exact ⟨rfl, fun _ => rfl, hpooled, h.ctx.numbered, h.ctx.cached, rfl, fun _ => rfl⟩

/-- When all threads have ended all queries have their results, or the loop has failed. -/
theorem WorkersInv.answers (h : WorkersInv queryNum numThreads result Fails s) (hpos : 0 < n)
    (hdone : s.Done) :
    s.answers queryNum = .ok ((List.range queryNum).map result) ∨
      ∃ i < queryNum, ∃ what, Fails i what ∧ s.answers queryNum =
        .error ("Search aborted due to worker initialization/read failure: " ++ text what) := by
  rw [Workers.answers]
  by_cases hfail : s.failure
  · rw [if_pos hfail]
    obtain ⟨w, what, hw⟩ | ⟨i, hi, what, hfails, htext⟩ := h.failures.told hfail
    · rw [hdone] at hw
      cases hw
    · exact .inr ⟨i, hi, what, hfails, by rw [htext]⟩
  · rw [if_neg hfail]
    refine .inl (congrArg Except.ok ?_)
    rw [← List.filterMap_eq_map]
    refine List.filterMap_congr fun i hi => ?_
    have hi : i < s.next :=
      (List.mem_range.mp hi).trans_le (h.ended ⟨0, hpos⟩ (hdone _))
    rcases h.answered.accounted i hi with hres | ⟨w, hw⟩ | hf | ⟨w, hw⟩
    · obtain ⟨b, hb⟩ := Option.ne_none_iff_exists'.mp hres
      rw [hb, (h.answered.results i b hb).1]
      rfl
    · rw [queries, hdone] at hw
      cases hw
    · exact absurd hf hfail
    · rw [hdone] at hw
      exact absurd rfl hw

/-- The results of a query on the path. -/
def pathResult (query : ℕ) : Option (List (ℕ × ℤ)) :=
  (cachedBeamSearchExplicit pathGraph (fun v => (query : ℤ) - v) exactly
    (decreasingHeap TopKNode.d) nearestTwo false Cache.empty 1 100 0 5).map Prod.snd

end Workers

end HiDANN.Search
