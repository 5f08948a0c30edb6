import HiDANN.Construction.Compaction
import HiDANN.Construction.RobustPrune
import HiDANN.Construction.Staging

/-! The record of one node in the self-dump. `append_record` takes its length as a
16-bit number, so what it appends to the stream of a bucket, in its staging buffer
and in the log behind it, is a record of the ids that this number counts. The scan of
the compaction reads such a record back and stops behind it. -/

namespace HiDANN.Construction

open Bytes

/-! ### One round of the scan -/

/-- The gid and the ids of the record at the front, and what follows it. -/
def scanRecord (bs : List UInt8) : Option ((ℕ × List ℕ) × List UInt8) :=
  if bs.length < 12 then none
  else if (readRecHdr bs).sizeBytes < 16 then none
  else if bs.length < (readRecHdr bs).sizeBytes then none
  else some (((readRecHdr bs).gid, readCells 4 (readRecHdr bs).len (bs.drop 12)),
    bs.drop (readRecHdr bs).sizeBytes)

/-- The scan goes from record to record. -/
theorem scanFrom_succ (fuel : ℕ) (bs : List UInt8) : scanFrom (fuel + 1) bs =
    match scanRecord bs with
    | none => []
    | some (p, rest) => p :: scanFrom fuel rest := by
  rw [scanFrom, scanRecord]
  split_ifs <;> rfl

theorem scanRecord_encodeRecord (r : Record) (rest : List UInt8) :
    scanRecord (encodeRecord r.gid r.ids ++ rest) = some ((r.gid, r.ids), rest) := by
  have hge := recSize_ge r.ids.length
  have hlen : (encodeRecord r.gid r.ids ++ rest).length = recSize r.ids.length + rest.length := by
    rw [List.length_append, length_encodeRecord]
  rw [scanRecord, readRecHdr_encodeRecord, if_neg (by omega), if_neg (by simp only; omega),
    if_neg (by simp only; omega), drop_header_encodeRecord]
  simp only
  rw [← length_encodeRecord r.gid r.ids, List.drop_left]

/-! ### One call of `append_record` -/

namespace TLStaging

/-- What has been appended for a bucket: its log, and the staged records of the
selected one. -/
def stream (st : TLStaging) (logs : Logs) (b : ℕ) : List UInt8 :=
  logs b ++ if st.curB = some b then st.buf else []

/-- Staged records belong to the selected bucket, whose log is open. -/
structure Ready (st : TLStaging) : Prop where
  fd : st.curFd = st.curB
  staged : st.buf ≠ [] → st.curB.isSome

variable {st : TLStaging} (logs : Logs)

theorem init_ready (bytes : ℕ) : (init bytes).Ready := ⟨rfl, fun h => absurd rfl h⟩

/-- A flush moves bytes from the buffer to the log. -/
theorem flush_stream (h : st.Ready) : ∃ logs', st.flush logs = .ok ({ st with buf := [] }, logs') ∧
    ∀ b, logs' b = st.stream logs b := by
  rw [flush]
  by_cases hbuf : st.buf = []
  · refine ⟨logs, ?_, fun b => by simp [stream, hbuf]⟩
    rw [if_pos hbuf]
    obtain ⟨curB, curFd, cap, buf⟩ := st
    simp only at hbuf
    rw [hbuf]
  · obtain ⟨fd, hfd⟩ := Option.isSome_iff_exists.mp (h.staged hbuf)
    rw [if_neg hbuf, h.fd, hfd]
    refine ⟨_, rfl, fun b => ?_⟩
    by_cases hb : b = fd
    · simp [stream, hfd, hb]
    · simp [stream, hfd, hb, Ne.symm hb]

theorem select_stream (h : st.Ready) (b : ℕ) : ∃ st' logs', st.select logs b b = .ok (st', logs') ∧
    st'.Ready ∧ st'.curB = some b ∧ ∀ b', st'.stream logs' b' = st.stream logs b' := by
  rw [select]
  by_cases hb : st.curB = some b
  · rw [if_pos hb]
    exact ⟨st, logs, rfl, h, hb, fun _ => rfl⟩
  · rw [if_neg hb]
    obtain ⟨logs', hflush, hlogs⟩ := flush_stream logs h
    by_cases hsome : st.curB.isSome = true
    · rw [if_pos hsome, hflush]
      exact ⟨_, _, rfl, ⟨rfl, fun h => absurd rfl h⟩, rfl, fun b' => by simp [stream, hlogs b']⟩
    · have hbuf : st.buf = [] := by
        by_contra hne
        exact hsome (h.staged hne)
      rw [if_neg hsome]
      refine ⟨_, _, rfl, ⟨rfl, fun h => absurd hbuf h⟩, rfl, fun b' => ?_⟩
      simp [stream, hbuf]

/-- The stream of a bucket grows by a record of the first `len` ids, and no other does. -/
theorem appendRecord_stream (h : st.Ready) (b gid : ℕ) (ids : List ℕ) (len : ℕ) :
    ∃ st' logs', st.appendRecord logs b b gid ids len = .ok (st', logs') ∧ st'.Ready ∧
      ∀ b', st'.stream logs' b' = st.stream logs b' ++
        if b' = b ∧ len ≠ 0 then encodeRecord gid (ids.take len) else [] := by
  rw [appendRecord]
  by_cases hlen : len = 0
  · rw [if_pos hlen]
    exact ⟨st, logs, rfl, h, fun b' => by simp [hlen]⟩
  · rw [if_neg hlen]
    obtain ⟨st₁, logs₁, hsel, hready, hcur, hstream⟩ := select_stream logs h b
    have hstore : (st₁.store gid (ids.take len)).Ready := by
      refine ⟨by simp [store, hready.fd], fun _ => by simp [store, hcur]⟩
    have hgrow : ∀ b', (st₁.store gid (ids.take len)).stream logs₁ b' = st.stream logs b' ++
        if b' = b ∧ len ≠ 0 then encodeRecord gid (ids.take len) else [] := by
      intro b'
      rw [← hstream]
      by_cases hb : b' = b
      · simp [stream, store, hcur, hb, hlen]
      · simp [stream, store, hcur, hb, Ne.symm hb]
    rw [hsel]
    simp only [spill]
    split_ifs
    · obtain ⟨logs₂, hflush, hlogs⟩ := flush_stream logs₁ hstore
      refine ⟨_, _, hflush, ⟨hstore.fd, fun h => absurd rfl h⟩, fun b' => ?_⟩
      rw [← hgrow b', ← hlogs b']
      simp [stream]
    · exact ⟨_, _, rfl, hstore, hgrow⟩

end TLStaging

/-! ### The record of a node -/

section Node

variable {ν : Type*} (X : Partitions ν)

/-- The out-neighbours of a node other than itself, by their global ids. -/
def outNeighbours (t li : ℕ) : List ℕ :=
  ((X.neighbours t li).filter fun w => w ≠ li).map fun w => X.first t + w

/-- The compaction reads bytes as the candidates `nbrs` of `u`, which it keeps in the
bucket of `u`, and goes on behind them. No bytes stand for no candidates. -/
structure ReadsBack (c : Buckets) (u : ℕ) (nbrs : List ℕ) (bytes : List UInt8) : Prop where
  kept : c.bucketBase (c.gidToBucket u) ≤ u ∧ u < c.bucketLimit (c.gidToBucket u)
  record : bytes = [] ∧ nbrs = [] ∨
    ∃ ids, ids.Perm nbrs ∧ ∀ rest, scanRecord (bytes ++ rest) = some ((u, ids), rest)

/-- Whatever is staged, the self-dump of a node appends bytes to the stream of its
bucket that read back as its out-neighbours, and appends nothing elsewhere. -/
def DumpReadsBack (c : Buckets) (t li : ℕ) : Prop :=
  ∀ st : TLStaging, st.Ready → ∀ logs, ∃ st' logs' bytes,
    st.appendRecord logs (c.gidToBucket (X.globalId t li)) (c.gidToBucket (X.globalId t li))
      (X.globalId t li) (selfIds X t li) ((selfIds X t li).length % 2 ^ 16) = .ok (st', logs') ∧
    (∀ b, st'.stream logs' b = st.stream logs b ++
      if b = c.gidToBucket (X.globalId t li) then bytes else []) ∧
    ReadsBack c (X.first t + li) (outNeighbours X t li) bytes

variable {X}

theorem selfIds_eq {t li : ℕ} (ht : t < X.P) (hli : li < X.size t) :
    selfIds X t li = outNeighbours X t li := by
  have hglob : ∀ w ∈ X.neighbours t li, X.globalId t w = X.first t + w :=
    fun w hw => X.globalId_eq ht (X.neighbours_lt ht hw)
  rw [selfIds, outNeighbours, X.globalId_eq ht hli, List.map_congr_left hglob, List.filter_map]
  congr 1
  refine List.filter_congr fun w _ => ?_
  simp

/-- The record of the ids that a 16-bit length counts reads back. -/
theorem readsBack_encodeRecord {c : Buckets} {u : ℕ} (hu : u < c.N) {ids : List ℕ}
    (hids : ∀ v ∈ ids, v < 2 ^ 32) (hpos : 0 < ids.length) (hlen : ids.length < 2 ^ 16) :
    ReadsBack c u ids (encodeRecord u ids) :=
  ⟨(c.mem_range_iff hu _).mpr rfl, .inr ⟨ids, List.Perm.refl _, fun rest =>
    scanRecord_encodeRecord ⟨u, ids, hu.trans c.N_lt, hids, hpos, hlen⟩ rest⟩⟩

/-- Bytes of a shorter list do not read back as the whole one. -/
theorem not_readsBack_take {c : Buckets} {u : ℕ} (hu : u < c.N) {ids : List ℕ}
    (hids : ∀ v ∈ ids, v < 2 ^ 32) (hlen : 2 ^ 16 ≤ ids.length) :
    ¬ ReadsBack c u ids (if ids.length % 2 ^ 16 ≠ 0 then
      encodeRecord u (ids.take (ids.length % 2 ^ 16)) else []) := by
  have hmod := Nat.mod_lt ids.length (show 0 < 2 ^ 16 by norm_num)
  intro h
  rcases h.record with ⟨-, hnil⟩ | ⟨ids', hperm, hscan⟩
  · rw [hnil] at hlen
    exact absurd hlen (by norm_num)
  · have hfirst := hscan []
    by_cases h0 : ids.length % 2 ^ 16 = 0
    · rw [if_neg (not_not.mpr h0)] at hfirst
      simp [scanRecord] at hfirst
    · have htake : (ids.take (ids.length % 2 ^ 16)).length = ids.length % 2 ^ 16 := by
        rw [List.length_take]
        omega
      rw [if_pos h0, scanRecord_encodeRecord ⟨u, ids.take (ids.length % 2 ^ 16),
        hu.trans c.N_lt, fun v hv => hids v (List.mem_of_mem_take hv), by omega, by omega⟩] at hfirst
      have heq : ids.take (ids.length % 2 ^ 16) = ids' := by
        simpa using hfirst
      have := hperm.length_eq
      rw [← heq, htake] at this
      omega

theorem outNeighbours_lt {t li : ℕ} (ht : t < X.P) (hli : li < X.size t) :
    ∀ v ∈ outNeighbours X t li, v < 2 ^ 32 := by
  intro v hv
  rw [← selfIds_eq ht hli] at hv
  obtain ⟨-, hlt, -⟩ := (selfIds_spec li ht).1 v hv
  have hle := X.first_le (show t + 1 ≤ X.P from ht)
  rw [X.first_P] at hle
  exact (hlt.trans_le hle).trans X.N_lt

theorem length_outNeighbours (t li : ℕ) :
    (outNeighbours X t li).length = ((X.neighbours t li).filter fun w => w ≠ li).length :=
  List.length_map _

variable {c : Buckets} (hN : c.N = X.N) {t li : ℕ} (ht : t < X.P) (hli : li < X.size t)

include hN ht hli in
theorem first_add_lt : X.first t + li < c.N := by
  rw [hN, ← X.globalId_eq ht hli]
  exact X.globalId_lt ht hli

include hN ht hli in
theorem dumpReadsBack_of_lt (hlt : (outNeighbours X t li).length < 2 ^ 16) :
    DumpReadsBack X c t li := by
  intro st hst logs
  have hu := first_add_lt hN ht hli
  have hself := selfIds_eq ht hli
  obtain ⟨st', logs', hok, -, hstream⟩ := TLStaging.appendRecord_stream logs hst
    (c.gidToBucket (X.globalId t li)) (X.globalId t li)
    (selfIds X t li) ((selfIds X t li).length % 2 ^ 16)
  rcases Nat.eq_zero_or_pos (outNeighbours X t li).length with h0 | hpos
  · refine ⟨st', logs', [], hok, fun b => ?_, (c.mem_range_iff hu _).mpr rfl,
      .inl ⟨rfl, List.eq_nil_of_length_eq_zero h0⟩⟩
    rw [hstream b, hself, h0]
    simp
  · refine ⟨st', logs', _, hok, fun b => ?_,
      readsBack_encodeRecord hu (outNeighbours_lt ht hli) hpos hlt⟩
    rw [hstream b, hself, Nat.mod_eq_of_lt hlt, List.take_length, X.globalId_eq ht hli]
    simp [hpos.ne']

include hN ht hli in
theorem not_dumpReadsBack_of_le (hge : 2 ^ 16 ≤ (outNeighbours X t li).length) :
    ¬ DumpReadsBack X c t li := by
  intro h
  have hready := TLStaging.init_ready 0
  obtain ⟨st', logs', bytes, hok, hstream, hback⟩ := h _ hready fun _ => []
  obtain ⟨st₁, logs₁, hok₁, -, hstream₁⟩ := TLStaging.appendRecord_stream
    (fun _ => []) hready (c.gidToBucket (X.globalId t li)) (X.globalId t li)
    (selfIds X t li) ((selfIds X t li).length % 2 ^ 16)
  rw [hok] at hok₁
  obtain ⟨rfl, rfl⟩ := Prod.mk.inj (Except.ok.inj hok₁)
  have hbytes := (hstream (c.gidToBucket (X.globalId t li))).symm.trans
    (hstream₁ (c.gidToBucket (X.globalId t li)))
  simp only [if_true, true_and, List.append_cancel_left_eq] at hbytes
  rw [hbytes, selfIds_eq ht hli, X.globalId_eq ht hli] at hback
  exact not_readsBack_take (first_add_lt hN ht hli) (outNeighbours_lt ht hli) hge hback

include hN ht hli in
/-- The self-dump of a node reads back exactly when it has fewer than `2 ^ 16`
out-neighbours other than itself. -/
theorem dumpReadsBack_iff :
    DumpReadsBack X c t li ↔ ((X.neighbours t li).filter fun w => w ≠ li).length < 2 ^ 16 := by
  rw [← length_outNeighbours]
  refine ⟨fun h => Nat.lt_of_not_le fun hge => ?_, dumpReadsBack_of_lt hN ht hli⟩
  exact not_dumpReadsBack_of_le hN ht hli hge h

end Node

def oneBucket (n : ℕ) (h : 2 * n < 2 ^ 32) : Buckets where
  N := 2 * n
  B := 1
  N_lt := h
  B_pos := Nat.one_pos

theorem two_fits : 2 * 2 < 2 ^ 32 := by norm_num

/-- A node with itself and one other as neighbours. -/
theorem dumpReadsBack_two :
    DumpReadsBack (twoHalves 2 Nat.two_pos two_fits) (oneBucket 2 two_fits) 0 0 :=
  (dumpReadsBack_iff rfl (by decide) (by decide)).mpr (by decide)

theorem length_others_twoHalves {n : ℕ} (hn : 0 < n) (h : 2 * n < 2 ^ 32) :
    (((twoHalves n hn h).neighbours 0 0).filter fun w => w ≠ 0).length = n - 1 := by
  have hnbrs : (twoHalves n hn h).neighbours 0 0 = List.range n := rfl
  obtain ⟨m, rfl⟩ := Nat.exists_eq_succ_of_ne_zero hn.ne'
  rw [hnbrs, List.range_succ_eq_map, List.filter_cons_of_neg (by simp), List.filter_eq_self.mpr,
    List.length_map, List.length_range, Nat.succ_sub_one]
  intro w hw
  obtain ⟨v, -, rfl⟩ := List.mem_map.mp hw
  simp

theorem overfull_fits : 2 * (2 ^ 16 + 1) < 2 ^ 32 := by norm_num

/-- A node with `2 ^ 16` other neighbours, of which nothing is appended. -/
theorem not_dumpReadsBack_full :
    ¬ DumpReadsBack (twoHalves (2 ^ 16 + 1) (Nat.succ_pos _) overfull_fits)
      (oneBucket (2 ^ 16 + 1) overfull_fits) 0 0 := by
  refine not_dumpReadsBack_of_le rfl (show 0 < 2 by norm_num) ?_ ?_
  · rw [size_twoHalves]
    norm_num
  · rw [length_outNeighbours, length_others_twoHalves]
    exact le_rfl

end HiDANN.Construction
