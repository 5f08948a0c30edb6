import HiDANN.Construction.Compaction

/-! Compaction stopped on the way and started again. A bucket's log is deleted
as soon as its ids are written, and a missing log reads as an empty one, so what
a second compaction finds is the original logs without the deleted ones. It runs
to its end unless a partition's files or the limit of one write stop it, and its
rows then lack exactly what the deleted logs held. -/

namespace HiDANN.Construction

open Posix Bytes Scatter Script Format

section Remnant

variable (c : Buckets) (P : ℕ) (fs : Files)

/-- What holds of the files wherever compaction is stopped: a log is there as it
was, or gone after its ids fitted one write; no partition file reappears. -/
structure Remnant (fs' : Files) : Prop where
  logs : ∀ b < c.B, fs'.logs b = fs.logs b ∨
    fs'.logs b = none ∧ 4 * bucketIds c fs b ≤ maxRwCount
  sub : fs'.hasSubindexes P → fs.hasSubindexes P

variable {c P fs} {fs' : Files}

theorem Remnant.refl : Remnant c P fs fs := ⟨fun _ _ => .inl rfl, id⟩

theorem Remnant.cand (h : Remnant c P fs fs') (f : CandFile → List UInt8) :
    Remnant c P fs { fs' with cand := f } := ⟨h.logs, h.sub⟩

theorem Remnant.removeLog (h : Remnant c P fs fs') {b : ℕ}
    (hb : b < c.B → 4 * bucketIds c fs b ≤ maxRwCount) :
    Remnant c P fs (FsOp.apply fs' (.removeLog b)) := by
  refine ⟨fun b' hb' => ?_, h.sub⟩
  by_cases hbb : b' = b
  · subst hbb
    exact .inr ⟨by simp [FsOp.apply], hb hb'⟩
  · simpa [FsOp.apply, Function.update_of_ne hbb] using h.logs b' hb'

theorem hasSubindexes_iff : fs.hasSubindexes P ↔
    ∀ t < P, fs.subindex t = true ∧ fs.subdata t = true := by
  simp [Files.hasSubindexes]

theorem Remnant.shrink (h : Remnant c P fs fs') {fs'' : Files} (hlogs : fs''.logs = fs'.logs)
    (hindex : ∀ u, fs''.subindex u = true → fs'.subindex u = true)
    (hdata : ∀ u, fs''.subdata u = true → fs'.subdata u = true) : Remnant c P fs fs'' where
  logs b hb := by
    rw [hlogs]
    exact h.logs b hb
  sub hs := by
    apply h.sub
    rw [hasSubindexes_iff] at hs ⊢
    intro u hu
    exact ⟨hindex u (hs u hu).1, hdata u (hs u hu).2⟩

theorem of_update_false {f : ℕ → Bool} {t u : ℕ} (h : Function.update f t false u = true) :
    f u = true := by
  by_cases hut : u = t
  · rw [hut, Function.update_self] at h
    cases h
  · rwa [Function.update_of_ne hut] at h

theorem Remnant.removeSubindex (h : Remnant c P fs fs') (t : ℕ) :
    Remnant c P fs (FsOp.apply fs' (.removeSubindex t)) :=
  h.shrink rfl (fun _ => of_update_false) fun _ => id

theorem Remnant.removeSubdata (h : Remnant c P fs fs') (t : ℕ) :
    Remnant c P fs (FsOp.apply fs' (.removeSubdata t)) :=
  h.shrink rfl (fun _ => id) fun _ => of_update_false

/-! ### Every stop leaves a remnant -/

theorem pwrite_always (h : Remnant c P fs fs') (f : CandFile) (off : ℕ) (bs : List UInt8)
    (msg : String) : Prog.Always (Remnant c P fs) (pwrite f off bs msg) fs' := by
  unfold pwrite
  refine (Prog.always_issue _ h (h.cand _)).bind fun _ s' he => ?_
  obtain rfl := he.store
  split_ifs
  · exact Prog.always_pure (h.cand _)
  · exact Prog.always_of_no_ops rfl (h.cand _)

theorem ids_always (h : Remnant c P fs fs') (off n : ℕ) (mem : ℕ → ℕ) :
    Prog.Always (Remnant c P fs) (if 0 < n then
      pwrite .ids off (cells 4 ((List.range n).map mem)) "pwrite cand.ids bucket"
      else pure ⟨⟩) fs' := by
  split_ifs
  · exact pwrite_always h _ _ _ _
  · exact Prog.always_pure h

theorem ids_le {s s' : Files} {off n : ℕ} {mem : ℕ → ℕ} (h : Prog.Ends (if 0 < n then
      pwrite .ids off (cells 4 ((List.range n).map mem)) "pwrite cand.ids bucket"
      else pure ⟨⟩) s ⟨⟩ s') : 4 * n ≤ maxRwCount := by
  by_contra hn
  have hpos : 0 < n := by rw [maxRwCount] at hn; omega
  rw [if_pos hpos] at h
  exact h.not_dies (pwrite_dies (by rw [length_outIds]; omega))

theorem compactBucket_always {b : ℕ} (hb : b < c.B) (accIds : ℕ) (h : Remnant c P fs fs') :
    Prog.Always (Remnant c P fs) (compactBucket c accIds b) fs' := by
  unfold compactBucket
  split_ifs with hle
  · exact Prog.always_pure h
  · refine (Prog.always_of_no_ops rfl h).bind fun blob s₁ he => ?_
    obtain ⟨hblob, rfl⟩ := he.of_look
    have hrows := Prog.always_forM (List.range (c.bucketLimit b - c.bucketBase b))
      (g := fun u => pwrite .idx (32 + 16 * (c.bucketBase b + u)) (candIdxRow
        (4 * (accIds + offset (tally (2 ^ 32) (c.inRange b blob)) u))
        (tally (2 ^ 32) (c.inRange b blob) u)) "write idx row")
      (fun u _ s hs => pwrite_always hs _ _ _ _) h
    refine hrows.bind fun _ s₂ he₂ => ?_
    have h₂ := hrows.at_end he₂
    have hids := ids_always h₂ (32 + 4 * accIds) (idCount (c.inRange b blob))
      (fill (fun _ => 0, offset (tally (2 ^ 32) (c.inRange b blob))) (c.inRange b blob)).1
    refine hids.bind fun _ s₃ he₃ => ?_
    have h₃ := hids.at_end he₃
    split_ifs with hnil
    · exact (Prog.always_pure h₃).bind fun _ _ he => Prog.always_pure
        ((Prog.always_pure h₃).at_end he)
    · -- the log that is removed is the original one, and its ids were written
      have hlog : blob = fs.log b := by
        rcases h.logs b hb with hl | ⟨hl, -⟩
        · rw [hblob, hl, Files.log]
        · exact absurd (by rw [hblob, hl, Option.getD_none]) hnil
      have hrem : Remnant c P fs (FsOp.apply s₃ (.removeLog b)) :=
        h₃.removeLog fun _ => by
          rw [bucketIds, ← hlog]
          exact ids_le he₃
      exact (Prog.always_issue _ h₃ hrem).bind fun _ _ he => Prog.always_pure
        ((Prog.always_issue _ h₃ hrem).at_end he)

theorem removeSubindexes_always (h : Remnant c P fs fs') :
    Prog.Always (Remnant c P fs) (removeSubindexes P) fs' := by
  refine Prog.always_forM _ (fun t _ s hs => ?_) h
  refine (Prog.always_issue _ hs (hs.removeSubindex t)).bind fun _ s' he => ?_
  obtain rfl := he.store
  exact Prog.always_issue _ (hs.removeSubindex t) ((hs.removeSubindex t).removeSubdata t)

theorem openCandidates_always (h : Remnant c P fs fs') :
    Prog.Always (Remnant c P fs) (openCandidates c.N) fs' := by
  unfold openCandidates
  refine (Prog.always_issue _ h (h.cand _)).bind fun _ s₁ he => ?_
  have h₁ := (Prog.always_issue _ h (h.cand _)).at_end he
  refine (Prog.always_issue _ h₁ (h₁.cand _)).bind fun _ s₂ he => ?_
  have h₂ := (Prog.always_issue _ h₁ (h₁.cand _)).at_end he
  exact (pwrite_always h₂ _ _ _ _).bind fun _ s₃ he =>
    pwrite_always ((pwrite_always h₂ _ _ _ _).at_end he) _ _ _ _

variable (c P fs) in
/-- Wherever compaction is stopped it leaves a remnant of its input. -/
theorem compactStage_always (keepSubindex : Bool) :
    Prog.Always (Remnant c P fs) (compactStage c P keepSubindex) fs := by
  unfold compactStage
  have h : Remnant c P fs fs := Remnant.refl
  refine (Prog.always_of_no_ops rfl h).bind fun present s he => ?_
  obtain ⟨-, rfl⟩ := he.of_look
  split_ifs
  · unfold compaction
    refine (openCandidates_always h).bind fun _ s₁ he₁ => ?_
    have h₁ := (openCandidates_always h).at_end he₁
    have hloop := Prog.always_foldlM (I := Remnant c P s) (g := compactBucket c) (List.range c.B)
      (fun b hb acc s' hs => compactBucket_always (List.mem_range.mp hb) acc hs) 0 h₁
    refine hloop.bind fun accIds s₂ he₂ => ?_
    have h₂ := hloop.at_end he₂
    refine (pwrite_always h₂ _ _ _ _).bind fun _ s₃ he₃ => ?_
    have h₃ := (pwrite_always h₂ _ _ _ _).at_end he₃
    split_ifs
    · exact Prog.always_pure h₃
    · exact removeSubindexes_always h₃
  · exact Prog.always_of_no_ops rfl h

/-! ### The second run -/

/-- The compact stage runs to its end exactly when the partitions' files are
there and no bucket exceeds the limit. -/
theorem compactStage_ends_iff (c : Buckets) (P : ℕ) (keepSubindex : Bool) (fs fs' : Files) :
    Prog.Ends (compactStage c P keepSubindex) fs ⟨⟩ fs' ↔
      fs.hasSubindexes P = true ∧ WithinLimit c fs ∧ fs' = compacted c fs P keepSubindex := by
  unfold compactStage
  by_cases hsub : fs.hasSubindexes P = true
  · rw [← compaction_ends_iff c fs P keepSubindex fs']
    constructor
    · intro h
      have hb := Prog.bind_apply (f := fun present => if present then compaction c P keepSubindex
        else Prog.die "missing subindex files for requested stage")
        (Prog.ends_look (ε := String) (fun fs : Files => fs.hasSubindexes P) fs)
      rw [if_pos hsub] at hb
      exact ⟨hsub, by rw [← h.res, hb], by rw [← h.store, hb]; rfl⟩
    · rintro ⟨-, h⟩
      exact (Prog.ends_look _ _).bind (by rwa [if_pos hsub])
  · constructor
    · intro h
      refine absurd ((Prog.ends_look _ _).dies_bind ?_) h.not_dies
      rw [if_neg hsub]
      exact Prog.dies_die _ _
    · rintro ⟨h, -⟩
      exact absurd h hsub

variable (c P fs)

theorem logRow_eq_nil_iff (b : ℕ) : bucketIds c fs b = 0 ↔
    ∀ g, c.bucketBase b ≤ g → g < c.bucketLimit b → logRow c fs g = [] := by
  constructor
  · intro h g h1 h2
    have := length_row_le_bucketIds c fs b (u := g - c.bucketBase b) (by omega)
    rw [Nat.add_sub_cancel' h1] at this
    exact List.eq_nil_of_length_eq_zero (by omega)
  · intro h
    have hlen : ∀ u < c.bucketLimit b - c.bucketBase b,
        (logRow c fs (c.bucketBase b + u)).length = 0 * u := by
      intro u hu
      rw [h _ (by omega) (by omega), List.length_nil, Nat.zero_mul]
    rw [bucketIds_eq, offset_congr hlen, offset_mul, Nat.zero_mul]

variable {c P fs}

theorem logRow_of_removed {b g : ℕ} (hb : fs.logs b = none) (hg : c.gidToBucket g = b) :
    logRow c fs g = [] := by
  rw [logRow, hg, Files.log, hb]
  rfl

/-- A second run gives every node the candidates an uninterrupted run gives it,
or dies, exactly when no deleted log held an id, or one of the two reasons to die
is left behind. -/
theorem rerun_complete_iff (c : Buckets) (P : ℕ) (keepSubindex keepSubindex' : Bool)
    (fs fs' : Files) (hstop : (compactStage c P keepSubindex).Passes fs fs') :
    (∀ out, Prog.Ends (compactStage c P keepSubindex') fs' ⟨⟩ out →
      ∃ whole, Prog.Ends (compactStage c P keepSubindex) fs ⟨⟩ whole ∧
        ∀ g < c.N, (candRow (out.cand .idx) (out.cand .ids) g).Perm
          (candRow (whole.cand .idx) (whole.cand .ids) g)) ↔
    fs'.hasSubindexes P = false ∨ (∃ b < c.B, maxRwCount < 4 * bucketIds c fs' b) ∨
      ∀ b < c.B, fs'.logs b = none → bucketIds c fs b = 0 := by
  have hrem := compactStage_always c P fs keepSubindex fs' hstop
  constructor
  · intro h
    by_cases hsub : fs'.hasSubindexes P = true
    · by_cases hlim : WithinLimit c fs'
      · refine .inr (.inr fun b hb hnone => ?_)
        obtain ⟨whole, hwhole, hrow⟩ := h _ ((compactStage_ends_iff ..).mpr ⟨hsub, hlim, rfl⟩)
        obtain ⟨-, hl, rfl⟩ := (compactStage_ends_iff ..).mp hwhole
        rw [logRow_eq_nil_iff]
        intro g h1 h2
        have hg : g < c.N := h2.trans_le (c.bucketLimit_le b)
        have hp := hrow g hg
        rw [candRow_compacted c fs' hlim _ _ hg, candRow_compacted c fs hl _ _ hg,
          logRow_of_removed hnone (c.gidToBucket_of_mem h1 h2)] at hp
        exact hp.nil_eq.symm
      · exact .inr (.inl (by simpa [WithinLimit] using hlim))
    · exact .inl (by simpa using hsub)
  · intro h out hout
    obtain ⟨hsub, hlim, rfl⟩ := (compactStage_ends_iff ..).mp hout
    rcases h with h | ⟨b, hb, hbig⟩ | h
    · rw [hsub] at h; cases h
    · have := hlim b hb
      omega
    · have hl : WithinLimit c fs := fun b hb => by
        rcases hrem.logs b hb with he | ⟨-, hle⟩
        · have := hlim b hb
          rwa [bucketIds, Files.log, he] at this
        · exact hle
      refine ⟨_, (compactStage_ends_iff ..).mpr ⟨hrem.sub hsub, hl, rfl⟩, fun g hg => ?_⟩
      rw [candRow_compacted c fs' hlim _ _ hg, candRow_compacted c fs hl _ _ hg]
      have hb := c.gidToBucket_lt g
      rcases hrem.logs _ hb with he | ⟨hnone, -⟩
      · rw [logRow, logRow, Files.log, Files.log, he]
      · have hr := (c.mem_range_iff hg _).mpr rfl
        rw [logRow_of_removed hnone rfl,
          (logRow_eq_nil_iff c fs _).mp (h _ hb hnone) g hr.1 hr.2]

end Remnant

/-- The files when compaction is stopped after its seventh operation, the
deletion of the one log. -/
def oneLogStopped : Files := exec oneLog (((compactStage oneNode 1 true) oneLog).ops.take 7)

/-- The second run succeeds with an empty row where the first had an id. -/
theorem rerun_loses_candidate : (compactStage oneNode 1 true).Passes oneLog oneLogStopped ∧
    ∃ out, Prog.Ends (compactStage oneNode 1 true) oneLogStopped ⟨⟩ out ∧
      candRow (out.cand .idx) (out.cand .ids) 0 = [] ∧
      ∀ whole, Prog.Ends (compactStage oneNode 1 true) oneLog ⟨⟩ whole →
        candRow (whole.cand .idx) (whole.cand .ids) 0 = [0] := by
  have hlim : WithinLimit oneNode oneLogStopped := by decide
  refine ⟨⟨7, rfl⟩, _, (compactStage_ends_iff ..).mpr ⟨rfl, hlim, rfl⟩, ?_, fun whole hw => ?_⟩
  · rw [candRow_compacted _ _ hlim _ _ Nat.one_pos]
    rfl
  · obtain ⟨-, hl, rfl⟩ := (compactStage_ends_iff ..).mp hw
    rw [candRow_compacted _ _ hl _ _ Nat.one_pos]
    rfl

/-- The files when it is stopped an operation earlier, with the rows and the ids written. -/
def oneLogWritten : Files := exec oneLog (((compactStage oneNode 1 true) oneLog).ops.take 6)

/-- Stopped before the deletion, nothing is lost. -/
theorem rerun_complete_before_deletion : ∃ out whole,
    oneLogWritten.cand .ids ≠ oneLog.cand .ids ∧
    Prog.Ends (compactStage oneNode 1 true) oneLogWritten ⟨⟩ out ∧
    Prog.Ends (compactStage oneNode 1 true) oneLog ⟨⟩ whole ∧
    ∀ g < oneNode.N, (candRow (out.cand .idx) (out.cand .ids) g).Perm
      (candRow (whole.cand .idx) (whole.cand .ids) g) := by
  have hlim : WithinLimit oneNode oneLogWritten := by decide
  have hout := (compactStage_ends_iff oneNode 1 true oneLogWritten _).mpr ⟨rfl, hlim, rfl⟩
  obtain ⟨whole, hwhole, hrows⟩ := (rerun_complete_iff oneNode 1 true true oneLog oneLogWritten
    ⟨6, rfl⟩).mpr (.inr (.inr (by decide))) _ hout
  exact ⟨_, whole, by decide, hout, hwhole, hrows⟩

end HiDANN.Construction
