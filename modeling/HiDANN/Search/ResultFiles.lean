import HiDANN.Library.Bytes
import HiDANN.Library.Decimal
import HiDANN.Library.FallibleFold
import Mathlib.Logic.Function.Basic

/-! The result files of a run. The queries are searched with every `L` of the list that is at
least `K`, and the results are kept at the position of `L` in the list. When they are
saved, a counter that moves only with the files says where they are. The two agree as long
as no skipped `L` stands before one that is run. -/

namespace HiDANN.Search

variable {δ : Type*}

/-! ### Results -/

structure Outcome (δ : Type*) (recallAt : ℕ) where
  found : List (ℕ × δ)
  length_le : found.length ≤ recallAt
  id_lt : ∀ p ∈ found, p.1 < 2 ^ 32

/-- The slots of a query in a zeroed buffer after what was found has been written. -/
def resultSlots {α : Type*} [Zero α] (recallAt : ℕ) (found : List α) : List α :=
  found ++ List.replicate (recallAt - found.length) 0

/-- The entries of `query_result_ids` and `query_result_dists` for one `L`. -/
structure ResultBuffers (δ : Type*) where
  ids : List ℕ
  dists : List δ

namespace ResultBuffers

def empty : ResultBuffers δ := ⟨[], []⟩

/-- The queries searched with one `L`; the ids are narrowed from 64 to 32 bits. -/
def ofOutcomes [Zero δ] {recallAt : ℕ} (queryNum : ℕ) (outcome : ℕ → Outcome δ recallAt) :
    ResultBuffers δ where
  ids := ((List.range queryNum).flatMap fun i =>
    resultSlots recallAt ((outcome i).found.map Prod.fst)).map (· % 2 ^ 32)
  dists := (List.range queryNum).flatMap fun i =>
    resultSlots recallAt ((outcome i).found.map Prod.snd)

end ResultBuffers

/-! ### The two loops -/

section

variable [Zero δ] (recallAt queryNum : ℕ) (outcome : ℕ → ℕ → Outcome δ recallAt)

/-- One round of the search loop: the results of `L` go to its own position. -/
def searchStep (lvec : List ℕ) (bufs : List (ResultBuffers δ)) (testId : ℕ) :
    List (ResultBuffers δ) :=
  let L := lvec.getD testId 0
  if L < recallAt then bufs else bufs.set testId (.ofOutcomes queryNum (outcome L))

def searchLoop (lvec : List ℕ) : List (ResultBuffers δ) :=
  (List.range lvec.length).foldl (searchStep recallAt queryNum outcome lvec)
    (List.replicate lvec.length .empty)

end

/-- A result file, with its two header fields. -/
inductive ResultFile (δ : Type*) where
  | ids (npts ndims : ℕ) (rows : List ℕ)
  | dists (npts ndims : ℕ) (rows : List δ)

/-- The name of a file of one kind. -/
def resultPath (kind resultOutputPrefix : String) (L : ℕ) : String :=
  resultOutputPrefix ++ "_" ++ toString L ++ kind

def resultIdsPath : String → ℕ → String := resultPath "_idx_uint32.bin"

def resultDistsPath : String → ℕ → String := resultPath "_dists_float.bin"

/-- What `save_bin` takes from a buffer. -/
def savedRows {α : Type*} (data : List α) (npts ndims : ℕ) : Except String (List α) :=
  if data.length < npts * ndims then .error "read past the end of the result buffer"
  else .ok (data.take (npts * ndims))

structure SaveState (δ : Type*) where
  testId : ℕ
  files : String → Option (ResultFile δ)

section

variable (resultOutputPrefix : String) (recallAt queryNum : ℕ) (bufs : List (ResultBuffers δ))

def saveStep (s : SaveState δ) (L : ℕ) : Except String (SaveState δ) :=
  if L < recallAt then .ok s
  else
    let buf := bufs.getD s.testId .empty
    match savedRows buf.ids queryNum recallAt, savedRows buf.dists queryNum recallAt with
    | .error e, _ => .error e
    | .ok _, .error e => .error e
    | .ok ids, .ok dists =>
      .ok
        { testId := s.testId + 1
          files := Function.update
            (Function.update s.files (resultIdsPath resultOutputPrefix L)
              (some (.ids (queryNum % 2 ^ 32) (recallAt % 2 ^ 32) ids)))
            (resultDistsPath resultOutputPrefix L)
            (some (.dists (queryNum % 2 ^ 32) (recallAt % 2 ^ 32) dists)) }

def saveLoop (lvec : List ℕ) (s : SaveState δ) : Except String (SaveState δ) :=
  lvec.foldlM (saveStep resultOutputPrefix recallAt queryNum bufs) s

end

/-- The searches and the saving of their results, into the files there are. -/
def searchAndSave [Zero δ] (resultOutputPrefix : String) (recallAt queryNum : ℕ)
    (outcome : ℕ → ℕ → Outcome δ recallAt) (lvec : List ℕ)
    (files : String → Option (ResultFile δ)) : Except String (String → Option (ResultFile δ)) :=
  match saveLoop resultOutputPrefix recallAt queryNum (searchLoop recallAt queryNum outcome lvec)
      lvec ⟨0, files⟩ with
  | .error e => .error e
  | .ok s => .ok s.files

/-! ### Names -/

variable {resultOutputPrefix : String} {L L' : ℕ}

theorem resultPath_inj {kind : String} :
    resultPath kind resultOutputPrefix L = resultPath kind resultOutputPrefix L' ↔ L = L' := by
  constructor
  · intro h
    have hlist := congrArg String.toList h
    simp only [resultPath, String.toList_append, List.append_cancel_right_eq,
      List.append_cancel_left_eq, String.toList_inj] at hlist
    exact Decimal.toString_injective hlist
  · rintro rfl
    rfl

theorem resultIdsPath_inj :
    resultIdsPath resultOutputPrefix L = resultIdsPath resultOutputPrefix L' ↔ L = L' :=
  resultPath_inj

theorem resultDistsPath_inj :
    resultDistsPath resultOutputPrefix L = resultDistsPath resultOutputPrefix L' ↔ L = L' :=
  resultPath_inj

/-- The kinds differ in the letter before the extension. -/
theorem resultIdsPath_ne :
    resultIdsPath resultOutputPrefix L ≠ resultDistsPath resultOutputPrefix L' := by
  intro h
  have hlast := congrArg (fun s : String => s.toList.reverse[4]?) h
  simp [resultIdsPath, resultDistsPath, resultPath] at hlast

section

variable [Zero δ] {recallAt queryNum : ℕ} {outcome : ℕ → ℕ → Outcome δ recallAt}
  {bufs : List (ResultBuffers δ)} {lvec : List ℕ}

theorem length_resultSlots {α : Type*} [Zero α] {found : List α} (h : found.length ≤ recallAt) :
    (resultSlots recallAt found).length = recallAt := by
  rw [resultSlots, List.length_append, List.length_replicate, Nat.add_sub_cancel' h]

omit [Zero δ] in
theorem Outcome.length_slots {α : Type*} [Zero α] (o : Outcome δ recallAt) (f : ℕ × δ → α) :
    (resultSlots recallAt (o.found.map f)).length = recallAt := by
  apply length_resultSlots
  rw [List.length_map]
  exact o.length_le

theorem length_ids_ofOutcomes (outcome : ℕ → Outcome δ recallAt) :
    (ResultBuffers.ofOutcomes queryNum outcome).ids.length = queryNum * recallAt := by
  rw [ResultBuffers.ofOutcomes, List.length_map,
    Bytes.length_flatMap_const _ _ fun i _ => (outcome i).length_slots Prod.fst,
    List.length_range, Nat.mul_comm]

theorem length_dists_ofOutcomes (outcome : ℕ → Outcome δ recallAt) :
    (ResultBuffers.ofOutcomes queryNum outcome).dists.length = queryNum * recallAt := by
  rw [ResultBuffers.ofOutcomes,
    Bytes.length_flatMap_const _ _ fun i _ => (outcome i).length_slots Prod.snd,
    List.length_range, Nat.mul_comm]

theorem savedRows_of_length {α : Type*} {data : List α} {npts ndims : ℕ}
    (h : data.length = npts * ndims) : savedRows data npts ndims = .ok data := by
  rw [savedRows, if_neg h.not_lt, List.take_of_length_le h.le]

/-! ### The search loop -/

variable (recallAt queryNum outcome lvec) in
def resultsAt (i : ℕ) : ResultBuffers δ :=
  if lvec.getD i 0 < recallAt then .empty else .ofOutcomes queryNum (outcome (lvec.getD i 0))

theorem searchStep_getD {n j : ℕ} (hlen : bufs.length = lvec.length) (hj : j < lvec.length)
    (hfresh : bufs.getD n .empty = .empty) :
    (searchStep recallAt queryNum outcome lvec bufs n).getD j .empty =
      if j = n then resultsAt recallAt queryNum outcome lvec n else bufs.getD j .empty := by
  rw [searchStep, resultsAt]
  split_ifs with hskip he he
  · rw [he, hfresh]
  · rfl
  · subst he
    simp [hlen ▸ hj]
  · rw [List.getD_eq_getElem?_getD, List.getElem?_set_ne (Ne.symm he), List.getD_eq_getElem?_getD]

theorem length_searchStep (n : ℕ) :
    (searchStep recallAt queryNum outcome lvec bufs n).length = bufs.length := by
  rw [searchStep]
  split_ifs
  · rfl
  · exact List.length_set

variable (recallAt queryNum outcome lvec) in
theorem searchLoop_upto {n : ℕ} (hn : n ≤ lvec.length) :
    ((List.range n).foldl (searchStep recallAt queryNum outcome lvec)
      (List.replicate lvec.length .empty)).length = lvec.length ∧
    ∀ j < lvec.length, ((List.range n).foldl (searchStep recallAt queryNum outcome lvec)
      (List.replicate lvec.length .empty)).getD j .empty =
        if j < n then resultsAt recallAt queryNum outcome lvec j else .empty := by
  induction n with
  | zero =>
    refine ⟨List.length_replicate, fun j hj => ?_⟩
    simp [hj]
  | succ n ih =>
    obtain ⟨hlen, hget⟩ := ih (by omega)
    have hfresh := hget n (by omega)
    rw [if_neg (lt_irrefl n)] at hfresh
    rw [List.range_succ, List.foldl_append, List.foldl_cons, List.foldl_nil]
    refine ⟨(length_searchStep n).trans hlen, fun j hj => ?_⟩
    rw [searchStep_getD hlen hj hfresh, hget j hj]
    rcases lt_trichotomy j n with h | rfl | h
    · rw [if_neg h.ne, if_pos h, if_pos (by omega)]
    · rw [if_pos rfl, if_pos (Nat.lt_succ_self j)]
    · rw [if_neg h.ne', if_neg (by omega), if_neg (by omega)]

theorem searchLoop_getD {i : ℕ} (hi : i < lvec.length) :
    (searchLoop recallAt queryNum outcome lvec).getD i .empty =
      resultsAt recallAt queryNum outcome lvec i := by
  rw [searchLoop, (searchLoop_upto recallAt queryNum outcome lvec le_rfl).2 i hi, if_pos hi]

/-! ### The saving loop -/

/-- The files of the `L` that were run hold their results, and no others have changed. -/
structure FilesMatch (resultOutputPrefix : String) (recallAt queryNum : ℕ)
    (outcome : ℕ → ℕ → Outcome δ recallAt) (lvec : List ℕ)
    (files files' : String → Option (ResultFile δ)) : Prop where
  ids : ∀ L ∈ lvec, recallAt ≤ L → files' (resultIdsPath resultOutputPrefix L) =
    some (.ids (queryNum % 2 ^ 32) (recallAt % 2 ^ 32)
      (ResultBuffers.ofOutcomes queryNum (outcome L)).ids)
  dists : ∀ L ∈ lvec, recallAt ≤ L → files' (resultDistsPath resultOutputPrefix L) =
    some (.dists (queryNum % 2 ^ 32) (recallAt % 2 ^ 32)
      (ResultBuffers.ofOutcomes queryNum (outcome L)).dists)
  skipped : ∀ L < recallAt,
    files' (resultIdsPath resultOutputPrefix L) = files (resultIdsPath resultOutputPrefix L) ∧
    files' (resultDistsPath resultOutputPrefix L) = files (resultDistsPath resultOutputPrefix L)
  others : ∀ path, (∀ L ∈ lvec, recallAt ≤ L → path ≠ resultIdsPath resultOutputPrefix L ∧
    path ≠ resultDistsPath resultOutputPrefix L) → files' path = files path

variable {files files' : String → Option (ResultFile δ)}

omit [Zero δ] in
theorem saveStep_skip (h : L < recallAt) (s : SaveState δ) :
    saveStep resultOutputPrefix recallAt queryNum bufs s L = .ok s := if_pos h

/-- What a round writes when the counter points at the results of its `L`. -/
theorem saveStep_run (h : recallAt ≤ L) {s : SaveState δ}
    (hbuf : bufs.getD s.testId .empty = .ofOutcomes queryNum (outcome L)) :
    saveStep resultOutputPrefix recallAt queryNum bufs s L = .ok
      { testId := s.testId + 1
        files := Function.update
          (Function.update s.files (resultIdsPath resultOutputPrefix L)
            (some (.ids (queryNum % 2 ^ 32) (recallAt % 2 ^ 32)
              (ResultBuffers.ofOutcomes queryNum (outcome L)).ids)))
          (resultDistsPath resultOutputPrefix L)
          (some (.dists (queryNum % 2 ^ 32) (recallAt % 2 ^ 32)
            (ResultBuffers.ofOutcomes queryNum (outcome L)).dists)) } := by
  rw [saveStep, if_neg (not_lt.mpr h), hbuf]
  dsimp only
  rw [savedRows_of_length (length_ids_ofOutcomes _), savedRows_of_length (length_dists_ofOutcomes _)]

omit [Zero δ] in
/-- There is nothing to read behind an empty entry. -/
theorem saveStep_empty (h : recallAt ≤ L) (hpos : 0 < queryNum * recallAt) {s : SaveState δ}
    (hbuf : bufs.getD s.testId .empty = .empty) :
    saveStep resultOutputPrefix recallAt queryNum bufs s L =
      .error "read past the end of the result buffer" := by
  have hids : savedRows (ResultBuffers.empty : ResultBuffers δ).ids queryNum recallAt =
      .error "read past the end of the result buffer" :=
    if_pos hpos
  rw [saveStep, if_neg (not_lt.mpr h), hbuf]
  dsimp only
  rw [hids]

theorem FilesMatch.run (h : FilesMatch resultOutputPrefix recallAt queryNum outcome lvec files files')
    (hL : recallAt ≤ L) :
    FilesMatch resultOutputPrefix recallAt queryNum outcome (lvec ++ [L]) files
      (Function.update
        (Function.update files' (resultIdsPath resultOutputPrefix L)
          (some (.ids (queryNum % 2 ^ 32) (recallAt % 2 ^ 32)
            (ResultBuffers.ofOutcomes queryNum (outcome L)).ids)))
        (resultDistsPath resultOutputPrefix L)
        (some (.dists (queryNum % 2 ^ 32) (recallAt % 2 ^ 32)
          (ResultBuffers.ofOutcomes queryNum (outcome L)).dists))) where
  ids k hk hrun := by
    rw [Function.update_of_ne resultIdsPath_ne]
    by_cases he : k = L
    · rw [he, Function.update_self]
    · have hmem : k ∈ lvec := by simpa [he] using hk
      rw [Function.update_of_ne (resultIdsPath_inj.not.mpr he)]
      exact h.ids k hmem hrun
  dists k hk hrun := by
    by_cases he : k = L
    · rw [he, Function.update_self]
    · have hmem : k ∈ lvec := by simpa [he] using hk
      rw [Function.update_of_ne (resultDistsPath_inj.not.mpr he),
        Function.update_of_ne resultIdsPath_ne.symm]
      exact h.dists k hmem hrun
  skipped k hk := by
    have he : k ≠ L := by omega
    rw [Function.update_of_ne resultIdsPath_ne,
      Function.update_of_ne (resultIdsPath_inj.not.mpr he),
      Function.update_of_ne (resultDistsPath_inj.not.mpr he),
      Function.update_of_ne resultIdsPath_ne.symm]
    exact h.skipped k hk
  others path hpath := by
    obtain ⟨hids, hdists⟩ := hpath L (by simp) hL
    rw [Function.update_of_ne hdists, Function.update_of_ne hids]
    exact h.others path fun k hk => hpath k (List.mem_append_left _ hk)

theorem FilesMatch.skip (h : FilesMatch resultOutputPrefix recallAt queryNum outcome lvec files files')
    (hL : L < recallAt) :
    FilesMatch resultOutputPrefix recallAt queryNum outcome (lvec ++ [L]) files files' where
  ids k hk hrun := by
    have he : k ≠ L := by omega
    exact h.ids k (by simpa [he] using hk) hrun
  dists k hk hrun := by
    have he : k ≠ L := by omega
    exact h.dists k (by simpa [he] using hk) hrun
  skipped := h.skipped
  others path hpath := h.others path fun k hk => hpath k (List.mem_append_left _ hk)

variable (resultOutputPrefix) in
/-- As long as the counter points at the results of the `L` to be saved, the files match. -/
theorem saveLoop_match (files : String → Option (ResultFile δ))
    (hbuf : ∀ done L, done ++ [L] <+: lvec → recallAt ≤ L →
      bufs.getD (done.countP (recallAt ≤ ·)) .empty = .ofOutcomes queryNum (outcome L)) :
    ∃ s, saveLoop resultOutputPrefix recallAt queryNum bufs lvec ⟨0, files⟩ = .ok s ∧
      FilesMatch resultOutputPrefix recallAt queryNum outcome lvec files s.files := by
  have hrun := FallibleFold.foldlM_ok (f := saveStep resultOutputPrefix recallAt queryNum bufs)
    (s := ⟨0, files⟩) (fun done s => s.testId = done.countP (recallAt ≤ ·) ∧
      FilesMatch resultOutputPrefix recallAt queryNum outcome done files s.files) lvec ?_ ?_
  · obtain ⟨s, hs, _, hmatch⟩ := hrun
    exact ⟨s, hs, hmatch⟩
  · refine ⟨rfl, ⟨fun k hk => ?_, fun k hk => ?_, fun k _ => ⟨rfl, rfl⟩, fun path _ => rfl⟩⟩
    · cases hk
    · cases hk
  · rintro done L s hpre ⟨hcount, hmatch⟩
    rw [List.countP_append]
    rcases lt_or_ge L recallAt with hskip | hL
    · refine ⟨s, saveStep_skip hskip s, ?_, hmatch.skip hskip⟩
      simp [hcount, hskip]
    · refine ⟨_, saveStep_run hL (hcount ▸ hbuf done L hpre hL), ?_, hmatch.run hL⟩
      simp [hcount, hL]

/-! ### When the counter is right -/

/-- No skipped `L` stands before one that is run. -/
def RunsFirst (recallAt : ℕ) (lvec : List ℕ) : Prop :=
  lvec.Pairwise fun L L' => recallAt ≤ L' → recallAt ≤ L

/-- Before an `L` that is run the counter has moved with every position. -/
theorem RunsFirst.countP_eq (h : RunsFirst recallAt lvec) {done : List ℕ}
    (hpre : done ++ [L] <+: lvec) (hL : recallAt ≤ L) :
    done.countP (recallAt ≤ ·) = done.length := by
  have hpair := List.pairwise_append.mp (h.sublist hpre.sublist)
  rw [List.countP_eq_length]
  intro k hk
  exact decide_eq_true (hpair.2.2 k hk L (List.mem_singleton_self L) hL)

omit [Zero δ] in
theorem exists_first_run (h : ∃ L ∈ lvec, recallAt ≤ L) : ∃ skipped L rest,
    lvec = skipped ++ L :: rest ∧ (∀ k ∈ skipped, k < recallAt) ∧ recallAt ≤ L := by
  induction lvec with
  | nil =>
    obtain ⟨L, hL, _⟩ := h
    cases hL
  | cons k lvec ih =>
    rcases lt_or_ge k recallAt with hk | hk
    · have hrest : ∃ L ∈ lvec, recallAt ≤ L := by
        obtain ⟨L, hL, hrun⟩ := h
        rcases List.mem_cons.mp hL with rfl | hL
        · omega
        · exact ⟨L, hL, hrun⟩
      obtain ⟨skipped, L, rest, rfl, hskipped, hL⟩ := ih hrest
      exact ⟨k :: skipped, L, rest, rfl, List.forall_mem_cons.mpr ⟨hk, hskipped⟩, hL⟩
    · exact ⟨[], k, lvec, rfl, fun _ h => (List.not_mem_nil h).elim, hk⟩

omit [Zero δ] in
/-- Otherwise there is a first `L` that is run behind a skipped one. -/
theorem exists_skipped_run (h : ¬ RunsFirst recallAt lvec) : ∃ runs k skipped L rest,
    lvec = runs ++ k :: skipped ++ L :: rest ∧ (∀ k ∈ runs, recallAt ≤ k) ∧ k < recallAt ∧
      (∀ k ∈ skipped, k < recallAt) ∧ recallAt ≤ L := by
  induction lvec with
  | nil => exact absurd List.Pairwise.nil h
  | cons k lvec ih =>
    rcases lt_or_ge k recallAt with hk | hk
    · have hrest : ∃ L ∈ lvec, recallAt ≤ L := by
        by_contra hnone
        push Not at hnone
        apply h
        rw [RunsFirst, List.pairwise_cons]
        constructor
        · intro L hL hrun
          have := hnone L hL
          omega
        · apply List.pairwise_of_forall_mem_list
          intro L _ L' hL' hrun
          have := hnone L' hL'
          omega
      obtain ⟨skipped, L, rest, rfl, hskipped, hL⟩ := exists_first_run hrest
      exact ⟨[], k, skipped, L, rest, rfl, fun _ h => (List.not_mem_nil h).elim, hk, hskipped, hL⟩
    · have htail : ¬ RunsFirst recallAt lvec := fun hr =>
        h (List.pairwise_cons.mpr ⟨fun _ _ _ => hk, hr⟩)
      obtain ⟨runs, k', skipped, L, rest, rfl, hruns, hk', hskipped, hL⟩ := ih htail
      exact ⟨k :: runs, k', skipped, L, rest, rfl, List.forall_mem_cons.mpr ⟨hk, hruns⟩, hk',
        hskipped, hL⟩

omit [Zero δ] in
theorem saveStep_testId {s s' : SaveState δ}
    (h : saveStep resultOutputPrefix recallAt queryNum bufs s L = .ok s') :
    s'.testId = s.testId + if recallAt ≤ L then 1 else 0 := by
  unfold saveStep at h
  split_ifs at h with hskip
  · obtain rfl := Except.ok.inj h
    rw [if_neg (by omega), Nat.add_zero]
  · dsimp only at h
    split at h
    · cases h
    · cases h
    · obtain rfl := Except.ok.inj h
      rw [if_pos (by omega)]

omit [Zero δ] in
/-- The counter counts the files that have been saved. -/
theorem saveLoop_testId {s s' : SaveState δ}
    (h : saveLoop resultOutputPrefix recallAt queryNum bufs lvec s = .ok s') :
    s'.testId = s.testId + lvec.countP (recallAt ≤ ·) := by
  induction lvec using List.reverseRecOn generalizing s' with
  | nil =>
    obtain rfl := Except.ok.inj h
    rfl
  | append_singleton lvec L ih =>
    rw [saveLoop, FallibleFold.foldlM_concat] at h
    split at h
    · cases h
    · next t ht =>
      rw [saveStep_testId h, ih ht, List.countP_append, List.countP_singleton, Nat.add_assoc]
      simp

variable (resultOutputPrefix outcome) in
/-- The counter then points at the empty entry of a skipped `L`. -/
theorem saveLoop_error (h : ¬ RunsFirst recallAt lvec) (hquery : queryNum ≠ 0)
    (files : String → Option (ResultFile δ)) :
    ∃ e, saveLoop resultOutputPrefix recallAt queryNum
      (searchLoop recallAt queryNum outcome lvec) lvec ⟨0, files⟩ = .error e := by
  obtain ⟨runs, k, skipped, L, rest, hlvec, hruns, hk, hskipped, hL⟩ := exists_skipped_run h
  have hcount : (runs ++ k :: skipped).countP (recallAt ≤ ·) = runs.length := by
    have hr : runs.countP (recallAt ≤ ·) = runs.length :=
      List.countP_eq_length.mpr fun k hk => decide_eq_true (hruns k hk)
    have hs : (k :: skipped).countP (recallAt ≤ ·) = 0 := by
      rw [List.countP_eq_zero]
      intro j hj
      have hlt : j < recallAt := by
        rcases List.mem_cons.mp hj with rfl | hj
        · exact hk
        · exact hskipped j hj
      simp [hlt]
    rw [List.countP_append, hr, hs, Nat.add_zero]
  have hentry : (searchLoop recallAt queryNum outcome lvec).getD runs.length .empty = .empty := by
    have hget : lvec.getD runs.length 0 = k := by
      rw [hlvec]
      simp
    have hlen : runs.length < lvec.length := by
      rw [hlvec]
      simp
    rw [searchLoop_getD hlen, resultsAt, hget, if_pos hk]
  have hpos : 0 < queryNum * recallAt := Nat.mul_pos (Nat.pos_of_ne_zero hquery) (by omega)
  generalize searchLoop recallAt queryNum outcome lvec = bufs at hentry
  rw [hlvec, saveLoop, FallibleFold.foldlM_append]
  split
  · next e _ => exact ⟨e, rfl⟩
  · next s hs =>
    have hid : s.testId = runs.length := by
      rw [saveLoop_testId hs, hcount, Nat.zero_add]
    have hbuf : bufs.getD s.testId .empty = .empty := by
      rw [hid, hentry]
    refine ⟨"read past the end of the result buffer", ?_⟩
    rw [List.foldlM_cons, saveStep_empty hL hpos hbuf]
    rfl

/-- The result files hold the results of their own `L` exactly if no skipped `L` stands
before one that is run, or there are no queries. -/
theorem result_files_match_iff (resultOutputPrefix : String) (recallAt queryNum : ℕ)
    (outcome : ℕ → ℕ → Outcome δ recallAt) (lvec : List ℕ)
    (files : String → Option (ResultFile δ)) :
    (∃ files', searchAndSave resultOutputPrefix recallAt queryNum outcome lvec files = .ok files' ∧
      FilesMatch resultOutputPrefix recallAt queryNum outcome lvec files files') ↔
    queryNum = 0 ∨ RunsFirst recallAt lvec := by
  constructor
  · rintro ⟨files', hrun, _⟩
    by_contra hnot
    obtain ⟨hquery, hfirst⟩ := not_or.mp hnot
    obtain ⟨e, he⟩ := saveLoop_error resultOutputPrefix outcome hfirst hquery files
    rw [searchAndSave, he] at hrun
    cases hrun
  · intro hcond
    have hbuf : ∀ done L, done ++ [L] <+: lvec → recallAt ≤ L →
        (searchLoop recallAt queryNum outcome lvec).getD (done.countP (recallAt ≤ ·)) .empty =
          .ofOutcomes queryNum (outcome L) := by
      intro done L hpre hL
      have hlen := hpre.length_le
      rw [List.length_append, List.length_singleton] at hlen
      rcases hcond with rfl | hfirst
      · have hcount : done.countP (recallAt ≤ ·) ≤ done.length := List.countP_le_length
        rw [searchLoop_getD (by omega), resultsAt]
        split_ifs
        · rfl
        · rfl
      · obtain ⟨rest, rfl⟩ := hpre
        rw [hfirst.countP_eq (List.prefix_append _ _) hL, searchLoop_getD (by simp), resultsAt]
        have hget : (done ++ [L] ++ rest).getD done.length 0 = L := by simp
        rw [hget, if_neg (not_lt.mpr hL)]
    obtain ⟨s, hs, hmatch⟩ := saveLoop_match resultOutputPrefix files hbuf
    refine ⟨s.files, ?_, hmatch⟩
    rw [searchAndSave, hs]

end

def twoResults (_ _ : ℕ) : Outcome ℕ 2 where
  found := [(7, 1), (3, 4)]
  length_le := by decide
  id_lt := by decide

/-- With `1` skipped before `2` the results of `2` are looked for in the empty entry of `1`. -/
theorem skipped_before_run_not_saved : ¬ ∃ files',
    searchAndSave "res" 2 1 twoResults [1, 2] (fun _ => none) = .ok files' ∧
      FilesMatch "res" 2 1 twoResults [1, 2] (fun _ => none) files' := by
  rintro ⟨files', hrun, _⟩
  cases hrun

end HiDANN.Search
