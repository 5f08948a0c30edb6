import Mathlib.Data.List.Nodup
import Mathlib.Data.Finset.Card
import Mathlib.Data.Finset.Dedup

/-! Greedy selection from a list into a bounded number of places. An element is
taken when there is a place left and the elements taken so far admit it. -/

namespace HiDANN.Selection

variable {α : Type*} (R : ℕ) (ok : List α → α → Prop) [∀ S v, Decidable (ok S v)]

def step (S : List α) (v : α) : List α := if S.length < R ∧ ok S v then S ++ [v] else S

/-- The elements of `S` and what is selected from the list after them. -/
def select (S l : List α) : List α := l.foldl (step R ok) S

@[simp] theorem select_nil (S : List α) : select R ok S [] = S := rfl

@[simp] theorem select_cons (S l : List α) (v : α) :
    select R ok S (v :: l) = select R ok (step R ok S v) l := rfl

@[simp] theorem select_append (S l l' : List α) :
    select R ok S (l ++ l') = select R ok (select R ok S l) l' := List.foldl_append ..

/-- Selecting adds a part of the list, in its order. -/
theorem exists_sublist (S l : List α) : ∃ l', l'.Sublist l ∧ select R ok S l = S ++ l' := by
  induction l generalizing S with
  | nil => exact ⟨[], List.Sublist.refl _, by simp⟩
  | cons v l ih =>
    rw [select_cons, step]
    split_ifs with h
    · obtain ⟨l', hl, he⟩ := ih (S ++ [v])
      exact ⟨v :: l', hl.cons_cons v, by rw [he, List.append_assoc, List.singleton_append]⟩
    · obtain ⟨l', hl, he⟩ := ih S
      exact ⟨l', hl.cons v, he⟩

theorem prefix_select (S l : List α) : S <+: select R ok S l := by
  obtain ⟨l', -, he⟩ := exists_sublist R ok S l
  exact ⟨l', he.symm⟩

theorem sublist_select (S l : List α) : S.Sublist (select R ok S l) :=
  (prefix_select R ok S l).sublist

theorem mem_of_mem_select {S l : List α} {v : α} (h : v ∈ select R ok S l) : v ∈ S ∨ v ∈ l := by
  obtain ⟨l', hl, he⟩ := exists_sublist R ok S l
  rw [he, List.mem_append] at h
  exact h.imp_right fun hv => hl.mem hv

theorem length_select_le {S : List α} (h : S.length ≤ R) (l : List α) :
    (select R ok S l).length ≤ R := by
  induction l generalizing S with
  | nil => exact h
  | cons v l ih =>
    rw [select_cons, step]
    split_ifs with hv
    · refine ih ?_
      rw [List.length_append, List.length_singleton]
      omega
    · exact ih h

theorem select_full {S : List α} (h : R ≤ S.length) (l : List α) : select R ok S l = S := by
  induction l with
  | nil => rfl
  | cons v l ih => rw [select_cons, step, if_neg (by omega), ih]

theorem select_congr {ok' : List α → α → Prop} [∀ S v, Decidable (ok' S v)]
    (h : ∀ S v, ok S v ↔ ok' S v) (S l : List α) : select R ok S l = select R ok' S l := by
  induction l generalizing S with
  | nil => rfl
  | cons v l ih => simp only [select_cons, step, h, ih]

/-- A selection of images, where the admitted ones are the images of the admitted ones. -/
theorem select_map {β : Type*} (f : α → β) {p : α → Prop} {ok' : List β → β → Prop}
    [∀ S v, Decidable (ok' S v)]
    (h : ∀ S v, (∀ u ∈ S, p u) → p v → (ok' (S.map f) (f v) ↔ ok S v)) {S l : List α}
    (hS : ∀ u ∈ S, p u) (hl : ∀ v ∈ l, p v) :
    select R ok' (S.map f) (l.map f) = (select R ok S l).map f := by
  induction l generalizing S with
  | nil => rfl
  | cons v l ih =>
    obtain ⟨hv, hl⟩ := List.forall_mem_cons.mp hl
    rw [List.map_cons, select_cons, select_cons, step, step, List.length_map]
    by_cases hok : S.length < R ∧ ok S v
    · have hS' : ∀ u ∈ S ++ [v], p u := by
        intro u hu
        rcases List.mem_append.mp hu with hu | hu
        · exact hS u hu
        · rwa [List.mem_singleton.mp hu]
      rw [if_pos hok, if_pos ⟨hok.1, (h S v hS hv).mpr hok.2⟩, ← ih hS' hl, List.map_append]
      rfl
    · rw [if_neg hok, if_neg fun h' => hok ⟨h'.1, (h S v hS hv).mp h'.2⟩]
      exact ih hS hl

variable {ok} in
/-- Nothing is selected when nothing that comes is admitted. -/
theorem select_eq_self {S l : List α} (h : ∀ v ∈ l, ¬ ok S v) : select R ok S l = S := by
  induction l with
  | nil => rfl
  | cons v l ih =>
    rw [select_cons, step, if_neg fun hv => h v (by simp) hv.2]
    exact ih fun w hw => h w (by simp [hw])

variable {R ok} in
theorem not_ok_of_select_eq_self {S l : List α} (hfull : S.length < R)
    (h : select R ok S l = S) : ∀ v ∈ l, ¬ ok S v := by
  induction l with
  | nil => exact fun v hv => absurd hv List.not_mem_nil
  | cons v l ih =>
    rw [select_cons, step] at h
    split_ifs at h with hv
    · have hlen := (sublist_select R ok (S ++ [v]) l).length_le
      rw [h, List.length_append, List.length_singleton] at hlen
      omega
    · intro w hw
      rcases List.mem_cons.mp hw with rfl | hw
      · exact fun hok => hv ⟨hfull, hok⟩
      · exact ih h w hw

/-- A relation to everything selected before holds throughout. -/
theorem pairwise_select {r : α → α → Prop} (hr : ∀ S v, ok S v → ∀ u ∈ S, r u v) {S : List α}
    (hS : S.Pairwise r) (l : List α) : (select R ok S l).Pairwise r := by
  induction l generalizing S with
  | nil => exact hS
  | cons v l ih =>
    rw [select_cons, step]
    split_ifs with hv
    · refine ih (List.pairwise_append.mpr ⟨hS, List.pairwise_singleton _ _, fun u hu w hw => ?_⟩)
      rw [List.mem_singleton.mp hw]
      exact hr S v hv.2 u hu
    · exact ih hS

/-- What is selected was admitted by what was selected before it. -/
theorem forall_mem_select {p : α → Prop} (hp : ∀ S v, ok S v → p v) {S : List α}
    (hS : ∀ v ∈ S, p v) (l : List α) : ∀ v ∈ select R ok S l, p v := by
  induction l generalizing S with
  | nil => exact hS
  | cons v l ih =>
    rw [select_cons, step]
    split_ifs with hv
    · refine ih fun u hu => ?_
      rcases List.mem_append.mp hu with hu | hu
      · exact hS u hu
      · rw [List.mem_singleton.mp hu]
        exact hp S v hv.2
    · exact ih hS

variable {R ok} in
/-- Everything is selected when it is admitted by all that is before it. -/
theorem select_eq_append {S l : List α} (hlen : S.length + l.length ≤ R)
    (h : ∀ near v far, l = near ++ v :: far → ok (S ++ near) v) : select R ok S l = S ++ l := by
  induction l generalizing S with
  | nil => rw [select_nil, List.append_nil]
  | cons v l ih =>
    rw [List.length_cons] at hlen
    have hv : ok S v := by simpa using h [] v l rfl
    rw [select_cons, step, if_pos ⟨by omega, hv⟩, ih]
    · rw [List.append_assoc, List.singleton_append]
    · rw [List.length_append, List.length_singleton]
      omega
    · intro near w far he
      simpa using h (v :: near) w far (by rw [he, List.cons_append])

/-- Where an element comes to be considered, it is selected after those that have been
selected before it, or not admitted by them, or there is no place left. -/
theorem exists_selected_before (pre : List α) (c : α) (post : List α) :
    ∃ kept, kept <+: select R ok [] (pre ++ c :: post) ∧ kept.Sublist pre ∧
      (kept ++ [c] <+: select R ok [] (pre ++ c :: post) ∨ ¬ ok kept c ∨ R ≤ kept.length) := by
  obtain ⟨kept, hsub, hkept⟩ := exists_sublist R ok [] pre
  have hnext := prefix_select R ok (step R ok kept c) post
  rw [select_append, select_cons, hkept, List.nil_append]
  by_cases hc : kept.length < R ∧ ok kept c
  · rw [step, if_pos hc] at hnext ⊢
    exact ⟨kept, (List.prefix_append _ _).trans hnext, hsub, .inl hnext⟩
  · rw [step, if_neg hc] at hnext ⊢
    rw [not_and_or, not_lt] at hc
    exact ⟨kept, hnext, hsub, .inr hc.symm⟩

/-! ### Selecting from the front -/

section Front

variable {R ok}

/-- The first that is selected was admitted. -/
theorem ok_of_select_eq {S l far : List α} {v : α} (h : select R ok S l = S ++ v :: far) :
    ok S v := by
  induction l with
  | nil => simp at h
  | cons w l ih =>
    rw [select_cons, step] at h
    split_ifs at h with hw
    · obtain ⟨l', -, he⟩ := exists_sublist R ok (S ++ [w]) l
      rw [he, List.append_assoc, List.append_cancel_left_eq, List.singleton_append] at h
      rw [← (List.cons.inj h).1]
      exact hw.2
    · exact ih h

/-- With the first selected, those after it come first in the rest. -/
theorem exists_take_cons_iff {S l : List α} {v : α} :
    (∃ k, select R ok (S ++ [v]) l = S ++ (v :: l).take k) ↔
      ∃ k, select R ok (S ++ [v]) l = S ++ [v] ++ l.take k := by
  constructor
  · rintro ⟨k, hk⟩
    cases k with
    | zero =>
      have hlen := (sublist_select R ok (S ++ [v]) l).length_le
      rw [hk, List.take_zero, List.append_nil, List.length_append,
        List.length_singleton] at hlen
      omega
    | succ k => exact ⟨k, by simp [hk]⟩
  · rintro ⟨k, hk⟩
    exact ⟨k + 1, by simp [hk]⟩

/-- With the first passed over, nothing may be selected. -/
theorem exists_take_iff_of_not_ok {S l : List α} {v : α} (hfull : S.length < R) (hv : ¬ ok S v) :
    (∃ k, select R ok S l = S ++ (v :: l).take k) ↔ ∀ w ∈ l, ¬ ok S w := by
  constructor
  · rintro ⟨k, hk⟩ w hw hokw
    cases k with
    | zero =>
      rw [List.take_zero, List.append_nil] at hk
      exact not_ok_of_select_eq_self hfull hk w hw hokw
    | succ k => exact hv (ok_of_select_eq hk)
  · intro h
    exact ⟨0, by rw [select_eq_self R h, List.take_zero, List.append_nil]⟩

variable (R) in
/-- What is selected comes first in the list exactly when, after one that is passed
over with a place left, none is admitted. -/
theorem select_eq_take_iff (hok : ∀ S S' v, ok (S ++ S') v → ok S v) (S l : List α) :
    (∃ k, select R ok S l = S ++ l.take k) ↔
      ∀ near v far, l = near ++ v :: far → (S ++ near).length < R → ¬ ok (S ++ near) v →
        ∀ w ∈ far, ¬ ok (S ++ near) w := by
  induction l generalizing S with
  | nil => simp
  | cons v l ih =>
    rw [select_cons, step]
    by_cases hfull : S.length < R
    · by_cases hv : ok S v
      · rw [if_pos ⟨hfull, hv⟩, exists_take_cons_iff, ih (S ++ [v])]
        constructor
        · intro h near w far he hlt hw
          cases near with
          | nil =>
            obtain ⟨rfl, rfl⟩ := List.cons.inj he
            rw [List.append_nil] at hw
            exact absurd hv hw
          | cons w' near =>
            obtain ⟨rfl, hrest⟩ := List.cons.inj he
            simpa using h near w far hrest (by simpa using hlt) (by simpa using hw)
        · intro h near w far he hlt hw
          simpa using h (v :: near) w far (by simp [he]) (by simpa using hlt) (by simpa using hw)
      · rw [if_neg fun h => hv h.2, exists_take_iff_of_not_ok hfull hv]
        constructor
        · intro h near w far he hlt hw x hx hokx
          have hxl : x ∈ l := by
            cases near with
            | nil => exact (List.cons.inj he).2 ▸ hx
            | cons w' near =>
              rw [(List.cons.inj he).2]
              exact List.mem_append_right _ (List.mem_cons_of_mem _ hx)
          exact h x hxl (hok _ _ _ hokx)
        · intro h w hw
          have := h [] v l rfl
          simp only [List.append_nil] at this
          exact this hfull hv w hw
    · rw [if_neg fun h => hfull h.1, select_full R ok (Nat.le_of_not_lt hfull)]
      refine iff_of_true ⟨0, by simp⟩ fun near w far _ hlt => ?_
      rw [List.length_append] at hlt
      omega

end Front

/-! ### Selecting what is not there -/

section New

variable [DecidableEq α]

/-- Every element that is not there yet is admitted. -/
def selectNew (S l : List α) : List α := select R (fun S v => v ∉ S) S l

variable {R}

theorem nodup_selectNew {S : List α} (h : S.Nodup) (l : List α) : (selectNew R S l).Nodup := by
  induction l generalizing S with
  | nil => exact h
  | cons v l ih =>
    rw [selectNew, select_cons, step]
    split_ifs with hv
    · exact ih (h.append (List.nodup_singleton v) (List.disjoint_singleton.mpr hv.2))
    · exact ih h

/-- Either the places are used up or everything is there. -/
theorem selectNew_full_or (S l : List α) :
    R ≤ (selectNew R S l).length ∨ ∀ v ∈ l, v ∈ selectNew R S l := by
  induction l generalizing S with
  | nil => exact .inr fun v hv => absurd hv List.not_mem_nil
  | cons v l ih =>
    rw [selectNew, select_cons]
    have hsub := sublist_select R (fun S v => v ∉ S) (step R (fun S v => v ∉ S) S v) l
    rcases ih (step R (fun S v => v ∉ S) S v) with h | h
    · exact .inl h
    · by_cases hfull : R ≤ (step R (fun S v => v ∉ S) S v).length
      · exact .inl (hfull.trans hsub.length_le)
      · refine .inr fun w hw => ?_
        rcases List.mem_cons.mp hw with rfl | hw
        · refine hsub.mem ?_
          rw [step] at hfull ⊢
          split_ifs at hfull ⊢ with hv
          · exact List.mem_append_right _ (List.mem_singleton_self w)
          · by_contra hmem
            exact hv ⟨Nat.lt_of_not_le hfull, hmem⟩
        · exact h w hw

/-- As many distinct elements as there are, up to the number of places. -/
theorem length_selectNew {S : List α} (hS : S.Nodup) (hR : S.length ≤ R) (l : List α) :
    (selectNew R S l).length = min R (S ++ l).toFinset.card := by
  have hsub : (selectNew R S l).toFinset ⊆ (S ++ l).toFinset := by
    intro v hv
    rw [List.mem_toFinset] at hv ⊢
    exact List.mem_append.mpr (mem_of_mem_select R _ hv)
  have hle := Finset.card_le_card hsub
  have hmax : (selectNew R S l).length ≤ R := length_select_le R _ hR l
  rw [List.toFinset_card_of_nodup (nodup_selectNew hS l)] at hle
  rcases selectNew_full_or (R := R) S l with h | h
  · omega
  · have hsup : (S ++ l).toFinset ⊆ (selectNew R S l).toFinset := by
      intro v hv
      rw [List.mem_toFinset] at hv ⊢
      rcases List.mem_append.mp hv with hv | hv
      · exact (sublist_select R _ S l).mem hv
      · exact h v hv
    have hge := Finset.card_le_card hsup
    rw [List.toFinset_card_of_nodup (nodup_selectNew hS l)] at hge
    omega

/-- What is added is in the list, not in `S`, and there once. -/
theorem exists_new (S l : List α) : ∃ l', selectNew R S l = S ++ l' ∧ l'.Nodup ∧
    ∀ v ∈ l', v ∈ l ∧ v ∉ S := by
  induction l generalizing S with
  | nil => exact ⟨[], by simp [selectNew], List.nodup_nil, by simp⟩
  | cons v l ih =>
    rw [selectNew, select_cons, step]
    split_ifs with hv
    · obtain ⟨l', he, hnd, hl'⟩ := ih (S ++ [v])
      refine ⟨v :: l', by rw [← selectNew, he, List.append_assoc, List.singleton_append], ?_, ?_⟩
      · exact List.nodup_cons.mpr ⟨fun h => (hl' v h).2 (by simp), hnd⟩
      · intro w hw
        rcases List.mem_cons.mp hw with rfl | hw
        · exact ⟨by simp, hv.2⟩
        · exact ⟨List.mem_cons_of_mem _ (hl' w hw).1, fun h => (hl' w hw).2 (by simp [h])⟩
    · obtain ⟨l', he, hnd, hl'⟩ := ih S
      exact ⟨l', he, hnd, fun w hw => ⟨List.mem_cons_of_mem _ (hl' w hw).1, (hl' w hw).2⟩⟩

theorem length_selectNew_le {S l : List α} (h : S.Sublist l) :
    (selectNew R S l).length ≤ l.length := by
  obtain ⟨l', he, hnd, hl'⟩ := exists_new (R := R) S l
  rw [he]
  refine (List.subperm_ext_iff.mpr fun v hv => ?_).length_le
  rw [List.count_append]
  by_cases hS : v ∈ S
  · rw [List.count_eq_zero_of_not_mem fun hmem => (hl' v hmem).2 hS, Nat.add_zero]
    exact h.count_le v
  · rw [List.count_eq_zero_of_not_mem hS, Nat.zero_add]
    rcases List.mem_append.mp hv with hv | hv
    · exact absurd hv hS
    · exact (List.nodup_iff_count_le_one.mp hnd v).trans (List.count_pos_iff.mpr (hl' v hv).1)

/-- From a list without repetitions the places are filled in its order. -/
theorem selectNew_eq_append {l : List α} (hl : l.Nodup) (S : List α) :
    selectNew R S l = S ++ (l.filter (· ∉ S)).take (R - S.length) := by
  induction l generalizing S with
  | nil => simp [selectNew]
  | cons v l ih =>
    rw [List.nodup_cons] at hl
    rw [selectNew, select_cons, step]
    by_cases hv : v ∈ S
    · rw [if_neg fun h => h.2 hv, ← selectNew, ih hl.2 S,
        List.filter_cons_of_neg (by simpa using hv)]
    · rw [List.filter_cons_of_pos (by simpa using hv)]
      by_cases hfull : S.length < R
      · have hsame : l.filter (· ∉ S ++ [v]) = l.filter (· ∉ S) := by
          refine List.filter_congr fun w hw => ?_
          have hne : w ≠ v := fun h => hl.1 (h ▸ hw)
          simp [hne]
        obtain ⟨n, hn⟩ := Nat.exists_eq_succ_of_ne_zero (Nat.sub_ne_zero_of_lt hfull)
        rw [if_pos ⟨hfull, hv⟩, ← selectNew, ih hl.2, hsame, hn, List.take_succ_cons,
          List.append_assoc, List.singleton_append, List.length_append, List.length_singleton]
        congr 3
        omega
      · rw [if_neg fun h => hfull h.1, select_full _ _ (Nat.le_of_not_lt hfull),
          Nat.sub_eq_zero_of_le (Nat.le_of_not_lt hfull), List.take_zero, List.append_nil]

end New

/-! ### Lists with repetitions -/

section Repeated

variable {R ok}

/-- An element would be taken a second time right after the first. -/
def Again (R : ℕ) (ok : List α → α → Prop) (S : List α) (v : α) : Prop :=
  S.length + 1 < R ∧ ok S v ∧ ok (S ++ [v]) v

/-- An element that is not taken again is not taken again however often it comes. -/
theorem select_replicate {S : List α} {v : α} (h : ¬ Again R ok S v) (n : ℕ) :
    select R ok S (List.replicate (n + 1) v) = step R ok S v := by
  rw [List.replicate_succ, select_cons]
  have hfix : step R ok (step R ok S v) v = step R ok S v := by
    by_cases hv : S.length < R ∧ ok S v
    · rw [step, step, if_pos hv, if_neg]
      rintro ⟨h1, h2⟩
      rw [List.length_append, List.length_singleton] at h1
      exact h ⟨h1, hv.2, h2⟩
    · rw [step, step, if_neg hv, if_neg hv]
  induction n with
  | zero => rfl
  | succ n ih => rw [List.replicate_succ, select_cons, hfix, ih]

/-- One that is taken again is there twice. -/
theorem not_nodup_of_again {S : List α} {v : α} (h : Again R ok S v) (n : ℕ) (l : List α) :
    ¬ (select R ok S (List.replicate (n + 2) v ++ l)).Nodup := by
  obtain ⟨h1, h2, h3⟩ := h
  have hfirst : step R ok S v = S ++ [v] := by rw [step, if_pos ⟨by omega, h2⟩]
  have hsecond : step R ok (S ++ [v]) v = S ++ [v] ++ [v] := by
    rw [step, if_pos ⟨by simpa using h1, h3⟩]
  rw [List.replicate_succ, List.replicate_succ, List.cons_append, List.cons_append, select_cons,
    select_cons, hfirst, hsecond]
  intro hnd
  have hS := hnd.sublist (sublist_select R ok _ _)
  rw [List.append_assoc, List.nodup_append] at hS
  simp at hS

/-- A list of runs of distinct elements is selected from without repetition
exactly when no element that comes twice would be taken again. -/
theorem nodup_select_runs {m : α → ℕ} {D S : List α} (hm : ∀ v ∈ D, 0 < m v) (hD : D.Nodup)
    (hS : S.Nodup) (hdisj : ∀ v ∈ D, v ∉ S) :
    (select R ok S (D.flatMap fun v => List.replicate (m v) v)).Nodup ↔
      ∀ near v far, D = near ++ v :: far → 1 < m v → ¬ Again R ok (select R ok S near) v := by
  induction D generalizing S with
  | nil => simpa using hS
  | cons w D ih =>
    obtain ⟨n, hn⟩ := Nat.exists_eq_succ_of_ne_zero (hm w (by simp)).ne'
    rw [List.nodup_cons] at hD
    have hw : w ∉ S := hdisj w (by simp)
    rw [List.flatMap_cons, hn]
    by_cases hagain : 1 < m w ∧ Again R ok S w
    · obtain ⟨k, rfl⟩ : ∃ k, n = k + 1 := Nat.exists_eq_succ_of_ne_zero (by omega)
      refine iff_of_false (not_nodup_of_again hagain.2 k _) fun h => ?_
      exact h [] w D rfl hagain.1 hagain.2
    · -- every copy of `w` after the first is passed over
      have hfirst : select R ok S (List.replicate (n + 1) w) = step R ok S w := by
        rcases Nat.eq_zero_or_pos n with rfl | hpos
        · rfl
        · exact select_replicate (fun h => hagain ⟨by omega, h⟩) n
      have hstep : (step R ok S w).Nodup ∧ ∀ v ∈ D, v ∉ step R ok S w := by
        rw [step]
        split_ifs
        · refine ⟨hS.append (List.nodup_singleton w) (List.disjoint_singleton.mpr hw), ?_⟩
          intro v hv hmem
          rcases List.mem_append.mp hmem with hmem | hmem
          · exact hdisj v (by simp [hv]) hmem
          · exact hD.1 (List.mem_singleton.mp hmem ▸ hv)
        · exact ⟨hS, fun v hv => hdisj v (by simp [hv])⟩
      rw [select_append, hfirst, ih (fun v hv => hm v (by simp [hv])) hD.2 hstep.1 hstep.2]
      constructor
      · intro h near v far he hv
        cases near with
        | nil =>
          obtain ⟨rfl, rfl⟩ := List.cons.inj he
          exact fun ha => hagain ⟨hv, ha⟩
        | cons w' near =>
          obtain ⟨rfl, hrest⟩ := List.cons.inj he
          exact h near v far hrest hv
      · intro h near v far he hv
        exact h (w :: near) v far (by rw [he, List.cons_append]) hv

end Repeated

end HiDANN.Selection
