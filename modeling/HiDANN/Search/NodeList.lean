import HiDANN.Construction.PairMask
import HiDANN.Library.Decimal
import Mathlib.Data.List.DropRight

/-! The text file of a cache list. An id stands on a line of its own; the reader passes
over blank lines and lines that start with `#`, and stops as soon as it has the number of
ids that it was asked for. From a file as it is saved it reads the first ids in their
order, and fails when there are too few. -/

namespace HiDANN.Search

open Construction

/-! ### Writing -/

/-- `out << u << "\n"` for every id. -/
def saveNodeList (ids : List ℕ) : List Char :=
  ids.flatMap fun u => (toString u).toList ++ ['\n']

/-! ### Reading -/

/-- The characters of `" \t\r\n"`. -/
def isBlank (c : Char) : Bool := c.toNat = 32 || c.toNat = 9 || c.toNat = 13 || c.toNat = 10

def trimCopy (s : List Char) : List Char := (s.dropWhile isBlank).rdropWhile isBlank

/-- `s.c_str()`, up to the first `NUL`. -/
def cStr (s : List Char) : List Char := s.takeWhile fun c => c.toNat ≠ 0

/-- The loop of `read_node_list_from_txt` over the lines. A number that `strtoull` does not
take is the same to it as one out of range. -/
def readNodeLines (numNodesToCache : ℕ) :
    ℕ → List (List Char) → List ℕ → Except String (List ℕ)
  | _, [], nodeList => .ok nodeList
  | lineNo, line :: lines, nodeList =>
    if numNodesToCache ≤ nodeList.length then .ok nodeList
    else
      let t := trimCopy line
      if t = [] ∨ t.head? = some '#' then
        readNodeLines numNodesToCache (lineNo + 1) lines nodeList
      else
        let invalid := "invalid node id at line " ++ toString (lineNo + 1) ++ ": " ++ String.ofList t
        match readU64 (cStr t) with
        | none => .error invalid
        | some (v, rest) =>
          if trimCopy rest ≠ [] then .error invalid
          else if 2 ^ 32 - 1 < v then
            .error ("node id out of uint32 range at line " ++ toString (lineNo + 1) ++ ": " ++
              String.ofList t)
          else readNodeLines numNodesToCache (lineNo + 1) lines (nodeList ++ [v])

/-- `read_node_list_from_txt`; there is no text when the file cannot be opened. -/
def readNodeListFromTxt (text : Option (List Char)) (numNodesToCache : ℕ) :
    Except String (List ℕ) :=
  if numNodesToCache = 0 then .ok []
  else match text with
    | none => .error "failed to open file"
    | some text => match readNodeLines numNodesToCache 0 (getlines text) [] with
      | .error e => .error e
      | .ok nodeList =>
        if nodeList.length ≠ numNodesToCache then
          .error ("expected " ++ toString numNodesToCache ++ " node ids, found " ++
            toString nodeList.length)
        else .ok nodeList

/-! ### A number on its line -/

variable {c : Char} {u : ℕ}

theorem toNat_of_isDigit (h : c.isDigit = true) : 48 ≤ c.toNat ∧ c.toNat ≤ 57 := by
  rw [Char.isDigit, Bool.and_eq_true, decide_eq_true_eq, decide_eq_true_eq] at h
  exact ⟨h.1, h.2⟩

theorem not_isBlank_of_isDigit (h : c.isDigit = true) : isBlank c = false := by
  have := toNat_of_isDigit h
  simp only [isBlank, Bool.or_eq_false_iff, decide_eq_false_iff_not]
  omega

theorem not_isSpace_of_isDigit (h : c.isDigit = true) : isSpace c = false := by
  have := toNat_of_isDigit h
  simp only [isSpace, Bool.or_eq_false_iff, Bool.and_eq_false_iff, decide_eq_false_iff_not]
  omega

theorem readSign_cons_of_isDigit (h : c.isDigit = true) (cs : List Char) :
    readSign (c :: cs) = (false, c :: cs) := by
  have hc := toNat_of_isDigit h
  have hminus : c ≠ '-' := by
    rintro rfl
    exact absurd hc.1 (by decide)
  have hplus : c ≠ '+' := by
    rintro rfl
    exact absurd hc.1 (by decide)
  rw [readSign, if_neg hminus, if_neg hplus]

theorem dropWhile_eq_self {p : Char → Bool} {s : List Char} (h : ∀ c ∈ s, p c = false) :
    s.dropWhile p = s := by
  cases s with
  | nil => rfl
  | cons c s => rw [List.dropWhile_cons, if_neg (by simp [h c List.mem_cons_self])]

section Digits

variable {t : List Char} (h : ∀ c ∈ t, c.isDigit = true)

include h

theorem trimCopy_digits : trimCopy t = t := by
  rw [trimCopy, dropWhile_eq_self fun c hc => not_isBlank_of_isDigit (h c hc), List.rdropWhile,
    dropWhile_eq_self fun c hc => not_isBlank_of_isDigit (h c (List.mem_reverse.mp hc)),
    List.reverse_reverse]

theorem cStr_digits : cStr t = t := by
  rw [cStr, List.takeWhile_eq_self_iff]
  intro c hc
  have := toNat_of_isDigit (h c hc)
  simp only [ne_eq, decide_eq_true_eq]
  omega

theorem head?_digits_ne : t.head? ≠ some '#' := by
  intro hhead
  exact absurd (toNat_of_isDigit (h _ (List.mem_of_mem_head? hhead))).1 (by decide)

theorem readSign_digits : readSign t = (false, t) := by
  cases t with
  | nil => rfl
  | cons c cs => exact readSign_cons_of_isDigit (h c List.mem_cons_self) cs

theorem readU64_digits (hne : t ≠ []) (hlt : Decimal.value t < 2 ^ 64) :
    readU64 t = some (Decimal.value t, []) := by
  have hdigits : t.takeWhile Char.isDigit = t := List.takeWhile_eq_self_iff.mpr h
  have hrest : t.dropWhile Char.isDigit = [] := List.dropWhile_eq_nil_iff.mpr h
  rw [readU64, dropWhile_eq_self fun c hc => not_isSpace_of_isDigit (h c hc), readSign_digits h]
  dsimp only
  rw [Decimal.value] at hlt ⊢
  rw [hdigits, hrest, if_neg hne, if_neg (Nat.not_le.mpr hlt)]
  rfl

end Digits

/-! ### A saved list -/

theorem getlines_line {line : List Char} (h : ∀ c ∈ line, c.toNat ≠ 10) (text : List Char) :
    getlines (line ++ '\n' :: text) = line :: getlines text := by
  induction line with
  | nil => rw [List.nil_append, getlines, if_pos (by decide)]
  | cons c line ih =>
    rw [List.cons_append, getlines, if_neg (h c List.mem_cons_self),
      ih fun d hd => h d (List.mem_cons_of_mem _ hd)]

theorem getlines_saveNodeList (ids : List ℕ) :
    getlines (saveNodeList ids) = ids.map fun u => (toString u).toList := by
  induction ids with
  | nil => rfl
  | cons u ids ih =>
    have hline : ∀ c ∈ (toString u).toList, c.toNat ≠ 10 := fun c h => by
      have := toNat_of_isDigit (Decimal.isDigit_of_mem h)
      omega
    rw [saveNodeList, List.flatMap_cons, List.append_assoc, List.singleton_append,
      getlines_line hline, List.map_cons, ← ih]
    rfl

/-- One line of a saved list, while ids are still asked for. -/
theorem readNodeLines_cons {k lineNo : ℕ} {lines : List (List Char)} {nodeList : List ℕ}
    (hu : u < 2 ^ 32) (hlen : nodeList.length < k) :
    readNodeLines k lineNo ((toString u).toList :: lines) nodeList =
      readNodeLines k (lineNo + 1) lines (nodeList ++ [u]) := by
  have hdigits : ∀ c ∈ (toString u).toList, c.isDigit = true := fun c => Decimal.isDigit_of_mem
  have hvalue := Decimal.value_toString u
  have hid : ¬ ((toString u).toList = [] ∨ (toString u).toList.head? = some '#') := by
    rintro (h | h)
    · exact Decimal.toList_ne_nil u h
    · exact head?_digits_ne hdigits h
  have hempty : ¬ trimCopy [] ≠ [] := not_not.mpr rfl
  rw [readNodeLines, if_neg (by omega)]
  dsimp only
  rw [trimCopy_digits hdigits, if_neg hid, cStr_digits hdigits,
    readU64_digits hdigits (Decimal.toList_ne_nil u) (by omega)]
  dsimp only
  rw [if_neg hempty, if_neg (by omega), hvalue]

theorem readNodeLines_saved {k : ℕ} {ids : List ℕ} (hids : ∀ u ∈ ids, u < 2 ^ 32) (lineNo : ℕ)
    (nodeList : List ℕ) (hlen : nodeList.length ≤ k) :
    readNodeLines k lineNo (ids.map fun u => (toString u).toList) nodeList =
      .ok (nodeList ++ ids.take (k - nodeList.length)) := by
  induction ids generalizing lineNo nodeList with
  | nil => rw [List.map_nil, readNodeLines, List.take_nil, List.append_nil]
  | cons u ids ih =>
    rw [List.map_cons]
    rcases Nat.lt_or_ge nodeList.length k with hlt | hge
    · rw [readNodeLines_cons (hids u List.mem_cons_self) hlt,
        ih (fun v hv => hids v (List.mem_cons_of_mem _ hv)) _ _ (by simp; omega)]
      obtain ⟨m, hm⟩ : ∃ m, k - nodeList.length = m + 1 := ⟨k - nodeList.length - 1, by omega⟩
      have hm' : k - (nodeList ++ [u]).length = m := by simp; omega
      rw [hm, hm', List.take_succ_cons, List.append_assoc, List.singleton_append]
    · rw [readNodeLines, if_pos hge, Nat.sub_eq_zero_of_le hge, List.take_zero, List.append_nil]

theorem readNodeListFromTxt_saved {k : ℕ} {ids : List ℕ} (hids : ∀ u ∈ ids, u < 2 ^ 32) :
    readNodeListFromTxt (some (saveNodeList ids)) k =
      if k ≤ ids.length then .ok (ids.take k)
      else .error ("expected " ++ toString k ++ " node ids, found " ++ toString ids.length) := by
  rw [readNodeListFromTxt]
  rcases Nat.eq_zero_or_pos k with rfl | hk
  · rw [if_pos rfl, if_pos (Nat.zero_le _), List.take_zero]
  · rw [if_neg (by omega), getlines_saveNodeList,
      readNodeLines_saved hids 0 [] (Nat.zero_le _), List.length_nil, Nat.sub_zero, List.nil_append]
    dsimp only
    rw [List.length_take]
    rcases Nat.lt_or_ge ids.length k with hlt | hge
    · rw [if_pos (by omega), if_neg (by omega), Nat.min_eq_right hlt.le]
    · rw [if_neg (by omega), if_pos hge]

/-- A saved list is read back as it was when exactly its length is asked for. -/
theorem read_saved {ids : List ℕ} (hids : ∀ u ∈ ids, u < 2 ^ 32) :
    readNodeListFromTxt (some (saveNodeList ids)) ids.length = .ok ids := by
  rw [readNodeListFromTxt_saved hids, if_pos le_rfl, List.take_length]

end HiDANN.Search
