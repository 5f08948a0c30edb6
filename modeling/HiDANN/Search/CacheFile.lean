import HiDANN.Search.CacheLoad
import HiDANN.Search.NodeList

/-! The text file of a cache list as the search program takes it. An id is what
`strtoull` makes of its line, so a sign may stand in front of the digits, and a negated
number wraps around. The ids are compared with nothing before the cache is loaded from
them. -/

namespace HiDANN.Search

open Construction

/-! ### The program -/

/-- `search_disk_index` with `CACHE_FILE` set: the cache list is read from the file, and the
cache is loaded from it. -/
def loadCacheFile (g : GraphSource) (file : List UInt8) (numPoints : ℕ) (env : CacheEnv)
    (cacheTxt : String) (text : Option (List Char)) (numNodesToCache : ℕ) : Except String Cache :=
  match readNodeListFromTxt text numNodesToCache with
  | .error e => .error ("Invalid CACHE_FILE " ++ cacheTxt ++ ": " ++ e)
  | .ok nodeList => loadCacheList g file numPoints env nodeList

/-! ### Lines with ids -/

def isIdLine (line : List Char) : Bool :=
  ! (decide (trimCopy line = []) || decide ((trimCopy line).head? = some '#'))

def idLines (text : List Char) : List (List Char) := (getlines text).filter isIdLine

/-- One unsigned decimal number, apart from the blanks around it. -/
def Plain (line : List Char) : Prop := trimCopy line ≠ [] ∧ ∀ c ∈ trimCopy line, c.isDigit = true

def idOf (line : List Char) : ℕ := Decimal.value (trimCopy line)

/-- The first `k` lines with ids each hold one unsigned number of 32 bits. -/
def WellFormed (text : List Char) (k : ℕ) : Prop :=
  k ≤ (idLines text).length ∧ ∀ line ∈ (idLines text).take k, Plain line ∧ idOf line < 2 ^ 32

/-- The file is read exactly when it is well formed, as the numbers it holds. -/
def ReadsExactly (text : List Char) (k : ℕ) : Prop :=
  ∀ nodeList, readNodeListFromTxt (some text) k = .ok nodeList ↔
    WellFormed text k ∧ nodeList = ((idLines text).take k).map idOf

/-- Every id that the cache is loaded from is a point of the index. -/
def InBounds (text : List Char) (k numPoints : ℕ) : Prop :=
  ∀ nodeList, readNodeListFromTxt (some text) k = .ok nodeList → ∀ id ∈ nodeList, id < numPoints

/-! ### What is taken for an id -/

/-- The number that the reader takes from a line, if it takes one. -/
def lineId (line : List Char) : Option ℕ :=
  match readU64 (cStr (trimCopy line)) with
  | none => none
  | some (v, rest) => if trimCopy rest ≠ [] then none else if 2 ^ 32 - 1 < v then none else some v

/-- The value of digits behind a sign, on 64 bits. -/
def signedValue (sign digits : List Char) : ℕ :=
  if sign = ['-'] then (2 ^ 64 - Decimal.value digits) % 2 ^ 64 else Decimal.value digits

/-- A line stands for `v`: up to the first `NUL` it has spaces, perhaps a sign, digits and
blanks, and the value fits 64 bits without the sign and 32 bits with it. -/
def StandsFor (line : List Char) (v : ℕ) : Prop :=
  ∃ spaces sign digits blanks, cStr (trimCopy line) = spaces ++ (sign ++ (digits ++ blanks)) ∧
    (∀ c ∈ spaces, isSpace c = true) ∧ (sign = [] ∨ sign = ['+'] ∨ sign = ['-']) ∧
    digits ≠ [] ∧ (∀ c ∈ digits, c.isDigit = true) ∧ (∀ c ∈ blanks, isBlank c = true) ∧
    Decimal.value digits < 2 ^ 64 ∧ v = signedValue sign digits ∧ v < 2 ^ 32

theorem trimCopy_eq_nil_iff {s : List Char} : trimCopy s = [] ↔ ∀ c ∈ s, isBlank c = true := by
  rw [trimCopy, List.rdropWhile_eq_nil_iff]
  constructor
  · intro h c hc
    by_contra hblank
    have hne : s.dropWhile isBlank ≠ [] := by
      intro hnil
      exact hblank (List.dropWhile_eq_nil_iff.mp hnil c hc)
    have hhead := List.head_dropWhile_not isBlank hne
    rw [h _ (List.head_mem hne)] at hhead
    cases hhead
  · intro h c hc
    exact h c ((List.dropWhile_sublist isBlank).mem hc)

/-- Spaces, a sign and digits are read up to the end of the digits. -/
theorem readU64_append {spaces sign digits rest : List Char}
    (hspaces : ∀ c ∈ spaces, isSpace c = true) (hsign : sign = [] ∨ sign = ['+'] ∨ sign = ['-'])
    (hne : digits ≠ []) (hdigits : ∀ c ∈ digits, c.isDigit = true)
    (hrest : rest.takeWhile Char.isDigit = []) (hlt : Decimal.value digits < 2 ^ 64) :
    readU64 (spaces ++ (sign ++ (digits ++ rest))) = some (signedValue sign digits, rest) := by
  have hdrop : (spaces ++ (sign ++ (digits ++ rest))).dropWhile isSpace =
      sign ++ (digits ++ rest) := by
    rw [List.dropWhile_append_of_pos hspaces]
    rcases hsign with rfl | rfl | rfl
    · obtain ⟨c, cs, rfl⟩ := List.exists_cons_of_ne_nil hne
      have hc := not_isSpace_of_isDigit (hdigits c List.mem_cons_self)
      rw [List.nil_append, List.cons_append, List.dropWhile_cons, if_neg (by simp [hc])]
    · rfl
    · rfl
  have hread : readSign (sign ++ (digits ++ rest)) = (decide (sign = ['-']), digits ++ rest) := by
    rcases hsign with rfl | rfl | rfl
    · obtain ⟨c, cs, rfl⟩ := List.exists_cons_of_ne_nil hne
      exact readSign_cons_of_isDigit (hdigits c List.mem_cons_self) (cs ++ rest)
    · rfl
    · rfl
  have htake : (digits ++ rest).takeWhile Char.isDigit = digits := by
    rw [List.takeWhile_append_of_pos hdigits, hrest, List.append_nil]
  have htail : (digits ++ rest).dropWhile Char.isDigit = rest := by
    have happ := List.takeWhile_append_dropWhile (p := Char.isDigit) (l := digits ++ rest)
    rw [htake] at happ
    exact List.append_cancel_left happ
  rw [readU64, hdrop, hread]
  dsimp only
  rw [htake, htail, if_neg hne]
  rw [Decimal.value] at hlt
  rw [if_neg (Nat.not_le.mpr hlt), signedValue, Decimal.value]
  by_cases hminus : sign = ['-']
  · rw [if_pos hminus, if_pos (decide_eq_true hminus)]
  · rw [if_neg hminus, if_neg (by simpa using hminus)]

theorem exists_of_readU64 {cs rest : List Char} {v : ℕ} (h : readU64 cs = some (v, rest)) :
    ∃ spaces sign digits, cs = spaces ++ (sign ++ (digits ++ rest)) ∧
      (∀ c ∈ spaces, isSpace c = true) ∧ (sign = [] ∨ sign = ['+'] ∨ sign = ['-']) ∧
      digits ≠ [] ∧ (∀ c ∈ digits, c.isDigit = true) ∧ Decimal.value digits < 2 ^ 64 ∧
      v = signedValue sign digits := by
  obtain ⟨sign, hsign, happ, hneg⟩ : ∃ sign, (sign = [] ∨ sign = ['+'] ∨ sign = ['-']) ∧
      cs.dropWhile isSpace = sign ++ (readSign (cs.dropWhile isSpace)).2 ∧
      ((readSign (cs.dropWhile isSpace)).1 = true ↔ sign = ['-']) := by
    cases cs.dropWhile isSpace with
    | nil => exact ⟨[], .inl rfl, rfl, by simp [readSign]⟩
    | cons c cs =>
      rw [readSign]
      split_ifs with hminus hplus
      · exact ⟨['-'], .inr (.inr rfl), by rw [hminus]; rfl, by simp⟩
      · exact ⟨['+'], .inr (.inl rfl), by rw [hplus]; rfl, by decide⟩
      · exact ⟨[], .inl rfl, rfl, by simp⟩
  unfold readU64 at h
  dsimp only at h
  split_ifs at h with hne hlt hsigned
  all_goals
    obtain ⟨rfl, rfl⟩ := Prod.mk.inj (Option.some.inj h)
    refine ⟨cs.takeWhile isSpace, sign, _, ?_, fun c hc => List.mem_takeWhile_imp hc, hsign, hne,
      fun c hc => List.mem_takeWhile_imp hc, Nat.not_le.mp hlt, ?_⟩
    · rw [List.takeWhile_append_dropWhile, ← happ, List.takeWhile_append_dropWhile]
  · rw [signedValue, if_pos (hneg.mp hsigned), Decimal.value]
  · rw [signedValue, if_neg fun hminus => hsigned (hneg.mpr hminus), Decimal.value]

theorem lineId_eq_some_iff {line : List Char} {v : ℕ} :
    lineId line = some v ↔ StandsFor line v := by
  rw [lineId]
  constructor
  · intro h
    cases hread : readU64 (cStr (trimCopy line)) with
    | none =>
      rw [hread] at h
      cases h
    | some r =>
      obtain ⟨w, rest⟩ := r
      rw [hread] at h
      dsimp only at h
      split_ifs at h with hrest hwide
      obtain rfl := Option.some.inj h
      obtain ⟨spaces, sign, digits, he, hspaces, hsign, hne, hdigits, hlt, hw⟩ :=
        exists_of_readU64 hread
      exact ⟨spaces, sign, digits, rest, he, hspaces, hsign, hne, hdigits,
        trimCopy_eq_nil_iff.mp (not_not.mp hrest), hlt, hw, by omega⟩
  · rintro ⟨spaces, sign, digits, blanks, he, hspaces, hsign, hne, hdigits, hblanks, hlt, rfl, hv⟩
    have hrest : blanks.takeWhile Char.isDigit = [] := by
      cases blanks with
      | nil => rfl
      | cons c cs =>
        have hc : c.isDigit = false := by
          by_contra hdigit
          have hblank := hblanks c List.mem_cons_self
          rw [not_isBlank_of_isDigit (by simpa using hdigit)] at hblank
          cases hblank
        rw [List.takeWhile_cons, hc]
        rfl
    rw [he, readU64_append hspaces hsign hne hdigits hrest hlt]
    dsimp only
    rw [if_neg (not_not.mpr (trimCopy_eq_nil_iff.mpr hblanks)), if_neg (by omega)]

theorem lineId_of_plain {line : List Char} (h : Plain line) (hlt : idOf line < 2 ^ 32) :
    lineId line = some (idOf line) := by
  have hempty : ¬ trimCopy [] ≠ [] := not_not.mpr rfl
  rw [idOf] at hlt ⊢
  rw [lineId, cStr_digits h.2, readU64_digits h.2 h.1 (by omega)]
  dsimp only
  rw [if_neg hempty, if_neg (by omega)]

theorem idOf_of_lineId {line : List Char} {v : ℕ} (h : Plain line) (hv : lineId line = some v) :
    idOf line < 2 ^ 32 ∧ v = idOf line := by
  have hempty : ¬ trimCopy [] ≠ [] := not_not.mpr rfl
  rw [idOf]
  by_cases hlt : Decimal.value (trimCopy line) < 2 ^ 64
  · rw [lineId, cStr_digits h.2, readU64_digits h.2 h.1 hlt] at hv
    dsimp only at hv
    rw [if_neg hempty] at hv
    split_ifs at hv with hwide
    exact ⟨by omega, (Option.some.inj hv).symm⟩
  · have hdigits : (trimCopy line).takeWhile Char.isDigit = trimCopy line :=
      List.takeWhile_eq_self_iff.mpr h.2
    have hnone : readU64 (trimCopy line) = none := by
      rw [readU64, dropWhile_eq_self fun c hc => not_isSpace_of_isDigit (h.2 c hc),
        readSign_digits h.2]
      dsimp only
      rw [Decimal.value] at hlt
      rw [hdigits, if_neg h.1, if_pos (Nat.not_lt.mp hlt)]
    rw [lineId, cStr_digits h.2, hnone] at hv
    cases hv

/-! ### The lines that are read -/

theorem readNodeLines_step (k lineNo : ℕ) (line : List Char) (lines : List (List Char))
    {nodeList : List ℕ} (hlen : nodeList.length < k) :
    (isIdLine line = false ∧ readNodeLines k lineNo (line :: lines) nodeList =
        readNodeLines k (lineNo + 1) lines nodeList) ∨
    isIdLine line = true ∧ ((∃ e, lineId line = none ∧
        readNodeLines k lineNo (line :: lines) nodeList = .error e) ∨
      ∃ v, lineId line = some v ∧ readNodeLines k lineNo (line :: lines) nodeList =
        readNodeLines k (lineNo + 1) lines (nodeList ++ [v])) := by
  rw [readNodeLines, if_neg (by omega)]
  dsimp only
  by_cases hskip : trimCopy line = [] ∨ (trimCopy line).head? = some '#'
  · left
    rw [if_pos hskip]
    refine ⟨?_, rfl⟩
    rw [isIdLine, Bool.not_eq_false', Bool.or_eq_true, decide_eq_true_eq, decide_eq_true_eq]
    exact hskip
  · right
    rw [if_neg hskip, lineId]
    refine ⟨by simpa [isIdLine] using hskip, ?_⟩
    cases readU64 (cStr (trimCopy line)) with
    | none => exact .inl ⟨_, rfl, rfl⟩
    | some r =>
      dsimp only
      split_ifs with hrest hwide
      · exact .inl ⟨_, rfl, rfl⟩
      · exact .inl ⟨_, rfl, rfl⟩
      · exact .inr ⟨_, rfl, rfl⟩

/-- The reader takes the numbers of the first lines with ids, as many as are left to read. -/
theorem readNodeLines_eq_ok_iff {k : ℕ} (lineNo : ℕ) (lines : List (List Char))
    {nodeList : List ℕ} (hlen : nodeList.length ≤ k) (r : List ℕ) :
    readNodeLines k lineNo lines nodeList = .ok r ↔
      ∃ ids : List ℕ, ((lines.filter isIdLine).take (k - nodeList.length)).map lineId =
        ids.map some ∧ r = nodeList ++ ids := by
  induction lines generalizing lineNo nodeList with
  | nil =>
    rw [readNodeLines, List.filter_nil, List.take_nil, List.map_nil, Except.ok.injEq]
    constructor
    · rintro rfl
      exact ⟨[], rfl, (List.append_nil _).symm⟩
    · rintro ⟨ids, hids, rfl⟩
      rw [List.map_eq_nil_iff.mp hids.symm, List.append_nil]
  | cons line lines ih =>
    rcases hlen.eq_or_lt with hfull | hlt
    · rw [readNodeLines, if_pos hfull.ge, hfull, Nat.sub_self, List.take_zero, List.map_nil,
        Except.ok.injEq]
      constructor
      · rintro rfl
        exact ⟨[], rfl, (List.append_nil _).symm⟩
      · rintro ⟨ids, hids, rfl⟩
        rw [List.map_eq_nil_iff.mp hids.symm, List.append_nil]
    · obtain ⟨m, hm⟩ : ∃ m, k - nodeList.length = m + 1 := ⟨k - nodeList.length - 1, by omega⟩
      rcases readNodeLines_step k lineNo line lines hlt with
        ⟨hskip, he⟩ | ⟨hid, ⟨e, hnone, he⟩ | ⟨v, hsome, he⟩⟩
      · rw [he, List.filter_cons_of_neg (by simp [hskip])]
        exact ih (lineNo + 1) hlen
      · rw [he, List.filter_cons_of_pos hid, hm, List.take_succ_cons, List.map_cons, hnone]
        constructor
        · intro h
          cases h
        · rintro ⟨ids, hids, -⟩
          cases ids <;> cases hids
      · have hlen' : (nodeList ++ [v]).length = nodeList.length + 1 := List.length_append
        rw [he, ih (lineNo + 1) (by omega), show k - (nodeList ++ [v]).length = m by omega,
          List.filter_cons_of_pos hid, hm, List.take_succ_cons, List.map_cons, hsome]
        constructor
        · rintro ⟨ids, hids, rfl⟩
          exact ⟨v :: ids, by rw [hids, List.map_cons], by rw [List.append_assoc]; rfl⟩
        · rintro ⟨ids, hids, rfl⟩
          cases ids with
          | nil => cases hids
          | cons id ids =>
            rw [List.map_cons, List.cons.injEq, Option.some.injEq] at hids
            obtain ⟨rfl, hids⟩ := hids
            exact ⟨ids, hids, by rw [List.append_assoc]; rfl⟩

theorem readNodeListFromTxt_eq_ok_iff (text : List Char) (k : ℕ) (r : List ℕ) :
    readNodeListFromTxt (some text) k = .ok r ↔
      k ≤ (idLines text).length ∧ ((idLines text).take k).map lineId = r.map some := by
  rw [readNodeListFromTxt]
  rcases Nat.eq_zero_or_pos k with rfl | hk
  · rw [if_pos rfl, Except.ok.injEq, List.take_zero, List.map_nil]
    constructor
    · rintro rfl
      exact ⟨Nat.zero_le _, rfl⟩
    · rintro ⟨-, h⟩
      exact (List.map_eq_nil_iff.mp h.symm).symm
  rw [if_neg (by omega)]
  have hread := readNodeLines_eq_ok_iff 0 (getlines text)
    (show ([] : List ℕ).length ≤ k from Nat.zero_le k)
  have hlines : (getlines text).filter isIdLine = idLines text := rfl
  simp only [List.length_nil, Nat.sub_zero, List.nil_append, hlines] at hread
  have hlen : ∀ ids : List ℕ, ((idLines text).take k).map lineId = ids.map some →
      ids.length = min k (idLines text).length := by
    intro ids hids
    have h := congrArg List.length hids
    rw [List.length_map, List.length_map, List.length_take] at h
    exact h.symm
  cases hr : readNodeLines k 0 (getlines text) [] with
  | error e =>
    constructor
    · intro h
      cases h
    · rintro ⟨-, hids⟩
      rw [(hread r).mpr ⟨r, hids, rfl⟩] at hr
      cases hr
  | ok ids =>
    obtain ⟨_, hids, rfl⟩ := (hread ids).mp hr
    dsimp only
    by_cases hall : ids.length ≠ k
    · rw [if_pos hall]
      constructor
      · intro h
        cases h
      · rintro ⟨hk', -⟩
        rw [hlen ids hids, min_eq_left hk'] at hall
        exact absurd rfl hall
    · rw [if_neg hall, Except.ok.injEq]
      have := hlen ids hids
      constructor
      · rintro rfl
        exact ⟨by omega, hids⟩
      · rintro ⟨-, hr⟩
        exact List.map_injective_iff.mpr (Option.some_injective _) (hids.symm.trans hr)

/-! ### When the check is exact and enough -/

/-- The file is read: there are enough lines with ids, and the first ones stand for numbers. -/
def Readable (text : List Char) (k : ℕ) : Prop :=
  k ≤ (idLines text).length ∧ ∀ line ∈ (idLines text).take k, ∃ v, StandsFor line v

theorem readable_iff (text : List Char) (k : ℕ) :
    Readable text k ↔ ∃ r, readNodeListFromTxt (some text) k = .ok r := by
  simp only [readNodeListFromTxt_eq_ok_iff, Readable, ← lineId_eq_some_iff]
  constructor
  · rintro ⟨hk, h⟩
    refine ⟨((idLines text).take k).map fun line => (lineId line).getD 0, hk, ?_⟩
    rw [List.map_map]
    apply List.map_congr_left
    intro line hline
    obtain ⟨v, hv⟩ := h line hline
    rw [Function.comp_apply, hv, Option.getD_some]
  · rintro ⟨r, hk, h⟩
    refine ⟨hk, fun line hline => ?_⟩
    have hmem : lineId line ∈ r.map some := h ▸ List.mem_map_of_mem hline
    obtain ⟨v, -, hv⟩ := List.mem_map.mp hmem
    exact ⟨v, hv.symm⟩

theorem read_of_wellFormed {text : List Char} {k : ℕ} (h : WellFormed text k) :
    readNodeListFromTxt (some text) k = .ok (((idLines text).take k).map idOf) := by
  rw [readNodeListFromTxt_eq_ok_iff, List.map_map]
  refine ⟨h.1, List.map_congr_left fun line hline => ?_⟩
  exact lineId_of_plain (h.2 line hline).1 (h.2 line hline).2

theorem wellFormed_of_read {text : List Char} {k : ℕ} {r : List ℕ}
    (hread : readNodeListFromTxt (some text) k = .ok r)
    (hplain : ∀ line ∈ (idLines text).take k, Plain line) : WellFormed text k := by
  obtain ⟨hk, hids⟩ := (readNodeListFromTxt_eq_ok_iff text k r).mp hread
  refine ⟨hk, fun line hline => ⟨hplain line hline, ?_⟩⟩
  have hmem : lineId line ∈ r.map some := hids ▸ List.mem_map_of_mem hline
  obtain ⟨v, -, hv⟩ := List.mem_map.mp hmem
  exact (idOf_of_lineId (hplain line hline) hv.symm).1

/-- The check of a cache file is exact and enough if and only if, wherever the file is
read, its ids have digits only and are points of the index. -/
theorem cacheFile_checked_iff (text : List Char) (k numPoints : ℕ) :
    ReadsExactly text k ∧ InBounds text k numPoints ↔
      (Readable text k → ∀ line ∈ (idLines text).take k, Plain line ∧ idOf line < numPoints) := by
  rw [readable_iff]
  constructor
  · rintro ⟨hexact, hbounds⟩ ⟨r, hr⟩ line hline
    obtain ⟨hwell, rfl⟩ := (hexact r).mp hr
    exact ⟨(hwell.2 line hline).1, hbounds _ hr _ (List.mem_map_of_mem hline)⟩
  · intro h
    have hread : ∀ r, readNodeListFromTxt (some text) k = .ok r →
        WellFormed text k ∧ r = ((idLines text).take k).map idOf := by
      intro r hr
      have hwell := wellFormed_of_read hr fun line hline => (h ⟨r, hr⟩ line hline).1
      have heq := read_of_wellFormed hwell
      rw [hr] at heq
      exact ⟨hwell, Except.ok.inj heq⟩
    constructor
    · intro r
      refine ⟨hread r, ?_⟩
      rintro ⟨hwell, rfl⟩
      exact read_of_wellFormed hwell
    · intro r hr id hid
      obtain ⟨-, rfl⟩ := hread r hr
      obtain ⟨line, hline, rfl⟩ := List.mem_map.mp hid
      exact (h ⟨_, hr⟩ line hline).2

/-- A cache loaded from a file that is read exactly and within bounds answers for its ids. -/
theorem loadCacheFile_loadedFrom {g : GraphSource} {file : List UInt8} {text : List Char}
    {k numPoints : ℕ} {env : CacheEnv} {cacheTxt : String} {c : Cache} (hN : numPoints < 2 ^ 32)
    (hk : 0 < k) (hexact : ReadsExactly text k) (hbounds : InBounds text k numPoints)
    (hload : loadCacheFile g file numPoints env cacheTxt (some text) k = .ok c) :
    c.LoadedFrom (g.onDisk file) (((idLines text).take k).map idOf) := by
  unfold loadCacheFile at hload
  cases hread : readNodeListFromTxt (some text) k with
  | error e =>
    rw [hread] at hload
    cases hload
  | ok r =>
    rw [hread] at hload
    obtain ⟨hwell, rfl⟩ := (hexact r).mp hread
    have hne : ((idLines text).take k).map idOf ≠ [] := by
      have hlen := hwell.1
      rw [← List.length_pos_iff, List.length_map, List.length_take]
      omega
    have hholds := holds_of_loadCacheList_eq hN hne (hbounds _ hread) hload
    obtain ⟨hcached, hslice, hlt⟩ := hholds.loadedFrom hN
    exact ⟨fun id => (hcached id).trans (List.mem_insertionSort _), hslice, hlt⟩

def negatedLine : List Char :=
  ['-', '1', '8', '4', '4', '6', '7', '4', '4', '0', '7', '3', '7', '0', '9', '5', '5', '1', '6', '1',
    '5', '\n']

/-- A negated number is read as an id, and so is one that is no point of the index. -/
theorem negatedLine_read :
    (readNodeListFromTxt (some negatedLine) 1 = .ok [1] ∧ ¬ ReadsExactly negatedLine 1) ∧
    readNodeListFromTxt (some ['1', '\n']) 1 = .ok [1] ∧ ¬ InBounds ['1', '\n'] 1 1 := by
  refine ⟨⟨rfl, fun h => ?_⟩, rfl, fun h => absurd (h [1] rfl 1 List.mem_cons_self) (by decide)⟩
  have hwell := ((h [1]).mp rfl).1
  have hplain := (hwell.2 _ List.mem_cons_self).1.2 '-'
  exact absurd (hplain (by decide)) (by decide)

end HiDANN.Search
