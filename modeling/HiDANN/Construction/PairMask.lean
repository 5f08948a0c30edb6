import Mathlib.Algebra.Order.Ring.Nat
import Mathlib.Data.Nat.Basic
import Mathlib.Logic.Function.Basic

/-! The allowlist of partition pairs. A file names one pair on a line; blank lines
and lines that start with `#` are passed over, and any other line has to start
with two numbers below the number of partitions, not equal. A pair is selected
when it is listed in either orientation, however often and wherever. -/

namespace HiDANN.Construction

/-! ### Reading the file -/

/-- `std::getline` until the end of the stream. -/
def getlines : List Char → List (List Char)
  | [] => []
  | c :: cs =>
    if c.toNat = 10 then [] :: getlines cs
    else match getlines cs with
      | [] => [[c]]
      | line :: lines => (c :: line) :: lines

def isSpace (c : Char) : Bool := c.toNat = 32 || (9 ≤ c.toNat && c.toNat ≤ 13)

def readSign : List Char → Bool × List Char
  | [] => (false, [])
  | c :: cs =>
    if c = '-' then (true, cs)
    else if c = '+' then (false, cs)
    else (false, c :: cs)

/-- `ss >> x` for a 64-bit unsigned `x`: the number and what is left, `none` when
there are no digits or too many; a negated number wraps around. -/
def readU64 (cs : List Char) : Option (ℕ × List Char) :=
  let (neg, cs) := readSign (cs.dropWhile isSpace)
  let digits := cs.takeWhile Char.isDigit
  let n := digits.foldl (fun n c => 10 * n + (c.toNat - 48)) 0
  if digits = [] then none
  else if 2 ^ 64 ≤ n then none
  else some (if neg then (2 ^ 64 - n) % 2 ^ 64 else n, cs.dropWhile Char.isDigit)

/-- What a line holds: nothing of interest, two numbers, or `none` for neither. -/
def parseLine (line : List Char) : Option (Option (ℕ × ℕ)) :=
  if line = [] ∨ line.head? = some '#' then some none
  else match readU64 line with
    | none => none
    | some (x, rest) => match readU64 rest with
      | none => none
      | some (y, _) => some (some (x, y))

/-! ### The mask -/

/-- `selected` is a `P` by `P` table in row order. -/
structure CrossPairMask where
  enabled : Bool
  selectedPairs : ℕ
  selected : ℕ → Bool

/-- A file named on the command line, with its text when it can be opened. -/
structure PairsFile where
  path : String
  text : Option (List Char)

def CrossPairMask.select (mask : CrossPairMask) (P x y : ℕ) : CrossPairMask :=
  let idx := min x y * P + max x y
  if mask.selected idx then mask
  else { mask with
    selected := Function.update mask.selected idx true
    selectedPairs := (mask.selectedPairs + 1) % 2 ^ 64 }

def loadLines (P : ℕ) : ℕ → List (List Char) → CrossPairMask → Except String CrossPairMask
  | _, [], mask => .ok mask
  | lineNo, line :: lines, mask =>
    match parseLine line with
    | none =>
      .error ("bad cross pairs file line " ++ toString (lineNo + 1) ++ ": " ++ String.ofList line)
    | some none => loadLines P (lineNo + 1) lines mask
    | some (some (x, y)) =>
      if P ≤ x ∨ P ≤ y ∨ x = y then
        .error ("invalid cross pair at line " ++ toString (lineNo + 1) ++ ": (" ++ toString x ++
          "," ++ toString y ++ ") for P=" ++ toString P)
      else loadLines P (lineNo + 1) lines (mask.select P x y)

def loadCrossPairMask (P : ℕ) : Option PairsFile → Except String CrossPairMask
  | none => .ok ⟨false, 0, fun _ => false⟩
  | some file => match file.text with
    | none => .error ("open cross pairs file: " ++ file.path)
    | some text => loadLines P 0 (getlines text) ⟨true, 0, fun _ => false⟩

def crossPairSelected (mask : CrossPairMask) (P i j : ℕ) : Bool :=
  if !mask.enabled then true
  else if i = j then false
  else mask.selected (min i j * P + max i j)

/-! ### What is selected -/

/-- A line of the text names the pair, in one of its orientations. -/
def Names (lines : List (List Char)) (i j : ℕ) : Prop :=
  ∃ line ∈ lines, parseLine line = some (some (i, j)) ∨ parseLine line = some (some (j, i))

instance (lines : List (List Char)) (i j : ℕ) : Decidable (Names lines i j) :=
  inferInstanceAs (Decidable (∃ line ∈ lines,
    parseLine line = some (some (i, j)) ∨ parseLine line = some (some (j, i))))

/-- The pairs a file allows; without a file all of them. -/
def Allows : Option PairsFile → ℕ → ℕ → Prop
  | none, _, _ => True
  | some file, i, j => ∃ text, file.text = some text ∧ Names (getlines text) i j

instance : ∀ (file : Option PairsFile) (i j : ℕ), Decidable (Allows file i j)
  | none, _, _ => .isTrue trivial
  | some ⟨_, none⟩, _, _ => .isFalse fun ⟨_, h, _⟩ => Option.some_ne_none _ h.symm
  | some ⟨_, some text⟩, i, j => decidable_of_iff (Names (getlines text) i j)
      ⟨fun h => ⟨text, rfl, h⟩, fun ⟨_, h, hn⟩ => Option.some.inj h ▸ hn⟩

theorem Names.symm {lines : List (List Char)} {i j : ℕ} (h : Names lines i j) : Names lines j i := by
  obtain ⟨line, hl, h⟩ := h
  exact ⟨line, hl, h.symm⟩

theorem allows_comm (file : Option PairsFile) (i j : ℕ) : Allows file i j ↔ Allows file j i := by
  cases file with
  | none => exact Iff.rfl
  | some file =>
    constructor
    · rintro ⟨text, ht, h⟩
      exact ⟨text, ht, h.symm⟩
    · rintro ⟨text, ht, h⟩
      exact ⟨text, ht, h.symm⟩

theorem index_inj {P i j x y : ℕ} (hj : j < P) (hy : y < P) :
    i * P + j = x * P + y ↔ i = x ∧ j = y := by
  constructor
  · intro h
    have hP : 0 < P := by omega
    have hi : (i * P + j) / P = i := by
      rw [Nat.add_comm, Nat.add_mul_div_right _ _ hP, Nat.div_eq_of_lt hj, Nat.zero_add]
    have hx : (x * P + y) / P = x := by
      rw [Nat.add_comm, Nat.add_mul_div_right _ _ hP, Nat.div_eq_of_lt hy, Nat.zero_add]
    have hix : i = x := by rw [← hi, h, hx]
    subst hix
    exact ⟨rfl, by omega⟩
  · rintro ⟨rfl, rfl⟩
    rfl

theorem min_max_eq {i j x y : ℕ} : min i j = min x y ∧ max i j = max x y ↔
    i = x ∧ j = y ∨ i = y ∧ j = x := by omega

theorem select_selected {mask : CrossPairMask} {P x y i j : ℕ} (hx : x < P) (hy : y < P)
    (hi : i < P) (hj : j < P) :
    (mask.select P x y).selected (min i j * P + max i j) = true ↔
      (i = x ∧ j = y ∨ i = y ∧ j = x) ∨ mask.selected (min i j * P + max i j) = true := by
  have hidx := index_inj (P := P) (i := min i j) (x := min x y) (j := max i j) (y := max x y)
    (by omega) (by omega)
  rw [min_max_eq] at hidx
  rw [← hidx, CrossPairMask.select]
  by_cases he : min i j * P + max i j = min x y * P + max x y
  · rw [he]
    by_cases hs : mask.selected (min x y * P + max x y) = true <;> simp [hs]
  · by_cases hs : mask.selected (min x y * P + max x y) = true
    · simp [hs, he]
    · simp [hs, he]

theorem select_enabled (mask : CrossPairMask) (P x y : ℕ) :
    (mask.select P x y).enabled = mask.enabled := by
  simp only [CrossPairMask.select]
  split_ifs <;> rfl

theorem loadLines_selected {P : ℕ} (lines : List (List Char)) {lineNo : ℕ}
    {mask mask' : CrossPairMask} (h : loadLines P lineNo lines mask = .ok mask') :
    mask'.enabled = mask.enabled ∧ ∀ i < P, ∀ j < P,
      (mask'.selected (min i j * P + max i j) = true ↔
        Names lines i j ∨ mask.selected (min i j * P + max i j) = true) := by
  induction lines generalizing lineNo mask with
  | nil =>
    cases h
    exact ⟨rfl, fun i _ j _ => by simp [Names]⟩
  | cons line lines ih =>
    have hnames : ∀ i j, Names (line :: lines) i j ↔ (parseLine line = some (some (i, j)) ∨
        parseLine line = some (some (j, i))) ∨ Names lines i j := by
      intro i j
      simp [Names]
    rw [loadLines] at h
    cases hp : parseLine line with
    | none => rw [hp] at h; cases h
    | some pair =>
      cases pair with
      | none =>
        rw [hp] at h
        obtain ⟨he, hs⟩ := ih h
        refine ⟨he, fun i hi j hj => ?_⟩
        rw [hs i hi j hj, hnames, hp]
        simp
      | some xy =>
        obtain ⟨x, y⟩ := xy
        rw [hp] at h
        simp only at h
        split_ifs at h with hbad
        obtain ⟨he, hs⟩ := ih h
        refine ⟨he.trans (select_enabled _ _ _ _), fun i hi j hj => ?_⟩
        rw [hs i hi j hj, select_selected (by omega) (by omega) hi hj, hnames, hp]
        simp only [Option.some.injEq, Prod.mk.injEq]
        have h1 : x = i ∧ y = j ↔ i = x ∧ j = y := by omega
        have h2 : x = j ∧ y = i ↔ i = y ∧ j = x := by omega
        rw [h1, h2, or_left_comm, ← or_assoc]

/-- A pair of different partitions is selected exactly when the file allows it. -/
theorem crossPairSelected_iff {P : ℕ} {file : Option PairsFile} {mask : CrossPairMask}
    (h : loadCrossPairMask P file = .ok mask) {i j : ℕ} (hi : i < P) (hj : j < P) (hij : i ≠ j) :
    crossPairSelected mask P i j = true ↔ Allows file i j := by
  cases file with
  | none =>
    cases h
    simp [crossPairSelected, Allows]
  | some file =>
    rw [loadCrossPairMask] at h
    cases ht : file.text with
    | none => rw [ht] at h; cases h
    | some text =>
      rw [ht] at h
      obtain ⟨he, hs⟩ := loadLines_selected _ h
      have hen : mask.enabled = true := he
      rw [crossPairSelected, hen, if_neg (by simp), if_neg hij, hs i hi j hj]
      simp [Allows, ht]

theorem crossPairSelected_comm (mask : CrossPairMask) (P i j : ℕ) :
    crossPairSelected mask P i j = crossPairSelected mask P j i := by
  simp only [crossPairSelected, min_comm i j, max_comm i j, eq_comm (a := i)]

end HiDANN.Construction
