import Mathlib

/-!
# Texts, their bytes and their slices

A text is a list of characters. Slices are taken at byte positions, and fail where a position is not between two
characters (`dropBytes`, `takeBytes`, `slice`). White space is Unicode's, letter case is ASCII's. `bytes` are those of
UTF-8.
-/

namespace Text

theorem lawfulBEq_chars : LawfulBEq (List Char) := inferInstance

/-- Unicode's `White_Space`. -/
def isWhitespace (c : Char) : Bool :=
  let n := c.toNat
  (0x9 ≤ n && n ≤ 0xD) || n == 0x20 || n == 0x85 || n == 0xA0 || n == 0x1680 || (0x2000 ≤ n && n ≤ 0x200A) ||
    n == 0x2028 || n == 0x2029 || n == 0x202F || n == 0x205F || n == 0x3000

def trim (s : List Char) : List Char := ((s.dropWhile isWhitespace).reverse.dropWhile isWhitespace).reverse

/-- The text without a character at its ends. -/
def trimMatches (c : Char) (s : List Char) : List Char := (s.dropWhile (· = c)).rdropWhile (· = c)

/-- The words between white space. -/
def splitWhitespace (s : List Char) : List (List Char) := (s.splitOnP isWhitespace).filter (· ≠ [])

/-- A number below `2 ^ w` in decimal digits, after an optional plus sign. -/
def parseUnsigned (w : ℕ) (s : List Char) : Option ℕ :=
  let digits : List Char := match s with
    | '+' :: digits => digits
    | digits => digits
  let n := Nat.ofDigitChars 10 digits 0
  if digits ≠ [] ∧ digits.all Char.isDigit ∧ n < 2 ^ w then some n else none

/-- The sign and the digits of a signed number. -/
def splitSign : List Char → Bool × List Char
  | '-' :: digits => (true, digits)
  | '+' :: digits => (false, digits)
  | digits => (false, digits)

/-- The value of a signed number. -/
def intValue (s : List Char) : ℤ :=
  let n : ℤ := Nat.ofDigitChars 10 (splitSign s).2 0
  if (splitSign s).1 then -n else n

/-- A number of 64 bits in decimal digits, after an optional sign. -/
def parseI64 (s : List Char) : Option Int64 :=
  if (splitSign s).2 ≠ [] ∧ (splitSign s).2.all Char.isDigit ∧ -2 ^ 63 ≤ intValue s ∧ intValue s < 2 ^ 63 then
    some (Int64.ofInt (intValue s))
  else none

/-- Decimal digits, after a minus sign for a negative number. -/
def showInt (n : ℤ) : List Char := if n < 0 then '-' :: Nat.toDigits 10 n.natAbs else Nat.toDigits 10 n.natAbs

theorem all_isDigit_toDigits (n : ℕ) : (Nat.toDigits 10 n).all Char.isDigit = true :=
  List.all_eq_true.2 fun _ hc => Nat.isDigit_of_mem_toDigits (by decide) (by decide) hc

theorem not_mem_digits {c : Char} (hc : c.isDigit = false) (n : ℕ) : c ∉ Nat.toDigits 10 n := by
  intro hmem
  rw [List.all_eq_true.1 (all_isDigit_toDigits n) c hmem] at hc
  cases hc

theorem isWhitespace_digit {c : Char} (h : c.isDigit = true) : isWhitespace c = false := by
  simp only [Char.isDigit, UInt32.le_iff_toNat_le, ge_iff_le, Bool.and_eq_true, decide_eq_true_eq] at h
  have hval : 48 ≤ c.toNat ∧ c.toNat ≤ 57 := h
  simp [isWhitespace]
  omega

/-- A number is digits, after an optional plus sign. -/
theorem parseUnsigned_eq_none {w : ℕ} {s : List Char} {c : Char} (hc : c.isDigit = false) (hplus : c ≠ '+')
    (h : c ∈ s) : parseUnsigned w s = none := by
  have hnot : ∀ digits : List Char, c ∈ digits → ¬ digits.all Char.isDigit = true := by
    intro digits hmem hall
    rw [List.all_eq_true.1 hall c hmem] at hc
    cases hc
  unfold parseUnsigned
  split
  · exact if_neg fun hall => hnot _ ((List.mem_cons.1 h).resolve_left hplus) hall.2.1
  · exact if_neg fun hall => hnot _ h hall.2.1

theorem parseUnsigned_toDigits {w n : ℕ} (h : n < 2 ^ w) : parseUnsigned w (Nat.toDigits 10 n) = some n := by
  unfold parseUnsigned
  split
  · rename_i heq
    exact absurd (heq ▸ List.mem_cons_self) (not_mem_digits (c := '+') rfl n)
  · dsimp only
    rw [Nat.ofDigitChars_ten_toDigits]
    exact if_pos ⟨Nat.toDigits_ne_nil, all_isDigit_toDigits n, h⟩

theorem splitSign_digits {s : List Char} (h : s.all Char.isDigit = true) : splitSign s = (false, s) := by
  unfold splitSign
  split
  · exact absurd h (by simp [Char.isDigit])
  · exact absurd h (by simp [Char.isDigit])
  · rfl

theorem splitSign_showInt (n : ℤ) : splitSign (showInt n) = (decide (n < 0), Nat.toDigits 10 n.natAbs) := by
  unfold showInt
  split_ifs with h
  · simp [splitSign, h]
  · rw [splitSign_digits (all_isDigit_toDigits _), decide_eq_false h]

theorem intValue_showInt (n : ℤ) : intValue (showInt n) = n := by
  simp only [intValue, splitSign_showInt, Nat.ofDigitChars_ten_toDigits, decide_eq_true_eq]
  split_ifs <;> omega

/-- **A printed number is read back.** -/
theorem parseI64_showInt (n : Int64) : parseI64 (showInt n.toInt) = some n := by
  unfold parseI64
  simp only [splitSign_showInt, intValue_showInt]
  rw [if_pos ⟨Nat.toDigits_ne_nil, all_isDigit_toDigits _, n.le_toInt, n.toInt_lt⟩, Int64.ofInt_toInt]

/-- The parts of a list between separators do not contain the separator. -/
theorem not_mem_of_mem_splitOn {α : Type*} [DecidableEq α] {a : α} {xs l : List α} (h : l ∈ xs.splitOn a) : a ∉ l := by
  induction xs generalizing l with
  | nil =>
    rw [List.splitOn_nil, List.mem_singleton] at h
    simp [h]
  | cons x xs ih =>
    rw [List.splitOn_cons_eq_if_modifyHead] at h
    split_ifs at h with hx
    · rcases List.mem_cons.1 h with rfl | h
      · exact List.not_mem_nil
      · exact ih h
    · cases hs : xs.splitOn a with
      | nil => exact absurd hs (List.splitOn_ne_nil a xs)
      | cons y ys =>
        rw [hs, List.modifyHead_cons] at h
        rcases List.mem_cons.1 h with rfl | h
        · have hy : a ∉ y := ih (by simp [hs])
          rw [List.mem_cons, not_or]
          exact ⟨fun heq => hx (by simp [heq]), hy⟩
        · exact ih (by simp [hs, h])

/-- Joined parts are split again exactly if none has the separator. -/
theorem splitOn_intercalate_iff {α : Type*} [DecidableEq α] {a : α} {ls : List (List α)} (hne : ls ≠ []) :
    ([a].intercalate ls).splitOn a = ls ↔ ∀ l ∈ ls, a ∉ l := by
  refine ⟨fun h l hl => ?_, fun h => List.splitOn_intercalate a h hne⟩
  rw [← h] at hl
  exact not_mem_of_mem_splitOn hl

/-- The text with a text in the place of each occurrence of a character. -/
def replaceChar (c : Char) (t s : List Char) : List Char := s.flatMap fun d => if d = c then t else [d]

def bytes (s : List Char) : List UInt8 := s.flatMap String.utf8EncodeChar

def byteLength (s : List Char) : ℕ := (s.map Char.utf8Size).sum

/-- The text from a byte position on. -/
def dropBytes : List Char → ℕ → Option (List Char)
  | s, 0 => some s
  | [], _ + 1 => none
  | c :: s, n + 1 => if c.utf8Size ≤ n + 1 then dropBytes s (n + 1 - c.utf8Size) else none

/-- The text up to a byte position. -/
def takeBytes : List Char → ℕ → Option (List Char)
  | _, 0 => some []
  | [], _ + 1 => none
  | c :: s, n + 1 => if c.utf8Size ≤ n + 1 then (takeBytes s (n + 1 - c.utf8Size)).map (c :: ·) else none

/-- The text between two byte positions. -/
def slice (s : List Char) (first last : ℕ) : Option (List Char) :=
  if last < first then none else (dropBytes s first).bind (takeBytes · (last - first))

/-- One character after the other; `skip` of them belong to an occurrence that is left out. -/
def removeFrom (pattern : List Char) : List Char → ℕ → List Char
  | [], _ => []
  | _ :: s, skip + 1 => removeFrom pattern s skip
  | c :: s, 0 => if pattern.isPrefixOf (c :: s) then removeFrom pattern s (pattern.length - 1)
    else c :: removeFrom pattern s 0

/-- The text without the occurrences of a pattern, from left to right. -/
def remove (pattern s : String) : String := String.ofList (removeFrom pattern.toList s.toList 0)

/-- The pattern occurs in the text, but for the case of ASCII letters. -/
def occurs (pattern text : String) : Bool := decide (pattern.toList.map Char.toLower <:+: text.toList.map Char.toLower)

/-! ## The first and the last of a character -/

theorem find_first {p : Char → Bool} {c : Char} (hp : ∀ d, p d = true ↔ d = c) {s : List Char} {i : ℕ} :
    s.findIdx? p = some i ↔ ∃ a b, s = a ++ c :: b ∧ c ∉ a ∧ a.length = i := by
  induction s generalizing i with
  | nil => exact iff_of_false nofun fun ⟨a, b, h, _⟩ => by simp at h
  | cons d s ih =>
    rw [List.findIdx?_cons]
    by_cases hd : d = c
    · rw [if_pos ((hp d).2 hd), Option.some_inj]
      constructor
      · rintro rfl
        exact ⟨[], s, by rw [hd]; rfl, List.not_mem_nil, rfl⟩
      · rintro ⟨a, b, hsplit, hnot, rfl⟩
        cases a with
        | nil => rfl
        | cons e a => exact absurd (List.mem_cons.2 (Or.inl (hd ▸ (List.cons.inj hsplit).1))) hnot
    · rw [if_neg fun h => hd ((hp d).1 h)]
      constructor
      · intro h
        obtain ⟨j, hj, rfl⟩ := Option.map_eq_some_iff.1 h
        obtain ⟨a, b, rfl, hnot, rfl⟩ := ih.1 hj
        exact ⟨d :: a, b, rfl, List.not_mem_cons_of_ne_of_not_mem (Ne.symm hd) hnot, rfl⟩
      · rintro ⟨a, b, hsplit, hnot, rfl⟩
        cases a with
        | nil => exact absurd (List.cons.inj hsplit).1 hd
        | cons e a =>
          obtain ⟨rfl, rfl⟩ := List.cons.inj hsplit
          exact Option.map_eq_some_iff.2 ⟨a.length, ih.2 ⟨a, b, rfl, fun h => hnot (List.mem_cons_of_mem _ h), rfl⟩, rfl⟩

theorem find_last {p : Char → Bool} {c : Char} (hp : ∀ d, p d = true ↔ d = c) {s : List Char} {i : ℕ} :
    s.reverse.findIdx? p = some i ↔ ∃ a b, s = a ++ c :: b ∧ c ∉ b ∧ b.length = i := by
  rw [find_first hp]
  constructor
  · rintro ⟨b, a, hsplit, hnot, rfl⟩
    refine ⟨a.reverse, b.reverse, ?_, fun h => hnot (List.mem_reverse.1 h), List.length_reverse⟩
    rw [← List.reverse_reverse s, hsplit]
    simp
  · rintro ⟨a, b, rfl, hnot, rfl⟩
    exact ⟨b.reverse, a.reverse, by simp, fun h => hnot (List.mem_reverse.1 h), List.length_reverse⟩

end Text
