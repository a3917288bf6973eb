import Mathlib
import ThorFirewall.Lib.Scanner
import ThorFirewall.Lib.Text

/-!
# The tokens of ThorQL (`forensics/thorql/parser.rs`)

The tokenizer skips white space and reads the longest word, number, string or symbol. Words are keywords in upper and
lower case. Texts are lists of characters. The Unicode tables and the floating-point numbers are parameters (`Lexis`).

- `Lexed`: how a text is written as a sequence of lexemes; without `lax`, integers are those of 64 bits;
- `tokenize_iff`: the tokens are those of the lexemes.
-/

namespace ThorFirewall.Thorql

open Text

/-! ## Tokens -/

/-- The tables of the standard library, which are known on ASCII, and its floating-point numbers. -/
structure Lexis (F : Type*) where
  isAlphabetic : Char → Bool
  isNumeric : Char → Bool
  toUppercase : List Char → List Char
  parseFloat : List Char → F
  alphabetic_ascii : ∀ c, c.toNat < 128 → isAlphabetic c = c.isAlpha
  numeric_ascii : ∀ c, c.toNat < 128 → isNumeric c = c.isDigit
  toUppercase_ascii : ∀ s : List Char, (∀ c ∈ s, c.toNat < 128) → toUppercase s = s.map Char.toUpper
  alphabetic_visible : ∀ c, isAlphabetic c = true → isWhitespace c = false

inductive Token (F : Type*)
  | select
  | from
  | join
  | on
  | where
  | and
  | or
  | not
  | like
  | star
  | comma
  | lparen
  | rparen
  | dot
  | eq
  | notEq
  | gt
  | lt
  | gte
  | lte
  | ident (name : List Char)
  | strLit (s : List Char)
  | intLit (n : Int64)
  | floatLit (x : F)
  | eof
  deriving DecidableEq

inductive ParseError (F : Type*)
  | unterminatedString
  | unterminatedEscape
  | unexpectedChar (c : Char) (pos : ℕ)
  | expected (expected found : Token F)
  | expectedIdentifier (got : Token F)
  | expectedColumn (got : Token F)
  | expectedTable (got : Token F)
  | unclosedParen
  | emptyColumnList
  | expectedLike
  | expectedOperator (got : Token F)
  | expectedLiteral (got : Token F)
  /-- Not an error of the source. -/
  | outOfFuel
  deriving DecidableEq

variable {F : Type*}

/-- The message of an error. `debug` is the text of a token. -/
def ParseError.message (debug : Token F → String) : ParseError F → String
  | unterminatedString => "Unterminated string literal"
  | unterminatedEscape => "Unterminated escape"
  | unexpectedChar c pos => "Unexpected '" ++ c.toString ++ "' at pos " ++ toString pos
  | expected t found => "Expected " ++ debug t ++ " but found " ++ debug found
  | expectedIdentifier got => "Expected identifier, got " ++ debug got
  | expectedColumn got => "Expected column after '.', got " ++ debug got
  | expectedTable got => "Expected table name, got " ++ debug got
  | unclosedParen => "Unclosed '(' in table name"
  | emptyColumnList => "Empty column list"
  | expectedLike => "Expected LIKE after NOT"
  | expectedOperator got => "Expected operator, got " ++ debug got
  | expectedLiteral got => "Expected literal value, got " ++ debug got
  | outOfFuel => ""

/-! ## The tokenizer -/

namespace Lexis

variable (L : Lexis F)

def wordStart (c : Char) : Bool := L.isAlphabetic c || c = '_'

def wordChar (c : Char) : Bool := L.isAlphabetic c || L.isNumeric c || c = '_'

/-- The keyword, or an identifier. -/
def wordToken (word : List Char) : Token F :=
  let upper := L.toUppercase word
  if upper = "SELECT".toList then .select
  else if upper = "FROM".toList then .from
  else if upper = "JOIN".toList then .join
  else if upper = "ON".toList then .on
  else if upper = "WHERE".toList then .where
  else if upper = "AND".toList then .and
  else if upper = "OR".toList then .or
  else if upper = "NOT".toList then .not
  else if upper = "LIKE".toList then .like
  else .ident word

def readIdentOrKw (first : Char) (s : List Char) : Token F × List Char :=
  (L.wordToken (first :: s.takeWhile L.wordChar), s.dropWhile L.wordChar)

/-- What stands for an escaped character: another one than these keeps its backslash. -/
def escape : Char → List Char
  | '\'' => ['\'']
  | '\\' => ['\\']
  | 'n' => ['\n']
  | 't' => ['\t']
  | c => ['\\', c]

/-- The rest of a string literal, after the opening quote. -/
def readStrLit : List Char → Except (ParseError F) (List Char × List Char)
  | [] => .error .unterminatedString
  | '\'' :: s => .ok ([], s)
  | ['\\'] => .error .unterminatedEscape
  | '\\' :: c :: s => (readStrLit s).map fun p => (escape c ++ p.1, p.2)
  | c :: s => (readStrLit s).map fun p => (c :: p.1, p.2)

/-- A number: a point belongs to it only before a digit. -/
def readNumber (first : Char) (s : List Char) : Token F × List Char :=
  let digits := first :: s.takeWhile Char.isDigit
  match s.dropWhile Char.isDigit with
  | '.' :: d :: rest =>
    if d.isDigit then
      (.floatLit (L.parseFloat (digits ++ '.' :: d :: rest.takeWhile Char.isDigit)), rest.dropWhile Char.isDigit)
    else (.intLit ((parseI64 digits).getD 0), '.' :: d :: rest)
  | rest => (.intLit ((parseI64 digits).getD 0), rest)

/-- A symbol that may go on with an equals sign. -/
def readEq (long short : Token F) : List Char → Token F × List Char
  | '=' :: s => (long, s)
  | s => (short, s)

/-- The token at the start of a text. `length` is that of the whole one, for the position in an error. -/
def readToken (length : ℕ) : List Char → Except (ParseError F) (Token F × List Char)
  | [] => .ok (.eof, [])
  | '*' :: s => .ok (.star, s)
  | ',' :: s => .ok (.comma, s)
  | '(' :: s => .ok (.lparen, s)
  | ')' :: s => .ok (.rparen, s)
  | '.' :: s => .ok (.dot, s)
  | '\'' :: s => (readStrLit s).map fun p => (.strLit p.1, p.2)
  | '=' :: s => .ok (.eq, s)
  | '!' :: s => match s with
    | '=' :: s => .ok (.notEq, s)
    | s => .error (.unexpectedChar '!' (length - s.length))
  | '>' :: s => .ok (readEq .gte .gt s)
  | '<' :: s => .ok (readEq .lte .lt s)
  | c :: s =>
    if L.wordStart c then .ok (L.readIdentOrKw c s)
    else if c.isDigit || c = '-' then .ok (L.readNumber c s)
    else .error (.unexpectedChar c (length - s.length))

/-- The next token. -/
def nextToken (length : ℕ) (s : List Char) : Except (ParseError F) (Token F × List Char) :=
  L.readToken length (s.dropWhile isWhitespace)

/-- One round of the loop. `Eof` ends it. -/
def round (length : ℕ) (s : List Char) : Except (ParseError F) (Option (Token F) × List Char) :=
  (L.nextToken length s).map fun
    | (.eof, rest) => (none, rest)
    | (token, rest) => (some token, rest)

def tokenize (s : List Char) : Except (ParseError F) (List (Token F)) :=
  (Scanner.tokens (L.round s.length) s).map (· ++ [.eof])

end Lexis

/-! ## Lexemes -/

/-- What is between the quotes of a string literal, and the string. -/
inductive StrBody : List Char → List Char → Prop
  | nil : StrBody [] []
  | plain {c : Char} {b s : List Char} (hquote : c ≠ '\'') (hescape : c ≠ '\\') (h : StrBody b s) :
      StrBody (c :: b) (c :: s)
  | escaped {c : Char} {b s : List Char} (h : StrBody b s) : StrBody ('\\' :: c :: b) (Lexis.escape c ++ s)

/-- A digit or a minus sign, and digits. -/
def Numeral (l : List Char) : Prop := ∃ c ds, l = c :: ds ∧ (c.isDigit = true ∨ c = '-') ∧ ds.all Char.isDigit = true

/-- The numeral has digits, and is the value of a number of 64 bits. -/
def Fits (l : List Char) : Prop := (splitSign l).2 ≠ [] ∧ -2 ^ 63 ≤ intValue l ∧ intValue l < 2 ^ 63

/-- Symbols that no other symbol begins with. -/
def symbols : List (List Char × Token F) :=
  [(['*'], .star), ([','], .comma), (['('], .lparen), ([')'], .rparen), (['.'], .dot), (['='], .eq),
    (['!', '='], .notEq), (['>', '='], .gte), (['<', '='], .lte)]

section Lexeme

variable (L : Lexis F) (lax : Bool)

/-- A lexeme, its token, and the text behind it, which does not make it longer. -/
inductive Lexeme : List Char → Token F → List Char → Prop
  | symbol {l : List Char} {t : Token F} {rest : List Char} (h : (l, t) ∈ symbols) : Lexeme l t rest
  | gt {rest : List Char} (h : rest.head? ≠ some '=') : Lexeme ['>'] .gt rest
  | lt {rest : List Char} (h : rest.head? ≠ some '=') : Lexeme ['<'] .lt rest
  | word {c : Char} {w rest : List Char} (hstart : L.wordStart c = true) (hw : ∀ d ∈ w, L.wordChar d = true)
      (hrest : ∀ d ∈ rest.head?, L.wordChar d = false) : Lexeme (c :: w) (L.wordToken (c :: w)) rest
  | string {b s rest : List Char} (h : StrBody b s) : Lexeme ('\'' :: (b ++ ['\''])) (.strLit s) rest
  | int {l rest : List Char} {n : Int64} (hl : Numeral l) (hfits : Fits l) (hn : n.toInt = intValue l)
      (hrest : ∀ d ∈ rest.head?, d.isDigit = false)
      (hpoint : rest.head? = some '.' → ∀ d ∈ rest.tail.head?, d.isDigit = false) : Lexeme l (.intLit n) rest
  | overflow {l rest : List Char} (hlax : lax = true) (hl : Numeral l) (hfits : ¬ Fits l)
      (hrest : ∀ d ∈ rest.head?, d.isDigit = false)
      (hpoint : rest.head? = some '.' → ∀ d ∈ rest.tail.head?, d.isDigit = false) : Lexeme l (.intLit 0) rest
  | float {l rest : List Char} {d : Char} {ds : List Char} (hl : Numeral l) (hd : d.isDigit = true)
      (hds : ds.all Char.isDigit = true) (hrest : ∀ d ∈ rest.head?, d.isDigit = false) :
      Lexeme (l ++ '.' :: d :: ds) (.floatLit (L.parseFloat (l ++ '.' :: d :: ds))) rest

/-- A text is lexemes, with white space before and behind them. -/
inductive Lexed : List Char → List (List Char × Token F) → Prop
  | nil {ws : List Char} (hws : ∀ c ∈ ws, isWhitespace c = true) : Lexed ws []
  | cons {ws l rest : List Char} {t : Token F} {ls : List (List Char × Token F)}
      (hws : ∀ c ∈ ws, isWhitespace c = true) (hl : Lexeme L lax l t rest) (hrest : Lexed rest ls) :
      Lexed (ws ++ l ++ rest) ((l, t) :: ls)

end Lexeme

variable {L : Lexis F} {lax : Bool}

/-! ## Reading a lexeme -/

theorem readStrLit_body {b s : List Char} (h : StrBody b s) (rest : List Char) :
    (Lexis.readStrLit (b ++ '\'' :: rest) : Except (ParseError F) _) = .ok (s, rest) := by
  induction h with
  | nil => rfl
  | plain hquote hescape _ ih =>
    rw [List.cons_append, Lexis.readStrLit, ih]
    · rfl
    · exact hquote
    · exact fun h _ => hescape h
    · exact fun _ _ h _ => hescape h
  | escaped _ ih =>
    rw [List.cons_append, List.cons_append, Lexis.readStrLit, ih]
    rfl

theorem body_of_readStrLit {s body rest : List Char}
    (h : (Lexis.readStrLit s : Except (ParseError F) _) = .ok (body, rest)) :
    ∃ b, s = b ++ '\'' :: rest ∧ StrBody b body := by
  fun_induction Lexis.readStrLit (F := F) s generalizing body with
  | case1 => cases h
  | case2 s =>
    cases h
    exact ⟨[], rfl, .nil⟩
  | case3 => cases h
  | case4 c s ih =>
    obtain ⟨p, hread, hp⟩ := Except.map_eq_ok.1 h
    cases hp
    obtain ⟨b, rfl, hb⟩ := ih hread
    exact ⟨_, rfl, .escaped hb⟩
  | case5 c s hquote hend hescape ih =>
    obtain ⟨p, hread, hp⟩ := Except.map_eq_ok.1 h
    cases hp
    obtain ⟨b, rfl, hb⟩ := ih hread
    refine ⟨c :: b, rfl, .plain hquote (fun hc => ?_) hb⟩
    cases b with
    | nil => exact hescape _ _ hc rfl
    | cons c' b => exact hescape _ _ hc rfl

section Reading

variable (L) (length : ℕ)

/-- Characters that begin a symbol or a string. -/
def isSymbol (c : Char) : Bool := c ∈ ['*', ',', '(', ')', '.', '\'', '=', '!', '>', '<']

theorem readToken_other {c : Char} (h : isSymbol c = false) (s : List Char) : L.readToken length (c :: s) =
    if L.wordStart c then .ok (L.readIdentOrKw c s)
    else if c.isDigit || c = '-' then .ok (L.readNumber c s)
    else .error (.unexpectedChar c (length - s.length)) := by
  unfold Lexis.readToken
  split <;> rename_i heq <;> cases heq <;> first | rfl | exact absurd h (by decide)

theorem wordStart_ascii {c : Char} (h : c.toNat < 128) : L.wordStart c = (c.isAlpha || c = '_') := by
  rw [Lexis.wordStart, L.alphabetic_ascii c h]

theorem wordStart_symbol {c : Char} (h : isSymbol c = true) : L.wordStart c = false := by
  have hmem : c ∈ ['*', ',', '(', ')', '.', '\'', '=', '!', '>', '<'] := of_decide_eq_true h
  rw [wordStart_ascii] <;> fin_cases hmem <;> decide

theorem numeralStart_not_symbol {c : Char} (h : c.isDigit = true ∨ c = '-') : isSymbol c = false := by
  rcases h with h | rfl
  · by_contra hc
    have hmem : c ∈ ['*', ',', '(', ')', '.', '\'', '=', '!', '>', '<'] := 
      of_decide_eq_true (Bool.eq_true_of_not_eq_false hc)
    fin_cases hmem <;> cases h
  · rfl

theorem wordStart_numeral {c : Char} (h : c.isDigit = true ∨ c = '-') : L.wordStart c = false := by
  have hascii : c.toNat < 128 := by
    rcases h with h | rfl
    · simp only [Char.isDigit, Bool.and_eq_true, decide_eq_true_eq, UInt32.le_iff_toNat_le] at h
      exact Nat.lt_of_le_of_lt h.2 (by decide)
    · decide
  rw [wordStart_ascii L hascii]
  rcases h with h | rfl
  · have hcase : c.isAlpha = false := by
      simp only [Char.isDigit, Char.isAlpha, Char.isUpper, Char.isLower, Bool.and_eq_true, decide_eq_true_eq,
        UInt32.le_iff_toNat_le, Bool.or_eq_false_iff, Bool.and_eq_false_iff, decide_eq_false_iff_not] at h ⊢
      have h9 : (57 : UInt32).toNat = 57 := rfl
      have hA : (65 : UInt32).toNat = 65 := rfl
      have ha : (97 : UInt32).toNat = 97 := rfl
      simp at h ⊢
      omega
    have hunderscore : c ≠ '_' := by
      rintro rfl
      cases h
    rw [hcase, decide_eq_false hunderscore, Bool.or_self]
  · rfl

/-- What `parse_i64` makes of a numeral. -/
theorem parseI64_numeral {l : List Char} (hl : Numeral l) :
    (∀ n : Int64, Fits l → n.toInt = intValue l → parseI64 l = some n) ∧ (¬ Fits l → parseI64 l = none) := by
  have hdigits : (splitSign l).2.all Char.isDigit = true := by
    obtain ⟨c, ds, rfl, hc | rfl, hds⟩ := hl
    · have hall : (c :: ds).all Char.isDigit = true := by rw [List.all_cons, hc, hds, Bool.and_self]
      rw [splitSign_digits hall]
      exact hall
    · exact hds
  constructor
  · rintro n ⟨hne, hle, hlt⟩ hn
    rw [parseI64, if_pos ⟨hne, hdigits, hle, hlt⟩, ← hn, Int64.ofInt_toInt]
  · intro hfits
    exact if_neg fun h => hfits ⟨h.1, h.2.2⟩

/-- A numeral is read up to where it ends. -/
theorem readNumber_int {c : Char} {ds rest : List Char} (hds : ds.all Char.isDigit = true)
    (hrest : ∀ d ∈ rest.head?, d.isDigit = false)
    (hpoint : rest.head? = some '.' → ∀ d ∈ rest.tail.head?, d.isDigit = false) :
    L.readNumber c (ds ++ rest) = (.intLit ((parseI64 (c :: ds)).getD 0), rest) := by
  unfold Lexis.readNumber
  rw [List.takeWhile_run (List.all_eq_true.1 hds) hrest, List.dropWhile_run (List.all_eq_true.1 hds) hrest]
  dsimp only
  split
  · rw [if_neg (by simp [hpoint rfl _ rfl])]
  · rfl

theorem readNumber_float {c d : Char} {ds es rest : List Char} (hds : ds.all Char.isDigit = true)
    (hd : d.isDigit = true) (hes : es.all Char.isDigit = true) (hrest : ∀ d ∈ rest.head?, d.isDigit = false) :
    L.readNumber c (ds ++ '.' :: d :: (es ++ rest)) = (.floatLit (L.parseFloat (c :: ds ++ '.' :: d :: es)), rest) := by
  have hpoint : ∀ e ∈ ('.' :: d :: (es ++ rest)).head?, e.isDigit = false := by
    intro e he
    cases he
    rfl
  unfold Lexis.readNumber
  rw [List.takeWhile_run (List.all_eq_true.1 hds) hpoint, List.dropWhile_run (List.all_eq_true.1 hds) hpoint]
  simp only [hd, if_true]
  rw [List.takeWhile_run (List.all_eq_true.1 hes) hrest, List.dropWhile_run (List.all_eq_true.1 hes) hrest]

theorem readToken_numeral {c : Char} (hc : c.isDigit = true ∨ c = '-') (s : List Char) :
    L.readToken length (c :: s) = .ok (L.readNumber c s) := by
  rw [readToken_other L length (numeralStart_not_symbol hc), wordStart_numeral L hc, if_neg Bool.false_ne_true]
  refine if_pos ?_
  rcases hc with hc | rfl
  · rw [hc, Bool.true_or]
  · rfl

theorem readEq_short {long short : Token F} {s : List Char} (h : s.head? ≠ some '=') :
    Lexis.readEq long short s = (short, s) := by
  unfold Lexis.readEq
  split
  · exact absurd rfl h
  · rfl

end Reading

/-- A lexeme is read as its token. -/
theorem readToken_of_lexeme {l rest : List Char} {t : Token F} (h : Lexeme L true l t rest) (length : ℕ) :
    L.readToken length (l ++ rest) = .ok (t, rest) := by
  cases h with
  | symbol h =>
    simp only [symbols, List.mem_cons, Prod.mk.injEq, List.not_mem_nil, or_false] at h
    rcases h with ⟨rfl, rfl⟩ | ⟨rfl, rfl⟩ | ⟨rfl, rfl⟩ | ⟨rfl, rfl⟩ | ⟨rfl, rfl⟩ | ⟨rfl, rfl⟩ | ⟨rfl, rfl⟩ |
      ⟨rfl, rfl⟩ | ⟨rfl, rfl⟩ <;> rfl
  | gt h => exact congrArg Except.ok (readEq_short h)
  | lt h => exact congrArg Except.ok (readEq_short h)
  | @word c w rest hstart hw hrest =>
    have hsymbol : isSymbol c = false := by
      by_contra hc
      rw [wordStart_symbol L (Bool.eq_true_of_not_eq_false hc)] at hstart
      cases hstart
    rw [List.cons_append, readToken_other L length hsymbol, if_pos hstart, Lexis.readIdentOrKw,
      List.takeWhile_run hw hrest, List.dropWhile_run hw hrest]
  | string h =>
    rw [List.cons_append, List.append_assoc]
    exact Except.map_eq_ok.2 ⟨_, readStrLit_body h rest, rfl⟩
  | int hl hfits hn hrest hpoint =>
    obtain ⟨c, ds, rfl, hc, hds⟩ := hl
    rw [List.cons_append, readToken_numeral L length hc, readNumber_int L hds hrest hpoint,
      (parseI64_numeral ⟨c, ds, rfl, hc, hds⟩).1 _ hfits hn]
    rfl
  | overflow _ hl hfits hrest hpoint =>
    obtain ⟨c, ds, rfl, hc, hds⟩ := hl
    rw [List.cons_append, readToken_numeral L length hc, readNumber_int L hds hrest hpoint,
      (parseI64_numeral ⟨c, ds, rfl, hc, hds⟩).2 hfits]
    rfl
  | float hl hd hds hrest =>
    obtain ⟨c, cs, rfl, hc, hcs⟩ := hl
    rw [List.append_assoc, List.cons_append, readToken_numeral L length hc]
    exact congrArg Except.ok (readNumber_float L hcs hd hds hrest)

section Lexing

variable (L) (length : ℕ)

theorem wordToken_ne_eof (word : List Char) : L.wordToken word ≠ .eof := by
  simp only [Lexis.wordToken, ne_eq, apply_ite (· = Token.eof), reduceCtorEq, ite_self, not_false_eq_true]

/-- A lexeme begins with a character that is no white space. -/
theorem Lexeme.visible {l rest : List Char} {t : Token F} (h : Lexeme L lax l t rest) :
    (∃ c s, l = c :: s ∧ isWhitespace c = false) ∧ t ≠ .eof := by
  have hnumeral : ∀ {l}, Numeral l → ∃ c s, l = c :: s ∧ isWhitespace c = false := by
    rintro l ⟨c, ds, rfl, hc | rfl, -⟩
    · refine ⟨c, ds, rfl, ?_⟩
      have hrange : 48 ≤ c.toNat ∧ c.toNat ≤ 57 := by
        simpa [Char.isDigit, UInt32.le_iff_toNat_le] using hc
      simp [isWhitespace]
      omega
    · exact ⟨'-', ds, rfl, rfl⟩
  cases h with
  | symbol h =>
    simp only [symbols, List.mem_cons, Prod.mk.injEq, List.not_mem_nil, or_false] at h
    rcases h with ⟨rfl, rfl⟩ | ⟨rfl, rfl⟩ | ⟨rfl, rfl⟩ | ⟨rfl, rfl⟩ | ⟨rfl, rfl⟩ | ⟨rfl, rfl⟩ | ⟨rfl, rfl⟩ |
      ⟨rfl, rfl⟩ | ⟨rfl, rfl⟩ <;> exact ⟨⟨_, _, rfl, rfl⟩, nofun⟩
  | gt h => exact ⟨⟨_, _, rfl, rfl⟩, nofun⟩
  | lt h => exact ⟨⟨_, _, rfl, rfl⟩, nofun⟩
  | @word c w _ hstart hw hrest =>
    refine ⟨⟨c, w, rfl, ?_⟩, wordToken_ne_eof L _⟩
    rcases Bool.or_eq_true_iff.1 hstart with h | h
    · exact L.alphabetic_visible c h
    · rw [of_decide_eq_true h]
      rfl
  | string h => exact ⟨⟨_, _, rfl, rfl⟩, nofun⟩
  | int hl => exact ⟨hnumeral hl, nofun⟩
  | overflow _ hl => exact ⟨hnumeral hl, nofun⟩
  | float hl =>
    obtain ⟨c, s, rfl, hc⟩ := hnumeral hl
    exact ⟨⟨c, _, rfl, hc⟩, nofun⟩

/-- A number that is read is that of a numeral. -/
theorem lexeme_of_readNumber {c : Char} (hc : c.isDigit = true ∨ c = '-') {s rest : List Char} {t : Token F}
    (h : L.readNumber c s = (t, rest)) : ∃ l, c :: s = l ++ rest ∧ Lexeme L true l t rest := by
  have hds : (s.takeWhile Char.isDigit).all Char.isDigit = true := List.all_takeWhile
  have hsplit : s = s.takeWhile Char.isDigit ++ s.dropWhile Char.isDigit := List.takeWhile_append_dropWhile.symm
  have hbehind := List.head?_dropWhile_run (p := Char.isDigit) s
  have hl : Numeral (c :: s.takeWhile Char.isDigit) := ⟨c, _, rfl, hc, hds⟩
  have hint : ∀ rest' : List Char, (∀ d ∈ rest'.head?, d.isDigit = false) →
      (rest'.head? = some '.' → ∀ d ∈ rest'.tail.head?, d.isDigit = false) →
        Lexeme L true (c :: s.takeWhile Char.isDigit)
          (.intLit ((parseI64 (c :: s.takeWhile Char.isDigit)).getD 0)) rest' := by
    intro rest' hrest' hpoint
    by_cases hfits : Fits (c :: s.takeWhile Char.isDigit)
    · have hn := Int64.toInt_ofInt_of_le hfits.2.1 hfits.2.2
      rw [(parseI64_numeral hl).1 _ hfits hn]
      exact .int hl hfits hn hrest' hpoint
    · rw [(parseI64_numeral hl).2 hfits]
      exact .overflow rfl hl hfits hrest' hpoint
  unfold Lexis.readNumber at h
  dsimp only at h
  split at h
  · next d es hdrop =>
    rw [hdrop] at hsplit hbehind
    split_ifs at h with hd
    · cases h
      refine ⟨(c :: s.takeWhile Char.isDigit) ++ '.' :: d :: es.takeWhile Char.isDigit, ?_, ?_⟩
      · rw [List.append_assoc, List.cons_append, List.cons_append, List.cons_append, List.takeWhile_append_dropWhile,
          ← hsplit]
      · exact .float hl hd List.all_takeWhile (List.head?_dropWhile_run es)
    · cases h
      refine ⟨_, congrArg (c :: ·) hsplit, hint _ hbehind fun _ e he => ?_⟩
      cases he
      exact Bool.eq_false_iff.2 hd
  · next hpoint =>
    cases h
    refine ⟨_, congrArg (c :: ·) hsplit, hint _ hbehind fun hhead d hd => ?_⟩
    obtain ⟨ds, hdrop⟩ := List.head?_eq_some_iff.1 hhead
    rw [hdrop] at hd
    obtain ⟨es, rfl⟩ := List.head?_eq_some_iff.1 hd
    exact (hpoint d es hdrop).elim

theorem lexeme_of_readEq {c : Char} {s rest : List Char} {long short t : Token F} (hlong : ([c, '='], long) ∈ symbols)
    (hshort : ∀ {rest : List Char}, rest.head? ≠ some '=' → Lexeme L true [c] short rest)
    (h : Lexis.readEq long short s = (t, rest)) : ∃ l, c :: s = l ++ rest ∧ Lexeme L true l t rest := by
  by_cases hs : s.head? = some '='
  · obtain ⟨s, rfl⟩ := List.head?_eq_some_iff.1 hs
    cases h
    exact ⟨[c, '='], rfl, .symbol hlong⟩
  · rw [readEq_short hs] at h
    cases h
    exact ⟨[c], rfl, hshort hs⟩

/-- A token that is read is that of a lexeme. -/
theorem lexeme_of_readToken {s rest : List Char} {t : Token F} (h : L.readToken length s = .ok (t, rest)) :
    (s = [] ∧ rest = [] ∧ t = .eof) ∨ ∃ l, s = l ++ rest ∧ Lexeme L true l t rest := by
  unfold Lexis.readToken at h
  split at h
  · cases h
    exact .inl ⟨rfl, rfl, rfl⟩
  · cases h
    exact .inr ⟨['*'], rfl, .symbol (by simp [symbols])⟩
  · cases h
    exact .inr ⟨[','], rfl, .symbol (by simp [symbols])⟩
  · cases h
    exact .inr ⟨['('], rfl, .symbol (by simp [symbols])⟩
  · cases h
    exact .inr ⟨[')'], rfl, .symbol (by simp [symbols])⟩
  · cases h
    exact .inr ⟨['.'], rfl, .symbol (by simp [symbols])⟩
  · obtain ⟨p, hread, hp⟩ := Except.map_eq_ok.1 h
    cases hp
    obtain ⟨b, rfl, hb⟩ := body_of_readStrLit hread
    exact .inr ⟨_, by simp, .string hb⟩
  · cases h
    exact .inr ⟨['='], rfl, .symbol (by simp [symbols])⟩
  · split at h
    · cases h
      exact .inr ⟨['!', '='], rfl, .symbol (by simp [symbols])⟩
    · cases h
  · exact .inr (lexeme_of_readEq L (by simp [symbols]) (fun h => .gt h) (Except.ok.inj h))
  · exact .inr (lexeme_of_readEq L (by simp [symbols]) (fun h => .lt h) (Except.ok.inj h))
  · rename_i c s _ _ _ _ _ _ _ _ _ _
    split_ifs at h with hstart hnumber
    · cases h
      refine .inr ⟨c :: s.takeWhile L.wordChar, ?_, .word hstart (fun d hd => List.mem_takeWhile_imp hd)
        (List.head?_dropWhile_run s)⟩
      rw [List.cons_append, List.takeWhile_append_dropWhile]
    · refine .inr (lexeme_of_readNumber L ?_ (Except.ok.inj h))
      simpa using hnumber

/-- A round reads a lexeme and the white space before it. -/
theorem round_of_lexeme {ws l rest : List Char} {t : Token F} (hws : ∀ c ∈ ws, isWhitespace c = true)
    (h : Lexeme L true l t rest) : L.round length (ws ++ l ++ rest) = .ok (some t, rest) := by
  obtain ⟨⟨c, s, rfl, hc⟩, heof⟩ := h.visible L
  have hskip : (ws ++ (c :: s) ++ rest).dropWhile isWhitespace = c :: s ++ rest := by
    rw [List.append_assoc]
    exact List.dropWhile_run hws fun d hd => by cases hd; exact hc
  have hread := readToken_of_lexeme h length
  rw [Lexis.round, Lexis.nextToken, hskip, hread]
  cases t <;> first | rfl | exact absurd rfl heof

/-- What a round reads. -/
theorem round_eq_ok {s rest : List Char} {t : Option (Token F)} (h : L.round length s = .ok (t, rest)) :
    ((∀ c ∈ s, isWhitespace c = true) ∧ rest = [] ∧ t = none) ∨
      ∃ ws l token, s = ws ++ l ++ rest ∧ (∀ c ∈ ws, isWhitespace c = true) ∧ Lexeme L true l token rest ∧
        t = some token := by
  have hsplit := List.takeWhile_append_dropWhile (p := isWhitespace) (l := s)
  have hws : ∀ c ∈ s.takeWhile isWhitespace, isWhitespace c = true := fun c hc => List.mem_takeWhile_imp hc
  obtain ⟨⟨token, rest'⟩, hread, heq⟩ := Except.map_eq_ok.1 h
  rcases lexeme_of_readToken L length hread with ⟨hnil, rfl, rfl⟩ | ⟨l, hl, hlexeme⟩
  · cases heq
    rw [hnil, List.append_nil] at hsplit
    exact .inl ⟨hsplit ▸ hws, rfl, rfl⟩
  · have heof := (hlexeme.visible L).2
    have heq' : (some token, rest') = (t, rest) := by
      rw [← heq]
      cases token <;> first | rfl | exact absurd rfl heof
    cases heq'
    refine .inr ⟨_, l, token, ?_, hws, hlexeme, rfl⟩
    rw [List.append_assoc, ← hl, hsplit]

theorem lexed_nil {ls : List (List Char × Token F)} (h : Lexed L lax [] ls) : ls = [] := by
  generalize hs : [] = s at h
  cases h with
  | nil => rfl
  | cons _ hl _ =>
    obtain ⟨⟨c, l, rfl, -⟩, -⟩ := hl.visible L
    simp at hs

theorem shrinks_round : Scanner.Shrinks (L.round length) := by
  intro s t rest hs h
  rcases round_eq_ok L length h with ⟨-, rfl, -⟩ | ⟨ws, l, token, rfl, -, hl, -⟩
  · exact List.length_pos_of_ne_nil hs
  · obtain ⟨⟨c, s, rfl, -⟩, -⟩ := hl.visible L
    simp only [List.length_append, List.length_cons]
    omega

/-- **The tokens of a text are those of its lexemes.** -/
theorem tokenize_iff {s : List Char} {ts : List (Token F)} :
    L.tokenize s = .ok (ts ++ [.eof]) ↔ ∃ ls, Lexed L true s ls ∧ ls.map (·.2) = ts := by
  have hmap : L.tokenize s = .ok (ts ++ [.eof]) ↔ Scanner.tokens (L.round s.length) s = .ok ts := by
    rw [Lexis.tokenize, Except.map_eq_ok]
    simp only [List.append_cancel_right_eq, exists_eq_right]
  rw [hmap, Scanner.tokens_eq_ok_iff (shrinks_round L _)]
  clear hmap
  generalize s.length = length
  constructor
  · intro h
    induction h with
    | nil => exact ⟨[], .nil fun c hc => (by cases hc), rfl⟩
    | cons _ hround _ ih =>
      obtain ⟨ls, hls, rfl⟩ := ih
      rcases round_eq_ok L length hround with ⟨hws, rfl, rfl⟩ | ⟨ws, l, token, rfl, hws, hl, rfl⟩
      · rw [lexed_nil L hls]
        exact ⟨[], .nil hws, rfl⟩
      · exact ⟨_, .cons hws hl hls, rfl⟩
  · rintro ⟨ls, h, rfl⟩
    induction h with
    | @nil ws hws =>
      by_cases hne : ws = []
      · exact hne ▸ .nil
      · refine .cons (t := none) hne ?_ .nil
        rw [Lexis.round, Lexis.nextToken, List.dropWhile_eq_nil_iff.2 hws]
        rfl
    | cons hws hl _ ih =>
      obtain ⟨⟨c, s, rfl, -⟩, -⟩ := hl.visible L
      exact .cons (by simp) (round_of_lexeme L length hws hl) ih

theorem tokenize_ne_outOfFuel (s : List Char) : L.tokenize s ≠ .error .outOfFuel := by
  have hstr : ∀ s, (Lexis.readStrLit s : Except (ParseError F) _) ≠ .error .outOfFuel := by
    intro s
    fun_induction Lexis.readStrLit (F := F) s with
    | case4 c s ih => exact Except.map_ne_error ih
    | case5 c s _ _ _ ih => exact Except.map_ne_error ih
    | _ => exact nofun
  have htoken : ∀ length s, L.readToken length s ≠ .error .outOfFuel := by
    intro length s
    unfold Lexis.readToken
    split
    case h_7 s => exact Except.map_ne_error (hstr s)
    case h_9 => split <;> exact nofun
    case h_12 => split_ifs <;> exact nofun
    all_goals exact nofun
  exact Except.map_ne_error (Scanner.tokens_ne_error (fun s => Except.map_ne_error (htoken _ _)) s)

end Lexing

end ThorFirewall.Thorql
