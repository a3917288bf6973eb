import Mathlib
import ThorFirewall.Script.Parser

/-!
# Printed scripts

A rule is printed as its tokens with a space behind each. A script cannot say that a rule is disabled, and three
operators have no syntax.

- `tokenize_printed`: the tokens of a printed script;
- `parseScript_printed`: printed rules are read back;
- `unwritable`: the rules of which no script is read back.
-/

namespace ThorFirewall.Script

/-! ## Printing -/

/-- A quote, a backslash, a line break and a tab are escaped. -/
def escape : Char → List Char
  | '"' => ['\\', '"']
  | '\\' => ['\\', '\\']
  | '\n' => ['\\', 'n']
  | '\t' => ['\\', 't']
  | c => [c]

def ScriptToken.text : ScriptToken → List Char
  | keyword k => k.toList
  | identifier s => s.toList
  | stringLit s => '"' :: (s.toList.flatMap escape ++ ['"'])
  | intLit n => Text.showInt n.toInt
  | regexLit pattern flags => '/' :: (pattern.toList ++ '/' :: flags.toList)
  | lbrace => ['{']
  | rbrace => ['}']
  | lparen => ['(']
  | rparen => [')']
  | lbracket => ['[']
  | rbracket => [']']
  | colon => [':']
  | comma => [',']
  | plus => ['+']
  | opEq => ['=', '=']
  | opNe => ['!', '=']
  | opLt => ['<']
  | opGt => ['>']
  | opLe => ['<', '=']
  | opGe => ['>', '=']
  | eof => []

/-- Tokens with a space behind each. -/
def printTokens (ts : List ScriptToken) : List Char := ts.flatMap fun t => t.text ++ [' ']

def Operator.token : Operator → Option ScriptToken
  | eq => some .opEq
  | ne => some .opNe
  | lt => some .opLt
  | gt => some .opGt
  | le => some .opLe
  | ge => some .opGe
  | in_ => some (.keyword "in")
  | match_ => some (.keyword "match")
  | notIn => none
  | notMatch => none
  | contains => none

mutual

def Value.tokens : Value → List ScriptToken
  | .str s => [.stringLit s]
  | .int n => [.intLit n]
  | .bool b => [.keyword (if b then "true" else "false")]
  | .regex pattern => [.regexLit pattern ""]
  | .list items => .lbracket :: (itemTokens items ++ [.rbracket])

/-- Values with commas between them. -/
def itemTokens : List Value → List ScriptToken
  | [] => []
  | [v] => v.tokens
  | v :: w :: items => v.tokens ++ .comma :: itemTokens (w :: items)

end

def Condition.tokens : Condition → List ScriptToken
  | compare field op value => .identifier field :: (op.token.toList ++ value.tokens)
  | payloadMatch pattern ci => [.keyword "payload", .keyword "match", .regexLit pattern (if ci then "i" else "")]
  | and left right => left.tokens ++ .keyword "and" :: right.tokens
  | or left right => left.tokens ++ .keyword "or" :: right.tokens
  | not inner => .keyword "not" :: inner.tokens
  | true => []

def Action.tokens : Action → List ScriptToken
  | alert severity msg => [.keyword "alert", .lparen, .identifier "severity", .colon, .stringLit severity, .comma,
      .identifier "msg", .colon, .stringLit msg, .rparen]
  | log message => [.keyword "log", .lparen, .stringLit message, .rparen]
  | drop => [.keyword "drop", .lparen, .rparen]

def EventType.word : EventType → String
  | network => "network"
  | dns => "dns"
  | http => "http"
  | tls => "tls"
  | process => "process"
  | file => "file"
  | any => "any"

def Rule.tokens (r : Rule) : List ScriptToken :=
  .keyword "rule" :: .stringLit r.name :: .lbrace :: .keyword "on" :: .identifier r.eventType.word ::
    .keyword "if" :: .lbrace :: (r.condition.tokens ++ .rbrace :: .keyword "then" :: .lbrace ::
      (r.actions.flatMap Action.tokens ++ [.rbrace, .rbrace]))

def printScript (rules : List Rule) : List Char := printTokens (rules.flatMap Rule.tokens)

/-! ## What can be printed -/

/-- A word that is no keyword. -/
def IsField (s : String) : Prop :=
  (∃ c w, s.toList = c :: w ∧ wordStart c = true ∧ ∀ d ∈ w, wordChar d = true) ∧ s ∉ keywords

/-- No slash ends the pattern before its end, and no backslash is left over. -/
def Closed : List Char → Bool
  | [] => true
  | '/' :: _ => false
  | ['\\'] => false
  | '\\' :: _ :: s => Closed s
  | _ :: s => Closed s

/-- A pattern between slashes. The empty one would begin a comment. -/
def IsPattern (pattern : String) : Prop := pattern ≠ "" ∧ Closed pattern.toList = true

mutual

def Value.Plain : Value → Prop
  | .regex pattern => IsPattern pattern
  | .list items => PlainItems items
  | _ => True

def PlainItems : List Value → Prop
  | [] => True
  | v :: items => v.Plain ∧ PlainItems items

end

/-- A comparison or a search in the payload, with negations in front of it. -/
inductive Atom : Condition → Prop
  | compare {field : String} {op : Operator} {value : Value} (hfield : IsField field) (hvalue : value.Plain) :
      Atom (.compare field op value)
  | payloadMatch {pattern : String} {ci : Bool} (h : IsPattern pattern) : Atom (.payloadMatch pattern ci)
  | not {c : Condition} (h : Atom c) : Atom (.not c)

/-- Atoms with `and` and `or` between them, nested to the left. -/
inductive Chain : Condition → Prop
  | atom {c : Condition} (h : Atom c) : Chain c
  | and {c d : Condition} (hc : Chain c) (hd : Atom d) : Chain (.and c d)
  | or {c d : Condition} (hc : Chain c) (hd : Atom d) : Chain (.or c d)

/-- The operators of a condition. -/
def Condition.operators : Condition → List Operator
  | compare _ op _ => [op]
  | payloadMatch _ _ => []
  | and left right => left.operators ++ right.operators
  | or left right => left.operators ++ right.operators
  | not inner => inner.operators
  | true => []

/-- Every operator of the rule has a syntax, and the rule is not disabled. -/
structure Rule.Written (r : Rule) : Prop where
  enabled : r.enabled = true
  operators : ∀ op ∈ r.condition.operators, op.token.isSome

/-! ## Tokens of a printed script -/

/-- A token that is read from its text. -/
def ScriptToken.Readable : ScriptToken → Prop
  | keyword k => k ∈ keywords
  | identifier s => IsField s
  | regexLit pattern flags => IsPattern pattern ∧ ∀ c ∈ flags.toList, c.isAlpha = true
  | eof => False
  | _ => True

theorem escape_cases (c : Char) :
    (∃ e, escape c = ['\\', e] ∧ unescape e = c) ∨ escape c = [c] ∧ c ≠ '"' ∧ c ≠ '\\' := by
  unfold escape
  split
  · exact Or.inl ⟨'"', rfl, rfl⟩
  · exact Or.inl ⟨'\\', rfl, rfl⟩
  · exact Or.inl ⟨'n', rfl, rfl⟩
  · exact Or.inl ⟨'t', rfl, rfl⟩
  · next hquote hslash _ _ => exact Or.inr ⟨rfl, hquote, hslash⟩

theorem readString_escaped (s rest : List Char) : readString (s.flatMap escape ++ '"' :: rest) = (s, rest) := by
  induction s with
  | nil => rfl
  | cons c s ih =>
    rw [List.flatMap_cons, List.append_assoc]
    rcases escape_cases c with ⟨e, hescape, hback⟩ | ⟨hescape, hquote, hslash⟩
    · rw [hescape, List.cons_append, List.singleton_append, readString, ih, hback]
    · rw [hescape, List.singleton_append, readString, ih]
      · exact hquote
      · exact fun h _ => hslash h
      · exact fun _ _ h _ => hslash h

theorem readRegex_closed {s : List Char} (h : Closed s = true) (rest : List Char) :
    readRegex (s ++ '/' :: rest) = (s, rest) := by
  fun_induction Closed s with
  | case1 => rfl
  | case2 => cases h
  | case3 => cases h
  | case4 c s ih => simp [readRegex, ih h]
  | case5 c s hslash hend hescape ih =>
    have hbackslash : c ≠ '\\' := by
      rintro rfl
      cases s with
      | nil => exact hend rfl rfl
      | cons d s => exact hescape d s rfl rfl
    rw [List.cons_append, readRegex, ih h]
    · exact hslash
    · exact fun hc _ => hbackslash hc
    · exact fun _ _ hc _ => hbackslash hc

/-- The characters that a round asks for before it looks for a number or a word. -/
def marks : List Char := [' ', '\t', '\r', '\n', '#', '/', '"', '=', '!', '<', '>']

theorem round_other {c : Char} (h : c ∉ marks) (s : List Char) : round (c :: s) = readLexeme c s := by
  simp only [marks, List.mem_cons, List.not_mem_nil, or_false, not_or] at h
  obtain ⟨hspace, htab, hcr, hlf, hhash, hslash, hquote, heq, hbang, hlt, hgt⟩ := h
  have hblank : isBlank c = false := by simp [isBlank, hspace, htab, hcr, hlf]
  have hop : ¬ (c = '=' ∨ c = '!' ∨ c = '<' ∨ c = '>') := by simp [heq, hbang, hlt, hgt]
  rw [round, hblank, if_neg Bool.false_ne_true, if_neg hhash, if_neg hslash, if_neg hquote, if_neg hop]

theorem not_mem_marks {p : Char → Bool} (hp : marks.any p = false) {c : Char} (h : p c = true) : c ∉ marks :=
  fun hc => List.any_eq_false.1 hp c hc h

theorem isDigit_wordStart {c : Char} (h : wordStart c = true) : c.isDigit = false := by
  by_contra hdigit
  rw [Bool.not_eq_false] at hdigit
  simp only [wordStart, Char.isDigit, Char.isAlpha, Char.isUpper, Char.isLower, Bool.or_eq_true, Bool.and_eq_true,
    decide_eq_true_eq, UInt32.le_iff_toNat_le, ge_iff_le] at h hdigit
  rcases h with (h | h) | rfl
  · simp at h hdigit
    omega
  · simp at h hdigit
    omega
  · exact absurd hdigit (by decide)

section Rounds

variable {c : Char} {w : List Char} (rest : List Char)

theorem round_word (hstart : wordStart c = true) (hw : ∀ d ∈ w, wordChar d = true) :
    round (c :: w ++ ' ' :: rest) = (some (wordToken (c :: w)), ' ' :: rest) := by
  have hmark : c ∉ marks := not_mem_marks rfl hstart
  have hminus : c ≠ '-' := by
    rintro rfl
    cases hstart
  have hchars : ∀ d ∈ c :: w, wordChar d = true := by
    refine List.forall_mem_cons.2 ⟨?_, hw⟩
    simp only [wordStart, wordChar, Bool.or_eq_true, Char.isAlphanum] at hstart ⊢
    tauto
  have hspace : ∀ d ∈ (' ' :: rest).head?, wordChar d = false := by
    rintro d ⟨⟩
    rfl
  rw [List.cons_append, round_other hmark, readLexeme, isDigit_wordStart hstart, if_neg Bool.false_ne_true,
    if_neg fun h => hminus h.1, if_pos hstart, readWord, ← List.cons_append, List.takeWhile_run hchars hspace,
    List.dropWhile_run hchars hspace]

theorem readNumber_digits (sign : List Char) {ds : List Char} (hds : ∀ d ∈ ds, d.isDigit = true) :
    readNumber sign (ds ++ ' ' :: rest) = (.intLit ((Text.parseI64 (sign ++ ds)).getD 0), ' ' :: rest) := by
  have hspace : ∀ d ∈ (' ' :: rest).head?, d.isDigit = false := by
    rintro d ⟨⟩
    rfl
  rw [readNumber, List.takeWhile_run hds hspace, List.dropWhile_run hds hspace]

theorem round_int (n : Int64) : round (Text.showInt n.toInt ++ ' ' :: rest) = (some (.intLit n), ' ' :: rest) := by
  have hread := Text.parseI64_showInt n
  have hdigits : ∀ d ∈ Nat.toDigits 10 n.toInt.natAbs, d.isDigit = true :=
    List.all_eq_true.1 (Text.all_isDigit_toDigits _)
  obtain ⟨d, ds, hds⟩ := List.exists_cons_of_ne_nil (@Nat.toDigits_ne_nil n.toInt.natAbs 10)
  have hfirst : d.isDigit = true := hdigits d (by rw [hds]; exact List.mem_cons_self)
  unfold Text.showInt at hread ⊢
  split_ifs at hread ⊢ with hneg
  · -- the sign stands in front of a digit
    have hminus : '-' = '-' ∧ (Nat.toDigits 10 n.toInt.natAbs ++ ' ' :: rest).head?.any Char.isDigit = true :=
      ⟨rfl, by rw [hds]; exact hfirst⟩
    have hsign : ¬ Char.isDigit '-' = true := by decide
    rw [List.cons_append, round_other (by decide), readLexeme, if_neg hsign, if_pos hminus,
      readNumber_digits rest ['-'] hdigits, List.singleton_append, hread]
    rfl
  · have hmark : d ∉ marks := not_mem_marks rfl hfirst
    have hnumber := readNumber_digits rest [] hdigits
    rw [List.nil_append, hread, hds] at hnumber
    rw [hds, List.cons_append, round_other hmark, readLexeme, if_pos hfirst, ← List.cons_append, hnumber]
    rfl

theorem round_string (s : String) :
    round ((ScriptToken.stringLit s).text ++ ' ' :: rest) = (some (.stringLit s), ' ' :: rest) := by
  have htext : (ScriptToken.stringLit s).text ++ ' ' :: rest =
      '"' :: (s.toList.flatMap escape ++ '"' :: ' ' :: rest) := by simp [ScriptToken.text]
  rw [htext, round, if_neg (by decide), if_neg (by decide), if_neg (by decide), if_pos rfl, readString_escaped,
    String.ofList_toList]

theorem round_regex {pattern flags : String} (hpattern : IsPattern pattern)
    (hflags : ∀ c ∈ flags.toList, c.isAlpha = true) :
    round ((ScriptToken.regexLit pattern flags).text ++ ' ' :: rest) =
      (some (.regexLit pattern flags), ' ' :: rest) := by
  obtain ⟨hne, hclosed⟩ := hpattern
  have htext : (ScriptToken.regexLit pattern flags).text ++ ' ' :: rest =
      '/' :: (pattern.toList ++ '/' :: (flags.toList ++ ' ' :: rest)) := by simp [ScriptToken.text]
  have hhead : ¬ (pattern.toList ++ '/' :: (flags.toList ++ ' ' :: rest)).head? = some '/' := by
    intro hhead
    cases hlist : pattern.toList with
    | nil => exact hne (String.toList_inj.1 hlist)
    | cons c s =>
      rw [hlist, List.cons_append, List.head?_cons, Option.some_inj] at hhead
      rw [hlist, hhead] at hclosed
      cases hclosed
  have hspace : ∀ d ∈ (' ' :: rest).head?, d.isAlpha = false := by
    rintro d ⟨⟩
    rfl
  rw [htext, round, if_neg (by decide), if_neg (by decide), if_pos rfl, readComment, if_neg hhead, readPattern,
    readRegex_closed hclosed]
  simp only [List.takeWhile_run hflags hspace, List.dropWhile_run hflags hspace, String.ofList_toList]

end Rounds

theorem keyword_word {k : String} (h : k ∈ keywords) :
    ∃ c w, k.toList = c :: w ∧ wordStart c = true ∧ ∀ d ∈ w, wordChar d = true := by
  simp only [keywords, List.mem_cons, List.not_mem_nil, or_false] at h
  rcases h with rfl | rfl | rfl | rfl | rfl | rfl | rfl | rfl | rfl | rfl | rfl | rfl | rfl | rfl | rfl <;>
    exact ⟨_, _, rfl, rfl, List.all_eq_true.1 rfl⟩

/-- **A round reads a token from its text.** -/
theorem round_text {t : ScriptToken} (h : t.Readable) (rest : List Char) :
    round (t.text ++ ' ' :: rest) = (some t, ' ' :: rest) := by
  cases t with
  | keyword k =>
    obtain ⟨c, w, hk, hstart, hw⟩ := keyword_word h
    have hmem : String.ofList k.toList ∈ keywords := by rwa [String.ofList_toList]
    rw [ScriptToken.text, hk, round_word rest hstart hw, ← hk, wordToken, if_pos hmem, String.ofList_toList]
  | identifier s =>
    obtain ⟨⟨c, w, hs, hstart, hw⟩, hnot⟩ := h
    have hmem : String.ofList s.toList ∉ keywords := by rwa [String.ofList_toList]
    rw [ScriptToken.text, hs, round_word rest hstart hw, ← hs, wordToken, if_neg hmem, String.ofList_toList]
  | stringLit s => exact round_string rest s
  | intLit n => exact round_int rest n
  | regexLit pattern flags => exact round_regex rest h.1 h.2
  | eof => exact h.elim
  | _ => rfl

theorem text_ne_nil {t : ScriptToken} (h : t.Readable) : t.text ≠ [] := by
  intro hnil
  have hround := round_text h []
  rw [hnil, List.nil_append] at hround
  cases hround

/-- **The tokens of a printed list of tokens.** -/
theorem tokenize_printed {ts : List ScriptToken} (h : ∀ t ∈ ts, t.Readable) :
    tokenize (printTokens ts) = .ok (ts ++ [.eof]) := by
  rw [tokenize_iff]
  induction ts with
  | nil => exact .nil
  | cons t ts ih =>
    obtain ⟨ht, hts⟩ := List.forall_mem_cons.1 h
    have htext : printTokens (t :: ts) = t.text ++ ' ' :: printTokens ts := by simp [printTokens]
    have hne : t.text ++ ' ' :: printTokens ts ≠ [] := by simp
    rw [htext]
    exact .cons hne (congrArg Except.ok (round_text ht _)) (.cons (List.cons_ne_nil _ _) rfl (ih hts))

/-! ## Reading the tokens of a rule -/

section Parsing

variable {rest : List ScriptToken} {fuel : ℕ}

@[simp] theorem peek_cons (t : ScriptToken) (ts : List ScriptToken) : peek (t :: ts) = t := rfl

theorem advance_cons (t : ScriptToken) {ts : List ScriptToken} (h : ts ≠ []) : advance (t :: ts) = (t, ts) := by
  cases ts with
  | nil => exact absurd rfl h
  | cons u ts => rfl

theorem skip_cons (t : ScriptToken) {ts : List ScriptToken} (h : ts ≠ []) : skip t (t :: ts) = ts := by
  rw [skip, peek_cons, if_pos rfl, advance_cons t h]

theorem skip_cons_of_ne {t u : ScriptToken} (h : u ≠ t) (ts : List ScriptToken) : skip t (u :: ts) = u :: ts := by
  rw [skip, peek_cons, if_neg h]

/-- The first token of a value ends no list. -/
theorem Value.tokens_cons (v : Value) : ∃ t ts, v.tokens = t :: ts ∧ ¬ (t = .rbracket ∨ t = .eof) := by
  cases v with
  | str s => exact ⟨_, _, rfl, by simp⟩
  | int n => exact ⟨_, _, rfl, by simp⟩
  | list items => exact ⟨_, _, rfl, by simp⟩
  | regex pattern => exact ⟨_, _, rfl, by simp⟩
  | bool b => exact ⟨_, _, rfl, by simp⟩

mutual

theorem parseValue_tokens (fuel : ℕ) (v : Value) {rest : List ScriptToken} (hrest : rest ≠ [])
    (h : 2 * v.tokens.length ≤ fuel) :
    parseValue fuel (v.tokens ++ rest) = .ok (v, rest) := by
  obtain ⟨t, ts, htokens, -⟩ := v.tokens_cons
  obtain ⟨fuel, rfl⟩ : ∃ k, fuel = k + 1 := ⟨fuel - 1, by
    rw [htokens, List.length_cons] at h
    omega⟩
  match v with
  | .str s =>
    rw [Value.tokens, List.singleton_append, parseValue, advance_cons _ hrest]
    rfl
  | .int n =>
    rw [Value.tokens, List.singleton_append, parseValue, advance_cons _ hrest]
    rfl
  | .regex pattern =>
    rw [Value.tokens, List.singleton_append, parseValue, advance_cons _ hrest]
    rfl
  | .bool true =>
    rw [Value.tokens, List.singleton_append, parseValue, advance_cons _ hrest]
    rfl
  | .bool false =>
    rw [Value.tokens, List.singleton_append, parseValue, advance_cons _ hrest]
    rfl
  | .list items =>
    have hlist : (Value.list items).tokens = .lbracket :: (itemTokens items ++ [.rbracket]) := by rw [Value.tokens]
    rw [hlist, List.length_cons, List.length_append, List.length_singleton] at h
    have htail : itemTokens items ++ .rbracket :: rest ≠ [] := by simp
    have hitems : parseItems fuel (itemTokens items ++ .rbracket :: rest) = .ok (items, .rbracket :: rest) :=
      parseItems_tokens fuel items (by omega)
    rw [hlist, List.cons_append, List.append_assoc, List.singleton_append, parseValue, advance_cons _ htail, if_pos rfl,
      hitems]
    simp only [Except.map, skip_cons _ hrest]

theorem parseItems_tokens (fuel : ℕ) (items : List Value) {rest : List ScriptToken}
    (h : 2 * (itemTokens items).length + 1 ≤ fuel) :
    parseItems fuel (itemTokens items ++ .rbracket :: rest) = .ok (items, .rbracket :: rest) := by
  obtain ⟨fuel, rfl⟩ : ∃ k, fuel = k + 1 := ⟨fuel - 1, by omega⟩
  match items with
  | [] => rw [itemTokens, List.nil_append, parseItems, peek_cons, if_pos (Or.inl rfl)]
  | [v] =>
    obtain ⟨t, ts, htokens, hfirst⟩ := v.tokens_cons
    have hitem : itemTokens [v] = v.tokens := by rw [itemTokens]
    rw [hitem] at h ⊢
    have hpeek : peek (v.tokens ++ .rbracket :: rest) = t := by rw [htokens]; rfl
    have hlength : v.tokens.length = ts.length + 1 := by rw [htokens, List.length_cons]
    have hvalue : parseValue fuel (v.tokens ++ .rbracket :: rest) = .ok (v, .rbracket :: rest) :=
      parseValue_tokens fuel v (by simp) (by omega)
    obtain ⟨fuel, rfl⟩ : ∃ k, fuel = k + 1 := ⟨fuel - 1, by omega⟩
    rw [parseItems, hpeek, if_neg hfirst, hvalue]
    simp only [Except.bind, skip_cons_of_ne (show ScriptToken.rbracket ≠ .comma by decide), parseItems, peek_cons,
      true_or, if_true, Except.map]
  | v :: w :: items =>
    obtain ⟨t, ts, htokens, hfirst⟩ := v.tokens_cons
    have hitem : itemTokens (v :: w :: items) = v.tokens ++ .comma :: itemTokens (w :: items) := by rw [itemTokens]
    rw [hitem, List.length_append, List.length_cons] at h
    have hlength : v.tokens.length = ts.length + 1 := by rw [htokens, List.length_cons]
    have hpeek : peek (v.tokens ++ .comma :: (itemTokens (w :: items) ++ .rbracket :: rest)) = t := by
      rw [htokens]
      rfl
    have hvalue : parseValue fuel (v.tokens ++ .comma :: (itemTokens (w :: items) ++ .rbracket :: rest)) =
        .ok (v, .comma :: (itemTokens (w :: items) ++ .rbracket :: rest)) :=
      parseValue_tokens fuel v (by simp) (by omega)
    have hitems : parseItems fuel (itemTokens (w :: items) ++ .rbracket :: rest) =
        .ok (w :: items, .rbracket :: rest) :=
      parseItems_tokens fuel (w :: items) (by omega)
    rw [hitem, List.append_assoc, List.cons_append, parseItems, hpeek, if_neg hfirst, hvalue]
    simp only [Except.bind, skip_cons _ (show itemTokens (w :: items) ++ .rbracket :: rest ≠ [] by simp), hitems,
      Except.map]

end

theorem parseOperator_token {op : Operator} {t : ScriptToken} (h : op.token = some t) (hrest : rest ≠ []) :
    parseOperator (t :: rest) = .ok (op, rest) := by
  rw [parseOperator, advance_cons t hrest]
  cases op <;> cases h <;> rfl

/-- The operators of the condition have a syntax. -/
def Condition.Spoken (c : Condition) : Prop := ∀ op ∈ c.operators, op.token.isSome

theorem parseSingle_tokens {c : Condition} (hc : Atom c) (hop : c.Spoken) (hrest : rest ≠ [])
    (h : c.tokens.length ≤ fuel) : parseSingleCondition fuel (c.tokens ++ rest) = .ok (c, rest) := by
  induction hc generalizing fuel with
  | @compare field op value hfield hvalue =>
    obtain ⟨t, ht⟩ := Option.isSome_iff_exists.1 (hop op List.mem_cons_self)
    have htokens : (Condition.compare field op value).tokens ++ rest =
        .identifier field :: t :: (value.tokens ++ rest) := by
      rw [Condition.tokens, ht]
      rfl
    obtain ⟨fuel, rfl⟩ : ∃ k, fuel = k + 1 := ⟨fuel - 1, by
      rw [Condition.tokens, List.length_cons] at h
      omega⟩
    have hne : value.tokens ++ rest ≠ [] := by simp [hrest]
    have hvalue : parseValue (room (value.tokens ++ rest)) (value.tokens ++ rest) = .ok (value, rest) := by
      refine parseValue_tokens _ value hrest ?_
      rw [room, List.length_append]
      omega
    rw [htokens, parseSingleCondition, peek_cons, if_neg (by simp), if_neg (by simp), parseField,
      advance_cons _ (List.cons_ne_nil _ _)]
    simp only [Except.bind, parseOperator_token ht hne, hvalue, Except.map]
  | @payloadMatch pattern ci hpattern =>
    obtain ⟨fuel, rfl⟩ : ∃ k, fuel = k + 1 := ⟨fuel - 1, by
      rw [Condition.tokens, List.length_cons] at h
      omega⟩
    obtain ⟨t, rest, rfl⟩ := List.exists_cons_of_ne_nil hrest
    cases ci <;> rfl
  | @not c hc ih =>
    rw [Condition.tokens, List.length_cons] at h
    obtain ⟨fuel, rfl⟩ : ∃ k, fuel = k + 1 := ⟨fuel - 1, by omega⟩
    have hne : c.tokens ++ rest ≠ [] := by simp [hrest]
    rw [Condition.tokens, List.cons_append, parseSingleCondition, peek_cons, if_pos rfl, advance_cons _ hne,
      ih hop (by omega)]
    rfl

/-- The number of its `and` and `or`. -/
def Condition.links : Condition → ℕ
  | and left _ => left.links + 1
  | or left _ => left.links + 1
  | _ => 0

theorem Condition.links_lt (c : Condition) : c.links ≤ c.tokens.length := by
  induction c with
  | and left right ih _ =>
    rw [links, tokens, List.length_append, List.length_cons]
    omega
  | or left right ih _ =>
    rw [links, tokens, List.length_append, List.length_cons]
    omega
  | _ => exact Nat.zero_le _

theorem Atom.links_eq {c : Condition} (h : Atom c) : c.links = 0 := by
  cases h <;> rfl

theorem spoken_append {c d : Condition} (h : ∀ op ∈ c.operators ++ d.operators, op.token.isSome) :
    c.Spoken ∧ d.Spoken := List.forall_mem_append.1 h

/-- What stands behind an `and` or `or` is read with the room of a round. -/
theorem parseSingle_behind (t : ScriptToken) {d : Condition} (hd : Atom d) (hop : d.Spoken) (hrest : rest ≠ []) :
    parseSingleCondition (room (t :: (d.tokens ++ rest))) (d.tokens ++ rest) = .ok (d, rest) := by
  refine parseSingle_tokens hd hop hrest ?_
  rw [room, List.length_cons, List.length_append]
  omega

/-- A chain is read link by link, from the left. -/
theorem parseChain_tokens {c : Condition} (hc : Chain c) (hop : c.Spoken) (hrest : rest ≠ []) {enough : ℕ}
    (h : c.tokens.length ≤ enough) (k : ℕ) :
    ((parseSingleCondition enough (c.tokens ++ rest)).bind fun p => conditionLoop (k + c.links) p.1 p.2) =
      conditionLoop k c rest := by
  induction hc generalizing rest k with
  | atom ha =>
    rw [parseSingle_tokens ha hop hrest h, ha.links_eq]
    rfl
  | @and c d hc hd ih =>
    obtain ⟨hopc, hopd⟩ := spoken_append hop
    rw [Condition.tokens, List.length_append, List.length_cons] at h
    have htail : d.tokens ++ rest ≠ [] := by simp [hrest]
    rw [Condition.tokens, List.append_assoc, List.cons_append, Condition.links, Nat.add_comm c.links 1, ← Nat.add_assoc,
      ih hopc (List.cons_ne_nil _ _) (by omega), conditionLoop, peek_cons, if_pos rfl, advance_cons _ htail,
      parseSingle_behind _ hd hopd hrest]
    rfl
  | @or c d hc hd ih =>
    obtain ⟨hopc, hopd⟩ := spoken_append hop
    rw [Condition.tokens, List.length_append, List.length_cons] at h
    have htail : d.tokens ++ rest ≠ [] := by simp [hrest]
    rw [Condition.tokens, List.append_assoc, List.cons_append, Condition.links, Nat.add_comm c.links 1, ← Nat.add_assoc,
      ih hopc (List.cons_ne_nil _ _) (by omega), conditionLoop, peek_cons, if_neg (by simp), if_pos rfl,
      advance_cons _ htail, parseSingle_behind _ hd hopd hrest]
    rfl

theorem parseConditions_tokens {c : Condition} (hc : Chain c) (hop : c.Spoken) (rest : List ScriptToken) :
    parseConditions (c.tokens ++ .rbrace :: rest) = .ok (c, .rbrace :: rest) := by
  have hlinks := c.links_lt
  have hroom : room (c.tokens ++ .rbrace :: rest) = 2 * (c.tokens.length + (rest.length + 1)) + 2 := by
    rw [room, List.length_append, List.length_cons]
  obtain ⟨k, hk⟩ : ∃ k, room (c.tokens ++ .rbrace :: rest) = k + 1 + c.links :=
    ⟨room (c.tokens ++ .rbrace :: rest) - 1 - c.links, by omega⟩
  have hchain := parseChain_tokens hc hop (List.cons_ne_nil ScriptToken.rbrace rest)
    (show c.tokens.length ≤ room (c.tokens ++ .rbrace :: rest) by omega) (k + 1)
  rw [← hk] at hchain
  rw [parseConditions, hchain, conditionLoop, peek_cons, if_neg (by simp), if_neg (by simp)]

theorem alertLoop_tokens (k : ℕ) (severity msg : String) (rest : List ScriptToken) :
    alertLoop (k + 3) "medium" "" (.identifier "severity" :: .colon :: .stringLit severity :: .comma ::
      .identifier "msg" :: .colon :: .stringLit msg :: .rparen :: rest) = .ok ((severity, msg), .rparen :: rest) := rfl

theorem parseAction_tokens (a : Action) (hrest : rest ≠ []) : parseAction (a.tokens ++ rest) = .ok (a, rest) := by
  obtain ⟨t, rest, rfl⟩ := List.exists_cons_of_ne_nil hrest
  cases a with
  | alert severity msg =>
    have halert := alertLoop_tokens (2 * rest.length + 19) severity msg (t :: rest)
    have hroom : room (.lparen :: .identifier "severity" :: .colon :: .stringLit severity :: .comma ::
        .identifier "msg" :: .colon :: .stringLit msg :: .rparen :: t :: rest) = 2 * rest.length + 19 + 3 := by
      simp only [room, List.length_cons]
      omega
    simp only [Action.tokens, List.cons_append, List.nil_append, parseAction, advance, if_true, hroom]
    rw [skip_cons _ (List.cons_ne_nil _ _), halert]
    simp only [Except.map, skip_cons _ (List.cons_ne_nil _ _)]
  | log message => rfl
  | drop => rfl

theorem Action.tokens_cons (a : Action) :
    ∃ t ts, a.tokens = t :: ts ∧ ¬ (t = .rbrace ∨ t = .eof) := by
  cases a with
  | alert severity msg => exact ⟨_, _, rfl, by simp⟩
  | log message => exact ⟨_, _, rfl, by simp⟩
  | drop => exact ⟨_, _, rfl, by simp⟩

theorem parseActions_tokens (as : List Action) (rest : List ScriptToken) (h : as.length < fuel) :
    parseActions fuel (as.flatMap Action.tokens ++ .rbrace :: rest) = .ok (as, .rbrace :: rest) := by
  induction as generalizing fuel with
  | nil =>
    obtain ⟨fuel, rfl⟩ : ∃ k, fuel = k + 1 := ⟨fuel - 1, by omega⟩
    rw [List.flatMap_nil, List.nil_append, parseActions, peek_cons, if_pos (Or.inl rfl)]
  | cons a as ih =>
    rw [List.length_cons] at h
    obtain ⟨fuel, rfl⟩ : ∃ k, fuel = k + 1 := ⟨fuel - 1, by omega⟩
    obtain ⟨t, ts, htokens, hfirst⟩ := a.tokens_cons
    have hpeek : peek (a.tokens ++ (as.flatMap Action.tokens ++ .rbrace :: rest)) = t := by
      rw [htokens]
      rfl
    rw [List.flatMap_cons, List.append_assoc, parseActions, hpeek, if_neg hfirst, parseAction_tokens a (by simp)]
    simp only [Except.bind, ih (show as.length < fuel by omega), Except.map]

theorem length_le_flatMap_tokens (as : List Action) : as.length ≤ (as.flatMap Action.tokens).length := by
  induction as with
  | nil => exact Nat.le_refl _
  | cons a as ih =>
    obtain ⟨t, ts, htokens, -⟩ := a.tokens_cons
    rw [List.flatMap_cons, List.length_append, htokens, List.length_cons, List.length_cons]
    omega

theorem fromStr_word (e : EventType) : EventType.fromStr e.word = .ok e := by
  cases e <;> rfl

theorem expectKeyword_cons (kw : String) (hrest : rest ≠ []) : expectKeyword kw (.keyword kw :: rest) = .ok rest := by
  rw [expectKeyword, peek_cons, if_pos rfl, advance_cons _ hrest]

theorem expectLBrace_cons (hrest : rest ≠ []) : expectLBrace (.lbrace :: rest) = .ok rest := by
  rw [expectLBrace, peek_cons, if_pos rfl, advance_cons _ hrest]

theorem expectRBrace_cons (hrest : rest ≠ []) : expectRBrace (.rbrace :: rest) = .ok rest := by
  rw [expectRBrace, peek_cons, if_pos rfl, advance_cons _ hrest]

theorem parseRule_tokens {r : Rule} (hwritten : r.Written) (hchain : Chain r.condition) (hrest : rest ≠ []) :
    parseRule (r.tokens ++ rest) = .ok (r, rest) := by
  have hcondition := parseConditions_tokens hchain hwritten.operators
    (.keyword "then" :: .lbrace :: (r.actions.flatMap Action.tokens ++ .rbrace :: .rbrace :: rest))
  have hactions : parseActions (room (r.actions.flatMap Action.tokens ++ .rbrace :: .rbrace :: rest))
      (r.actions.flatMap Action.tokens ++ .rbrace :: .rbrace :: rest) =
        .ok (r.actions, .rbrace :: .rbrace :: rest) := by
    refine parseActions_tokens r.actions _ ?_
    have := length_le_flatMap_tokens r.actions
    rw [room, List.length_append]
    omega
  have hname (ts : List ScriptToken) (hts : ts ≠ []) : parseName (.stringLit r.name :: ts) = .ok (r.name, ts) := by
    rw [parseName, advance_cons _ hts]
  have hevent (ts : List ScriptToken) (hts : ts ≠ []) :
      parseEventType (.identifier r.eventType.word :: ts) = .ok (r.eventType, ts) := by
    rw [parseEventType, advance_cons _ hts]
    simp only [fromStr_word, Except.map]
  have htokens : r.tokens ++ rest = .keyword "rule" :: .stringLit r.name :: .lbrace :: .keyword "on" ::
      .identifier r.eventType.word :: .keyword "if" :: .lbrace :: (r.condition.tokens ++ .rbrace ::
        .keyword "then" :: .lbrace :: (r.actions.flatMap Action.tokens ++ .rbrace :: .rbrace :: rest)) := by
    simp [Rule.tokens]
  have hrule : Rule.mk r.name r.eventType r.condition r.actions true = r := by rw [← hwritten.enabled]
  rw [htokens, parseRule]
  simp only [expectKeyword_cons, hname, expectLBrace_cons, hevent, hcondition, expectRBrace_cons, hactions, hrest, bind,
    Except.bind, pure, Except.pure, ne_eq, reduceCtorEq, not_false_eq_true, List.append_eq_nil_iff, and_false, hrule]

end Parsing

/-! ## The tokens of a rule are read -/

theorem readable_keyword {k : String} (h : k ∈ keywords) : (ScriptToken.keyword k).Readable := h

theorem readable_token {op : Operator} {t : ScriptToken} (h : op.token = some t) : t.Readable := by
  cases op <;> cases h <;> first | trivial | exact readable_keyword (by decide)

mutual

theorem readable_value (v : Value) (h : v.Plain) : ∀ t ∈ v.tokens, t.Readable := by
  match v with
  | .str s =>
    rw [Value.tokens]
    exact List.forall_mem_singleton.2 trivial
  | .int n =>
    rw [Value.tokens]
    exact List.forall_mem_singleton.2 trivial
  | .bool b =>
    rw [Value.tokens]
    refine List.forall_mem_singleton.2 ?_
    cases b
    · exact readable_keyword (k := "false") (by decide)
    · exact readable_keyword (k := "true") (by decide)
  | .regex pattern =>
    rw [Value.Plain] at h
    rw [Value.tokens]
    exact List.forall_mem_singleton.2 ⟨h, fun c hc => by cases hc⟩
  | .list items =>
    rw [Value.Plain] at h
    rw [Value.tokens]
    refine List.forall_mem_cons.2 ⟨trivial, List.forall_mem_append.2 ⟨readable_items items h, ?_⟩⟩
    exact List.forall_mem_singleton.2 trivial

theorem readable_items (items : List Value) (h : PlainItems items) : ∀ t ∈ itemTokens items, t.Readable := by
  match items with
  | [] =>
    rw [itemTokens]
    exact List.forall_mem_nil _
  | [v] =>
    rw [PlainItems] at h
    rw [itemTokens]
    exact readable_value v h.1
  | v :: w :: items =>
    rw [PlainItems] at h
    rw [itemTokens]
    refine List.forall_mem_append.2 ⟨readable_value v h.1, List.forall_mem_cons.2 ⟨trivial, ?_⟩⟩
    exact readable_items (w :: items) h.2

end

theorem readable_atom {c : Condition} (h : Atom c) (hop : c.Spoken) : ∀ t ∈ c.tokens, t.Readable := by
  induction h with
  | @compare field op value hfield hvalue =>
    obtain ⟨t, ht⟩ := Option.isSome_iff_exists.1 (hop op List.mem_cons_self)
    rw [Condition.tokens, ht]
    refine List.forall_mem_cons.2 ⟨hfield, List.forall_mem_append.2 ⟨?_, readable_value value hvalue⟩⟩
    exact List.forall_mem_singleton.2 (readable_token ht)
  | @payloadMatch pattern ci hpattern =>
    have hflags : ∀ c ∈ (if ci then "i" else "").toList, c.isAlpha = true := by
      cases ci
      · exact fun c hc => by cases hc
      · exact List.forall_mem_singleton.2 rfl
    have hpayload : "payload" ∈ keywords := by decide
    have hmatch : "match" ∈ keywords := by decide
    rw [Condition.tokens]
    refine List.forall_mem_cons.2 ⟨hpayload, List.forall_mem_cons.2 ⟨hmatch, ?_⟩⟩
    exact List.forall_mem_singleton.2 ⟨hpattern, hflags⟩
  | not hc ih => exact List.forall_mem_cons.2 ⟨readable_keyword (by decide), ih hop⟩

theorem readable_chain {c : Condition} (h : Chain c) (hop : c.Spoken) : ∀ t ∈ c.tokens, t.Readable := by
  induction h with
  | atom ha => exact readable_atom ha hop
  | and hc hd ih =>
    obtain ⟨hopc, hopd⟩ := spoken_append hop
    refine List.forall_mem_append.2 ⟨ih hopc, List.forall_mem_cons.2 ⟨readable_keyword (by decide), ?_⟩⟩
    exact readable_atom hd hopd
  | or hc hd ih =>
    obtain ⟨hopc, hopd⟩ := spoken_append hop
    refine List.forall_mem_append.2 ⟨ih hopc, List.forall_mem_cons.2 ⟨readable_keyword (by decide), ?_⟩⟩
    exact readable_atom hd hopd

theorem readable_action (a : Action) : ∀ t ∈ a.tokens, t.Readable := by
  have hseverity : IsField "severity" := ⟨⟨_, _, rfl, rfl, List.all_eq_true.1 rfl⟩, by decide⟩
  have hmsg : IsField "msg" := ⟨⟨_, _, rfl, rfl, List.all_eq_true.1 rfl⟩, by decide⟩
  have halert : "alert" ∈ keywords := by decide
  have hlog : "log" ∈ keywords := by decide
  have hdrop : "drop" ∈ keywords := by decide
  cases a <;> simp [Action.tokens, ScriptToken.Readable, *]

theorem isField_word (e : EventType) : IsField e.word := by
  cases e <;> exact ⟨⟨_, _, rfl, rfl, List.all_eq_true.1 rfl⟩, by decide⟩

theorem readable_rule {r : Rule} (hwritten : r.Written) (hchain : Chain r.condition) : ∀ t ∈ r.tokens, t.Readable := by
  have hcondition := readable_chain hchain hwritten.operators
  have hactions : ∀ t ∈ r.actions.flatMap Action.tokens, t.Readable := by
    intro t ht
    obtain ⟨a, -, ht⟩ := List.mem_flatMap.1 ht
    exact readable_action a t ht
  intro t ht
  simp only [Rule.tokens, List.mem_cons, List.mem_append, List.not_mem_nil, or_false] at ht
  rcases ht with rfl | rfl | rfl | rfl | rfl | rfl | rfl | ht | rfl | rfl | rfl | ht | rfl | rfl
  · exact readable_keyword (by decide)
  · trivial
  · trivial
  · exact readable_keyword (by decide)
  · exact isField_word r.eventType
  · exact readable_keyword (by decide)
  · trivial
  · exact hcondition t ht
  · trivial
  · exact readable_keyword (by decide)
  · trivial
  · exact hactions t ht
  · trivial
  · trivial

/-! ## Scripts -/

theorem parseAll_tokens {rules : List Rule} (hchain : ∀ r ∈ rules, Chain r.condition)
    (hwritten : ∀ r ∈ rules, r.Written) {fuel : ℕ} (h : rules.length < fuel) :
    parseAll fuel (rules.flatMap Rule.tokens ++ [.eof]) = .ok rules := by
  induction rules generalizing fuel with
  | nil =>
    obtain ⟨fuel, rfl⟩ : ∃ k, fuel = k + 1 := ⟨fuel - 1, by omega⟩
    rfl
  | cons r rules ih =>
    obtain ⟨hc, hchain⟩ := List.forall_mem_cons.1 hchain
    obtain ⟨hw, hwritten⟩ := List.forall_mem_cons.1 hwritten
    rw [List.length_cons] at h
    obtain ⟨fuel, rfl⟩ : ∃ k, fuel = k + 1 := ⟨fuel - 1, by omega⟩
    have hpeek : peek (r.tokens ++ (rules.flatMap Rule.tokens ++ [.eof])) = .keyword "rule" := rfl
    rw [List.flatMap_cons, List.append_assoc, parseAll, hpeek, if_neg (by simp), if_pos rfl,
      parseRule_tokens hw hc (by simp)]
    simp only [Except.bind, ih hchain hwritten (show rules.length < fuel by omega), Except.map]

theorem length_le_rules_tokens (rules : List Rule) : rules.length ≤ (rules.flatMap Rule.tokens).length := by
  induction rules with
  | nil => exact Nat.le_refl _
  | cons r rules ih =>
    rw [List.flatMap_cons, List.length_append, Rule.tokens, List.length_cons, List.length_cons]
    omega

/-- **Printed rules are read back**: enabled rules whose operators have a syntax. -/
theorem parseScript_printed {rules : List Rule} (hchain : ∀ r ∈ rules, Chain r.condition)
    (hwritten : ∀ r ∈ rules, r.Written) : parseScript (printScript rules) = .ok rules := by
  have hreadable : ∀ t ∈ rules.flatMap Rule.tokens, t.Readable := by
    intro t ht
    obtain ⟨r, hr, ht⟩ := List.mem_flatMap.1 ht
    exact readable_rule (hwritten r hr) (hchain r hr) t ht
  have hlength := length_le_rules_tokens rules
  rw [parseScript, printScript, tokenize_printed hreadable, Except.bind]
  refine parseAll_tokens hchain hwritten ?_
  rw [room, List.length_append]
  omega

/-- A rule with a chain of two comparisons and a negated search in the payload. -/
def beacon : Rule where
  name := "C2 \"beacon\"\n"
  eventType := .network
  condition := .or (.and (.compare "dst_port" .in_ (.list [.int 4444, .list [.int (-1), .bool true]]))
    (.compare "src_ip" .match_ (.regex "10\\.\\/"))) (.not (.payloadMatch "METERP|COBALT" true))
  actions := [.alert "critical" "Custom C2", .log "a\tb", .drop]
  enabled := true

theorem chain_beacon : Chain beacon.condition := by
  have hport : IsField "dst_port" := ⟨⟨_, _, rfl, rfl, List.all_eq_true.1 rfl⟩, by decide⟩
  have hip : IsField "src_ip" := ⟨⟨_, _, rfl, rfl, List.all_eq_true.1 rfl⟩, by decide⟩
  have hlist : (Value.list [.int 4444, .list [.int (-1), .bool true]]).Plain := by simp [Value.Plain, PlainItems]
  have hregex : (Value.regex "10\\.\\/").Plain := by
    rw [Value.Plain]
    exact ⟨by decide, rfl⟩
  exact .or (.and (.atom (.compare hport hlist)) (.compare hip hregex)) (.not (.payloadMatch ⟨by decide, rfl⟩))

theorem written_beacon : beacon.Written where
  enabled := rfl
  operators := by decide

theorem parseScript_beacon : parseScript (printScript [beacon]) = .ok [beacon] :=
  parseScript_printed (List.forall_mem_singleton.2 chain_beacon) (List.forall_mem_singleton.2 written_beacon)

/-! ## What a script cannot say -/

theorem parseOperator_isSome {ts : List ScriptToken} {p : Operator × List ScriptToken} (h : parseOperator ts = .ok p) :
    p.1.token.isSome = true := by
  unfold parseOperator at h
  split at h
  case h_7 k _ =>
    split_ifs at h <;> cases h <;> rfl
  all_goals cases h
  all_goals rfl

theorem parseSingle_spoken {fuel : ℕ} {ts : List ScriptToken} {p : Condition × List ScriptToken}
    (h : parseSingleCondition fuel ts = .ok p) : p.1.Spoken := by
  induction fuel generalizing ts p with
  | zero => cases h
  | succ fuel ih =>
    rw [parseSingleCondition] at h
    split_ifs at h with hnot hpayload
    · obtain ⟨q, hq, rfl⟩ := Except.map_eq_ok.1 h
      have hinner : q.1.Spoken := ih hq
      exact hinner
    · unfold parsePayload at h
      split_ifs at h
      dsimp only at h
      split at h
      · cases h
        exact List.forall_mem_nil _
      · cases h
    · obtain ⟨field, -, h⟩ := Except.bind_eq_ok.1 h
      obtain ⟨op, hop, h⟩ := Except.bind_eq_ok.1 h
      obtain ⟨value, -, rfl⟩ := Except.map_eq_ok.1 h
      exact List.forall_mem_singleton.2 (parseOperator_isSome hop)

theorem conditionLoop_spoken {fuel : ℕ} {c : Condition} {ts : List ScriptToken} {p : Condition × List ScriptToken}
    (hc : c.Spoken) (h : conditionLoop fuel c ts = .ok p) : p.1.Spoken := by
  induction fuel generalizing c ts with
  | zero => cases h
  | succ fuel ih =>
    rw [conditionLoop] at h
    split_ifs at h with hand hor
    · obtain ⟨q, hq, h⟩ := Except.bind_eq_ok.1 h
      have hspoken : (Condition.and c q.1).Spoken := List.forall_mem_append.2 ⟨hc, parseSingle_spoken hq⟩
      exact ih hspoken h
    · obtain ⟨q, hq, h⟩ := Except.bind_eq_ok.1 h
      have hspoken : (Condition.or c q.1).Spoken := List.forall_mem_append.2 ⟨hc, parseSingle_spoken hq⟩
      exact ih hspoken h
    · cases h
      exact hc

theorem parseRule_written {ts : List ScriptToken} {p : Rule × List ScriptToken} (h : parseRule ts = .ok p) :
    p.1.Written := by
  simp only [parseRule, bind, Except.bind_eq_ok, pure, Except.pure, Except.ok.injEq] at h
  obtain ⟨_, -, _, -, _, -, _, -, _, -, _, -, _, -, condition, hcondition, _, -, _, -, _, -, _, -, _, -, _, -, rfl⟩ := h
  obtain ⟨q, hq, hloop⟩ := Except.bind_eq_ok.1 hcondition
  exact ⟨rfl, conditionLoop_spoken (parseSingle_spoken hq) hloop⟩

theorem parseAll_written {fuel : ℕ} {ts : List ScriptToken} {rules : List Rule} (h : parseAll fuel ts = .ok rules) :
    ∀ r ∈ rules, r.Written := by
  induction fuel generalizing ts rules with
  | zero => cases h
  | succ fuel ih =>
    rw [parseAll] at h
    split_ifs at h with heof hrule
    · cases h
      exact List.forall_mem_nil _
    · obtain ⟨p, hp, h⟩ := Except.bind_eq_ok.1 h
      obtain ⟨rules, hrules, rfl⟩ := Except.map_eq_ok.1 h
      exact List.forall_mem_cons.2 ⟨parseRule_written hp, ih hrules⟩
    · exact ih h

/-- **The rules of a script** are enabled, and their operators have a syntax. -/
theorem parseScript_written {src : List Char} {rules : List Rule} (h : parseScript src = .ok rules) :
    ∀ r ∈ rules, r.Written := by
  obtain ⟨ts, -, hts⟩ := Except.bind_eq_ok.1 h
  exact parseAll_written hts

/-- A comparison of the port. -/
def portRule (op : Operator) (enabled : Bool) : Rule where
  name := "port"
  eventType := .any
  condition := .compare "port" op (.int 80)
  actions := [.drop]
  enabled := enabled

theorem chain_portRule (op : Operator) (enabled : Bool) : Chain (portRule op enabled).condition :=
  .atom (.compare ⟨⟨_, _, rfl, rfl, List.all_eq_true.1 rfl⟩, by decide⟩ (by simp [Value.Plain]))

/-- No printer has its rules read back when they may be disabled, or have an operator without a syntax. -/
theorem unwritable :
    (¬ ∃ print : List Rule → List Char, ∀ rules, (∀ r ∈ rules, Chain r.condition) →
      parseScript (print rules) = .ok rules) ∧
    (∀ op ∈ [Operator.notIn, .notMatch, .contains], ∀ text, parseScript text ≠ .ok [portRule op true]) ∧
    ∀ text, parseScript text ≠ .ok [portRule .eq false] := by
  have hdisabled : ∀ text, parseScript text ≠ .ok [portRule .eq false] := fun text h => by
    have hwritten := (parseScript_written h _ List.mem_cons_self).enabled
    cases hwritten
  refine ⟨fun ⟨print, hprint⟩ => ?_, fun op hop text h => ?_, hdisabled⟩
  · exact hdisabled _ (hprint [portRule .eq false] (List.forall_mem_singleton.2 (chain_portRule .eq false)))
  · have hspoken := (parseScript_written h _ List.mem_cons_self).operators op List.mem_cons_self
    simp only [List.mem_cons, List.not_mem_nil, or_false] at hop
    rcases hop with rfl | rfl | rfl <;> cases hspoken

end ThorFirewall.Script
