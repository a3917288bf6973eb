import Mathlib
import ThorFirewall.Lib.Scanner
import ThorFirewall.Lib.Text

/-!
# ThorScript (`thor-script/src/parser.rs`)

A script is a list of rules, each with an event, a condition and actions. The tokenizer skips the characters that it
does not know. The parser skips what stands between rules; commas, colons and the parentheses of an action are optional.

- `round`, `tokenize`: the tokenizer, one token or gap after the other (`tokenize_iff`);
- `parseRule`, `parseConditions`, `parseValue`, `parseAction`: the parser;
- `parseScript`: the rules of a script.
-/

namespace ThorFirewall.Script

/-! ## Rules -/

inductive EventType
  | network
  | dns
  | http
  | tls
  | process
  | file
  | any
  deriving DecidableEq, Repr

inductive Operator
  | eq
  | ne
  | lt
  | gt
  | le
  | ge
  | in_
  | notIn
  | match_
  | notMatch
  | contains
  deriving DecidableEq, Repr

inductive Value
  | str (s : String)
  | int (n : Int64)
  | list (items : List Value)
  | regex (pattern : String)
  | bool (b : Bool)

inductive Condition
  | compare (field : String) (op : Operator) (value : Value)
  | payloadMatch (pattern : String) (caseInsensitive : Bool)
  | and (left right : Condition)
  | or (left right : Condition)
  | not (inner : Condition)
  | true

inductive Action
  | alert (severity msg : String)
  | log (message : String)
  | drop
  deriving DecidableEq, Repr

structure Rule where
  name : String
  eventType : EventType
  condition : Condition
  actions : List Action
  enabled : Bool

/-! ## Tokens -/

inductive ScriptToken
  | keyword (k : String)
  | identifier (s : String)
  | stringLit (s : String)
  | intLit (n : Int64)
  | regexLit (pattern flags : String)
  | lbrace
  | rbrace
  | lparen
  | rparen
  | lbracket
  | rbracket
  | colon
  | comma
  | plus
  | opEq
  | opNe
  | opLt
  | opGt
  | opLe
  | opGe
  | eof
  deriving DecidableEq, Repr

def keywords : List String :=
  ["rule", "on", "if", "then", "and", "or", "not", "in", "match", "alert", "log", "drop", "payload", "true", "false"]

inductive ParseError
  | expectedKeyword (kw : String) (got : ScriptToken)
  | expectedLBrace (got : ScriptToken)
  | expectedRBrace (got : ScriptToken)
  | expectedName (got : ScriptToken)
  | expectedEventType (got : ScriptToken)
  | unknownEventType (s : String)
  | expectedRegex
  | expectedMatch
  | expectedField (got : ScriptToken)
  | expectedOperator (got : ScriptToken)
  | expectedValue (got : ScriptToken)
  | expectedAction (got : ScriptToken)
  /-- Not an error of the source. -/
  | outOfFuel
  deriving DecidableEq, Repr

/-- The message of an error. `debug` is the text of a token. -/
def ParseError.message (debug : ScriptToken → String) : ParseError → String
  | expectedKeyword kw got => "Expected keyword '" ++ kw ++ "', got " ++ debug got
  | expectedLBrace got => "Expected '\x7b', got " ++ debug got
  | expectedRBrace got => "Expected '\x7d', got " ++ debug got
  | expectedName got => "Expected rule name string, got " ++ debug got
  | expectedEventType got => "Expected event type, got " ++ debug got
  | unknownEventType s => "Unknown event type: " ++ s
  | expectedRegex => "Expected regex after payload match"
  | expectedMatch => "Expected 'match' after payload"
  | expectedField got => "Expected field name, got " ++ debug got
  | expectedOperator got => "Expected operator, got " ++ debug got
  | expectedValue got => "Expected value, got " ++ debug got
  | expectedAction got => "Expected action keyword, got " ++ debug got
  | outOfFuel => ""

/-! ## The tokenizer -/

/-- The character that an escape in a string stands for. -/
def unescape : Char → Char
  | 'n' => '\n'
  | 't' => '\t'
  | c => c

/-- A string behind its opening quote, and what is behind it. Without a closing quote it goes up to the end of the
script. -/
def readString : List Char → List Char × List Char
  | [] => ([], [])
  | '"' :: s => ([], s)
  | ['\\'] => ([], [])
  | '\\' :: c :: s => ((unescape c :: (readString s).1), (readString s).2)
  | c :: s => (c :: (readString s).1, (readString s).2)

/-- A pattern behind its opening slash. A backslash stays in front of the character that it escapes. -/
def readRegex : List Char → List Char × List Char
  | [] => ([], [])
  | '/' :: s => ([], s)
  | ['\\'] => ([], [])
  | '\\' :: c :: s => ('\\' :: c :: (readRegex s).1, (readRegex s).2)
  | c :: s => (c :: (readRegex s).1, (readRegex s).2)

/-- What is behind the end of the line. -/
def afterLine (s : List Char) : List Char := (s.dropWhile (· ≠ '\n')).drop 1

def isBlank (c : Char) : Bool := c = ' ' || c = '\t' || c = '\r' || c = '\n'

def wordStart (c : Char) : Bool := c.isAlpha || c = '_'

def wordChar (c : Char) : Bool := c.isAlphanum || c = '_'

def wordToken (word : List Char) : ScriptToken :=
  if String.ofList word ∈ keywords then .keyword (String.ofList word) else .identifier (String.ofList word)

def punctuation : Char → Option ScriptToken
  | '{' => some .lbrace
  | '}' => some .rbrace
  | '(' => some .lparen
  | ')' => some .rparen
  | '[' => some .lbracket
  | ']' => some .rbracket
  | ':' => some .colon
  | ',' => some .comma
  | '+' => some .plus
  | _ => none

def readNumber (sign s : List Char) : ScriptToken × List Char :=
  (.intLit ((Text.parseI64 (sign ++ s.takeWhile Char.isDigit)).getD 0), s.dropWhile Char.isDigit)

def readWord (s : List Char) : ScriptToken × List Char := (wordToken (s.takeWhile wordChar), s.dropWhile wordChar)

def readPattern (s : List Char) : ScriptToken × List Char :=
  let body := readRegex s
  (.regexLit (String.ofList body.1) (String.ofList (body.2.takeWhile Char.isAlpha)), body.2.dropWhile Char.isAlpha)

def readComment (s : List Char) : Option ScriptToken × List Char :=
  if s.head? = some '/' then (none, afterLine s) else (some (readPattern s).1, (readPattern s).2)

/-- The operator that begins with a character, with `=` behind it or not. A single `=` is an equality, a single `!` is
skipped. -/
def operator (c : Char) (pair : Bool) : Option ScriptToken :=
  if c = '=' then some .opEq
  else if c = '!' then if pair then some .opNe else none
  else if c = '<' then some (if pair then .opLe else .opLt)
  else some (if pair then .opGe else .opGt)

def readOperator (c : Char) (s : List Char) : Option ScriptToken × List Char :=
  (operator c (s.head? = some '='), if s.head? = some '=' then s.tail else s)

/-- A number, a word, or a single character. -/
def readLexeme (c : Char) (s : List Char) : Option ScriptToken × List Char :=
  if c.isDigit then (some (readNumber [] (c :: s)).1, (readNumber [] (c :: s)).2)
  else if c = '-' ∧ s.head?.any Char.isDigit then (some (readNumber ['-'] s).1, (readNumber ['-'] s).2)
  else if wordStart c then (some (readWord (c :: s)).1, (readWord (c :: s)).2)
  else (punctuation c, s)

/-- One round of the tokenizer: a token or none, and the rest. -/
def round : List Char → Option ScriptToken × List Char
  | [] => (none, [])
  | c :: s =>
    if isBlank c then (none, s)
    else if c = '#' then (none, afterLine s)
    else if c = '/' then readComment s
    else if c = '"' then (some (.stringLit (String.ofList (readString s).1)), (readString s).2)
    else if c = '=' ∨ c = '!' ∨ c = '<' ∨ c = '>' then readOperator c s
    else readLexeme c s

def tokenize (src : List Char) : Except ParseError (List ScriptToken) :=
  (Scanner.tokens (fun s => .ok (round s)) src).map (· ++ [.eof])

theorem length_readString_le (s : List Char) : (readString s).2.length ≤ s.length := by
  fun_induction readString s <;> simp only [List.length_cons, List.length_nil] at * <;> omega

theorem length_readRegex_le (s : List Char) : (readRegex s).2.length ≤ s.length := by
  fun_induction readRegex s <;> simp only [List.length_cons, List.length_nil] at * <;> omega

theorem length_afterLine_le (s : List Char) : (afterLine s).length ≤ s.length := by
  have hdrop := (List.dropWhile_suffix (· ≠ '\n') (l := s)).length_le
  rw [afterLine, List.length_drop]
  omega

theorem length_dropWhile_lt {p : Char → Bool} {c : Char} (hc : p c = true) (s : List Char) :
    ((c :: s).dropWhile p).length < (c :: s).length := by
  rw [List.dropWhile_cons_of_pos hc]
  exact Nat.lt_succ_of_le (List.dropWhile_suffix p).length_le

theorem length_readComment_le (s : List Char) : (readComment s).2.length ≤ s.length := by
  unfold readComment
  split_ifs
  · exact length_afterLine_le s
  · have hregex := length_readRegex_le s
    have hflags := (List.dropWhile_suffix Char.isAlpha (l := (readRegex s).2)).length_le
    exact hflags.trans hregex

theorem length_readOperator_le (c : Char) (s : List Char) : (readOperator c s).2.length ≤ s.length := by
  unfold readOperator
  split_ifs
  · exact s.tail_suffix.length_le
  · exact Nat.le_refl _

theorem length_readLexeme_lt (c : Char) (s : List Char) : (readLexeme c s).2.length < (c :: s).length := by
  unfold readLexeme
  split_ifs with hdigit hminus hword
  · exact length_dropWhile_lt hdigit s
  · exact Nat.lt_succ_of_le (List.dropWhile_suffix Char.isDigit).length_le
  · have hchar : wordChar c = true := by
      simp only [wordStart, wordChar, Bool.or_eq_true, Char.isAlphanum] at hword ⊢
      tauto
    exact length_dropWhile_lt hchar s
  · exact Nat.lt_succ_self _

/-- A round takes a character at least. -/
theorem round_shrinks : Scanner.Shrinks fun s => (.ok (round s) : Except ParseError _) := by
  intro s t rest hne h
  obtain ⟨c, s, rfl⟩ := List.exists_cons_of_ne_nil hne
  have hrest : (round (c :: s)).2 = rest := congrArg Prod.snd (Except.ok.inj h)
  subst hrest
  rw [round]
  split_ifs
  · exact Nat.lt_succ_self _
  · exact Nat.lt_succ_of_le (length_afterLine_le s)
  · exact Nat.lt_succ_of_le (length_readComment_le s)
  · exact Nat.lt_succ_of_le (length_readString_le s)
  · exact Nat.lt_succ_of_le (length_readOperator_le c s)
  · exact length_readLexeme_lt c s

/-- **The tokens of a script** are those of the rounds. -/
theorem tokenize_iff {src : List Char} {ts : List ScriptToken} :
    tokenize src = .ok (ts ++ [.eof]) ↔ Scanner.Rounds (fun s => (.ok (round s) : Except ParseError _)) src ts := by
  rw [tokenize, Except.map_eq_ok, ← Scanner.tokens_eq_ok_iff round_shrinks]
  simp only [List.append_cancel_right_eq, exists_eq_right]

/-! ## The parser -/

def peek (ts : List ScriptToken) : ScriptToken := ts.headD .eof

/-- The first token, and the tokens behind it. The parser does not go beyond the last token. -/
def advance : List ScriptToken → ScriptToken × List ScriptToken
  | [] => (.eof, [])
  | [t] => (t, [t])
  | t :: ts => (t, ts)

/-- Behind a token that may be missing. -/
def skip (t : ScriptToken) (ts : List ScriptToken) : List ScriptToken := if peek ts = t then (advance ts).2 else ts

/-- The rounds that a loop over these tokens needs at most. -/
def room (ts : List ScriptToken) : ℕ := 2 * ts.length + 2

abbrev Parsed (α : Type) := Except ParseError (α × List ScriptToken)

def EventType.fromStr (s : String) : Except ParseError EventType :=
  if s = "network" then .ok .network
  else if s = "dns" then .ok .dns
  else if s = "http" then .ok .http
  else if s = "tls" then .ok .tls
  else if s = "process" then .ok .process
  else if s = "file" then .ok .file
  else if s = "any" then .ok .any
  else .error (.unknownEventType s)

def expectKeyword (kw : String) (ts : List ScriptToken) : Except ParseError (List ScriptToken) :=
  if peek ts = .keyword kw then .ok (advance ts).2 else .error (.expectedKeyword kw (peek ts))

def expectLBrace (ts : List ScriptToken) : Except ParseError (List ScriptToken) :=
  if peek ts = .lbrace then .ok (advance ts).2 else .error (.expectedLBrace (peek ts))

def expectRBrace (ts : List ScriptToken) : Except ParseError (List ScriptToken) :=
  if peek ts = .rbrace then .ok (advance ts).2 else .error (.expectedRBrace (peek ts))

def parseOperator (ts : List ScriptToken) : Parsed Operator :=
  match (advance ts).1 with
  | .opEq => .ok (.eq, (advance ts).2)
  | .opNe => .ok (.ne, (advance ts).2)
  | .opLt => .ok (.lt, (advance ts).2)
  | .opGt => .ok (.gt, (advance ts).2)
  | .opLe => .ok (.le, (advance ts).2)
  | .opGe => .ok (.ge, (advance ts).2)
  | .keyword k =>
    if k = "in" then .ok (.in_, (advance ts).2)
    else if k = "match" then .ok (.match_, (advance ts).2)
    else .error (.expectedOperator (.keyword k))
  | other => .error (.expectedOperator other)

/-- The value of a single token. -/
def tokenValue : ScriptToken → Except ParseError Value
  | .stringLit s => .ok (.str s)
  | .intLit n => .ok (.int n)
  | .keyword k =>
    if k = "true" then .ok (.bool true)
    else if k = "false" then .ok (.bool false)
    else .error (.expectedValue (.keyword k))
  | .regexLit p _ => .ok (.regex p)
  | other => .error (.expectedValue other)

mutual

def parseValue : ℕ → List ScriptToken → Parsed Value
  | 0, _ => .error .outOfFuel
  | fuel + 1, ts =>
    if (advance ts).1 = .lbracket then
      (parseItems fuel (advance ts).2).map fun p => (.list p.1, skip .rbracket p.2)
    else (tokenValue (advance ts).1).map (·, (advance ts).2)

/-- The loop over the values of a list. -/
def parseItems : ℕ → List ScriptToken → Parsed (List Value)
  | 0, _ => .error .outOfFuel
  | fuel + 1, ts =>
    if peek ts = .rbracket ∨ peek ts = .eof then .ok ([], ts)
    else
      (parseValue fuel ts).bind fun p => (parseItems fuel (skip .comma p.2)).map fun q => (p.1 :: q.1, q.2)

end

def parseField (ts : List ScriptToken) : Parsed String :=
  match (advance ts).1 with
  | .identifier s => .ok (s, (advance ts).2)
  | .keyword s => .ok (s, (advance ts).2)
  | other => .error (.expectedField other)

def parsePayload (ts : List ScriptToken) : Parsed Condition :=
  if peek ts = .keyword "match" then
    let ts := (advance ts).2
    match (advance ts).1 with
    | .regexLit pat flags => .ok (.payloadMatch pat (flags.toList.contains 'i'), (advance ts).2)
    | _ => .error .expectedRegex
  else .error .expectedMatch

def parseSingleCondition : ℕ → List ScriptToken → Parsed Condition
  | 0, _ => .error .outOfFuel
  | fuel + 1, ts =>
    if peek ts = .keyword "not" then
      (parseSingleCondition fuel (advance ts).2).map fun p => (.not p.1, p.2)
    else if peek ts = .keyword "payload" then parsePayload (advance ts).2
    else
      (parseField ts).bind fun field => (parseOperator field.2).bind fun op =>
        (parseValue (room op.2) op.2).map fun value => (.compare field.1 op.1 value.1, value.2)

/-- The loop of `parse_conditions`. -/
def conditionLoop : ℕ → Condition → List ScriptToken → Parsed Condition
  | 0, _, _ => .error .outOfFuel
  | fuel + 1, cond, ts =>
    if peek ts = .keyword "and" then
      (parseSingleCondition (room ts) (advance ts).2).bind fun p => conditionLoop fuel (.and cond p.1) p.2
    else if peek ts = .keyword "or" then
      (parseSingleCondition (room ts) (advance ts).2).bind fun p => conditionLoop fuel (.or cond p.1) p.2
    else .ok (cond, ts)

def parseConditions (ts : List ScriptToken) : Parsed Condition :=
  (parseSingleCondition (room ts) ts).bind fun p => conditionLoop (room ts) p.1 p.2

/-- The text of an argument; other tokens are an empty text. -/
def argument : ScriptToken → String
  | .stringLit s => s
  | .intLit n => String.ofList (Text.showInt n.toInt)
  | _ => ""

/-- The loop over the arguments of an alert. A key that is no word ends it, and is taken. -/
def alertLoop : ℕ → String → String → List ScriptToken → Parsed (String × String)
  | 0, _, _, _ => .error .outOfFuel
  | fuel + 1, severity, msg, ts =>
    if peek ts = .rparen ∨ peek ts = .eof then .ok ((severity, msg), ts)
    else
      match parseField ts with
      | .error _ => .ok ((severity, msg), (advance ts).2)
      | .ok (key, ts) =>
        let ts := skip .colon ts
        let val := argument (advance ts).1
        let ts := skip .comma (advance ts).2
        if key = "severity" then alertLoop fuel val msg ts
        else if key = "msg" then alertLoop fuel severity val ts
        else alertLoop fuel severity msg ts

def message : ScriptToken → String
  | .stringLit s => s
  | _ => ""

def parseAction (ts : List ScriptToken) : Parsed Action :=
  let rest := (advance ts).2
  if (advance ts).1 = .keyword "alert" then
    (alertLoop (room rest) "medium" "" (skip .lparen rest)).map fun p => (.alert p.1.1 p.1.2, skip .rparen p.2)
  else if (advance ts).1 = .keyword "log" then
    let inner := skip .lparen rest
    .ok (.log (message (advance inner).1), skip .rparen (advance inner).2)
  else if (advance ts).1 = .keyword "drop" then .ok (.drop, skip .rparen (skip .lparen rest))
  else .error (.expectedAction (advance ts).1)

def parseActions : ℕ → List ScriptToken → Parsed (List Action)
  | 0, _ => .error .outOfFuel
  | fuel + 1, ts =>
    if peek ts = .rbrace ∨ peek ts = .eof then .ok ([], ts)
    else (parseAction ts).bind fun p => (parseActions fuel p.2).map fun q => (p.1 :: q.1, q.2)

def parseName (ts : List ScriptToken) : Parsed String :=
  match (advance ts).1 with
  | .stringLit s => .ok (s, (advance ts).2)
  | .identifier s => .ok (s, (advance ts).2)
  | other => .error (.expectedName other)

def parseEventType (ts : List ScriptToken) : Parsed EventType :=
  match (advance ts).1 with
  | .keyword s => (EventType.fromStr s).map (·, (advance ts).2)
  | .identifier s => (EventType.fromStr s).map (·, (advance ts).2)
  | other => .error (.expectedEventType other)

def parseRule (ts : List ScriptToken) : Except ParseError (Rule × List ScriptToken) := do
  let ts ← expectKeyword "rule" ts
  let name ← parseName ts
  let ts ← expectLBrace name.2
  let ts ← expectKeyword "on" ts
  let eventType ← parseEventType ts
  let ts ← expectKeyword "if" eventType.2
  let ts ← expectLBrace ts
  let condition ← parseConditions ts
  let ts ← expectRBrace condition.2
  let ts ← expectKeyword "then" ts
  let ts ← expectLBrace ts
  let actions ← parseActions (room ts) ts
  let ts ← expectRBrace actions.2
  let ts ← expectRBrace ts
  return ({ name := name.1, eventType := eventType.1, condition := condition.1, actions := actions.1, enabled := true },
    ts)

/-- What stands between rules is skipped. -/
def parseAll : ℕ → List ScriptToken → Except ParseError (List Rule)
  | 0, _ => .error .outOfFuel
  | fuel + 1, ts =>
    if peek ts = .eof then .ok []
    else if peek ts = .keyword "rule" then (parseRule ts).bind fun p => (parseAll fuel p.2).map (p.1 :: ·)
    else parseAll fuel (advance ts).2

def parseScript (src : List Char) : Except ParseError (List Rule) :=
  (tokenize src).bind fun ts => parseAll (room ts) ts

end ThorFirewall.Script
