import Mathlib
import ThorFirewall.Lib.Text

/-!
# The rule parser of the intrusion detection (`ids/rule_parser.rs`)

A rule is a line with an action, a protocol, the addresses and ports, and options in parentheses. The options are read
one after the other: a keyword, and a value up to the next semicolon outside quotes and parentheses. The patterns of the
content and pcre options are extracted from the values. Texts are lists of characters.
-/

namespace ThorFirewall.Ids

open Text

inductive IdsAction
  | alert
  | drop
  | pass
  | reject
  | log
  deriving DecidableEq, Repr

inductive IdsProtocol
  | tcp
  | udp
  | icmp
  | ip
  | http
  | dns
  | tls
  | ftp
  | smtp
  | ssh
  | any
  deriving DecidableEq, Repr

structure RuleOption where
  keyword : List Char
  value : Option (List Char)
  deriving DecidableEq, Repr

structure IdsRule where
  action : IdsAction
  protocol : IdsProtocol
  srcAddr : List Char
  srcPort : List Char
  direction : List Char
  dstAddr : List Char
  dstPort : List Char
  msg : List Char
  sid : ℕ
  rev : ℕ
  priority : ℕ
  classtype : Option (List Char)
  options : List RuleOption
  contentPatterns : List (List Char)
  pcrePatterns : List (List Char)
  flow : Option (List Char)
  metadata : List (List Char)
  deriving DecidableEq, Repr

inductive RuleError
  | emptyOrComment
  | noOptionsParen
  | noClosingParen
  | headerTooShort (parts : List (List Char))
  | unknownAction (action : List Char)
  /-- The last closing parenthesis is before the first opening one: the slice between them panics. -/
  | slicePanic
  deriving DecidableEq, Repr

/-! ## Options -/

/-- The value of an option, and what is left. `quote` is the open quote, `depth` the number of open parentheses. -/
def readValue : List Char → ℕ → Option Char → List Char × List Char
  | [], _, _ => ([], [])
  | c :: s, depth, some quote =>
    let (value, rest) := readValue s depth (if c = quote then none else some quote)
    (c :: value, rest)
  | c :: s, depth, none =>
    if c = '"' ∨ c = '\'' then
      let (value, rest) := readValue s depth (some c)
      (c :: value, rest)
    else if c = '(' then
      let (value, rest) := readValue s (depth + 1) none
      (c :: value, rest)
    else if c = ')' then
      if 0 < depth then
        let (value, rest) := readValue s (depth - 1) none
        (c :: value, rest)
      else ([], c :: s)
    else if c = ';' ∧ depth = 0 then ([], c :: s)
    else
      let (value, rest) := readValue s depth none
      (c :: value, rest)

/-- One option, and what is left. -/
def readOption (s : List Char) : Option (RuleOption × List Char) :=
  let s := s.dropWhile fun c => c = ';' || c = ' ' || c = '\t'
  let keyword := trim (s.takeWhile fun c => c ≠ ':' && c ≠ ';')
  let rest := s.dropWhile fun c => c ≠ ':' && c ≠ ';'
  if keyword = [] then none
  else match rest with
    | ':' :: rest =>
      let (value, rest) := readValue rest 0 none
      some (⟨keyword, some (trim value)⟩, rest)
    | rest => some (⟨keyword, none⟩, rest)

/-- An option takes one character at least, so that the length of the text is fuel enough. -/
def parseOptionsFrom : ℕ → List Char → List RuleOption
  | 0, _ => []
  | fuel + 1, s => match readOption s with
    | some (option, rest) => option :: parseOptionsFrom fuel rest
    | none => []

def parseOptions (s : List Char) : List RuleOption := parseOptionsFrom s.length s

theorem readValue_length (s : List Char) (depth : ℕ) (quote : Option Char) :
    (readValue s depth quote).2.length ≤ s.length := by
  induction s generalizing depth quote with
  | nil => simp [readValue]
  | cons c s ih =>
    cases quote with
    | some q => exact (ih depth _).trans (Nat.le_succ _)
    | none =>
      unfold readValue
      split_ifs <;> first | exact Nat.le_refl _ | exact (ih _ _).trans (Nat.le_succ _)

theorem readOption_length {s rest : List Char} {option : RuleOption} (h : readOption s = some (option, rest)) :
    rest.length < s.length := by
  unfold readOption at h
  generalize hs : s.dropWhile (fun c => c = ';' || c = ' ' || c = '\t') = s' at h
  have hle : s'.length ≤ s.length := hs ▸ (List.dropWhile_suffix _).length_le
  dsimp only at h
  split_ifs at h with hkeyword
  have hsplit := congrArg List.length (List.takeWhile_append_dropWhile (p := fun c => c ≠ ':' && c ≠ ';') (l := s'))
  have hpos : 0 < (s'.takeWhile fun c => c ≠ ':' && c ≠ ';').length := by
    refine List.length_pos_of_ne_nil fun hnil => hkeyword ?_
    rw [hnil]
    rfl
  rw [List.length_append] at hsplit
  split at h
  · next value hrest =>
    have hvalue := readValue_length value 0 none
    rw [hrest, List.length_cons] at hsplit
    cases h
    omega
  · cases h
    omega

theorem parseOptionsFrom_nil : ∀ fuel, parseOptionsFrom fuel [] = []
  | 0 => rfl
  | _ + 1 => rfl

/-- More fuel than characters changes nothing. -/
theorem parseOptionsFrom_eq {fuel fuel' : ℕ} {s : List Char} (h : s.length ≤ fuel) (h' : s.length ≤ fuel') :
    parseOptionsFrom fuel s = parseOptionsFrom fuel' s := by
  induction fuel generalizing fuel' s with
  | zero =>
    rw [List.length_eq_zero_iff.1 (Nat.le_zero.1 h), parseOptionsFrom_nil, parseOptionsFrom_nil]
  | succ fuel ih =>
    cases fuel' with
    | zero => rw [List.length_eq_zero_iff.1 (Nat.le_zero.1 h'), parseOptionsFrom_nil, parseOptionsFrom_nil]
    | succ fuel' =>
      unfold parseOptionsFrom
      cases hread : readOption s with
      | none => rfl
      | some p =>
        have hlt := readOption_length hread
        show p.1 :: parseOptionsFrom fuel p.2 = p.1 :: parseOptionsFrom fuel' p.2
        exact congrArg _ (ih (Nat.le_of_lt_succ (hlt.trans_le h)) (Nat.le_of_lt_succ (hlt.trans_le h')))

/-- The options are read one after the other until none is left. -/
theorem parseOptions_eq (s : List Char) : parseOptions s = match readOption s with
    | some (option, rest) => option :: parseOptions rest
    | none => [] := by
  have hmore := parseOptionsFrom_eq (Nat.le_refl s.length) (Nat.le_succ s.length)
  rw [parseOptions, hmore, parseOptionsFrom]
  cases hread : readOption s with
  | none => rfl
  | some p =>
    have hlt := readOption_length hread
    show p.1 :: parseOptionsFrom s.length p.2 = p.1 :: parseOptionsFrom p.2.length p.2
    exact congrArg _ (parseOptionsFrom_eq hlt.le (Nat.le_refl _))

/-! ## Rules -/

def parseAction (s : List Char) : Except RuleError IdsAction :=
  let lower := s.map Char.toLower
  if lower = "alert".toList then .ok .alert
  else if lower = "drop".toList then .ok .drop
  else if lower = "pass".toList then .ok .pass
  else if lower = "reject".toList then .ok .reject
  else if lower = "log".toList then .ok .log
  else .error (.unknownAction s)

def parseProtocol (s : List Char) : IdsProtocol :=
  let lower := s.map Char.toLower
  if lower = "tcp".toList then .tcp
  else if lower = "udp".toList then .udp
  else if lower = "icmp".toList then .icmp
  else if lower = "ip".toList then .ip
  else if lower = "http".toList then .http
  else if lower = "dns".toList then .dns
  else if lower = "tls".toList ∨ lower = "ssl".toList then .tls
  else if lower = "ftp".toList then .ftp
  else if lower = "smtp".toList then .smtp
  else if lower = "ssh".toList then .ssh
  else .any

def classtypeToPriority (classtype : List Char) : ℕ :=
  if classtype ∈ ["attempted-admin", "successful-admin", "web-application-attack"].map String.toList then 1
  else if classtype ∈ ["trojan-activity", "command-and-control", "shellcode-detect"].map String.toList then 1
  else if classtype ∈ ["attempted-recon", "network-scan"].map String.toList then 3
  else if classtype ∈ ["policy-violation", "protocol-command-decode"].map String.toList then 3
  else 2

/-- The pattern of a content option. Only printable patterns are kept. -/
def contentPattern (value : List Char) : Option (List Char) :=
  let cleaned := trimMatches '"' value
  if cleaned.head? ≠ some '|' ∧ 2 < byteLength cleaned then some cleaned else none

def pcrePattern (value : List Char) : List Char := trimMatches '"' (trimMatches '/' value)

/-- What one option sets. -/
def applyOption (rule : IdsRule) (option : RuleOption) : IdsRule :=
  let value := option.value
  if option.keyword = "msg".toList then { rule with msg := trimMatches '"' (value.getD []) }
  else if option.keyword = "sid".toList then { rule with sid := (parseUnsigned 32 (value.getD ['0'])).getD 0 }
  else if option.keyword = "rev".toList then { rule with rev := (parseUnsigned 32 (value.getD ['1'])).getD 1 }
  else if option.keyword = "priority".toList then
    { rule with priority := (parseUnsigned 8 (value.getD ['3'])).getD 3 }
  else if option.keyword = "classtype".toList then { rule with classtype := value.map (trimMatches '"') }
  else if option.keyword = "content".toList then
    { rule with contentPatterns := rule.contentPatterns ++ (value.bind contentPattern).toList }
  else if option.keyword = "pcre".toList then
    { rule with pcrePatterns := rule.pcrePatterns ++ (value.map pcrePattern).toList }
  else if option.keyword = "flow".toList then { rule with flow := value }
  else if option.keyword = "metadata".toList then { rule with metadata := rule.metadata ++ value.toList }
  else rule

/-- The priority of the class, if the rule does not set one. -/
def derivePriority (rule : IdsRule) : IdsRule :=
  if rule.priority = 3 then { rule with priority := (rule.classtype.map classtypeToPriority).getD 3 } else rule

/-- The text between the first opening and the last closing parenthesis, and what is before it. -/
def splitParens (line : List Char) : Except RuleError (List Char × List Char) :=
  match line.findIdx? (· = '('), line.reverse.findIdx? (· = ')') with
  | none, _ => .error .noOptionsParen
  | some _, none => .error .noClosingParen
  | some start, some fromEnd =>
    let close := line.length - 1 - fromEnd
    if close < start + 1 then .error .slicePanic
    else .ok (line.take start, (line.take close).drop (start + 1))

/-- Parse a single rule line. -/
def parseRule (line : List Char) : Except RuleError IdsRule := do
  let line := trim line
  if line = [] ∨ line.head? = some '#' then throw .emptyOrComment
  let (header, optionsStr) ← splitParens line
  match splitWhitespace (trim header) with
  | action :: protocol :: srcAddr :: srcPort :: direction :: dstAddr :: dstPort :: _ =>
    let action ← parseAction action
    let options := parseOptions optionsStr
    let rule : IdsRule :=
      { action, protocol := parseProtocol protocol, srcAddr, srcPort, direction, dstAddr, dstPort, msg := [], sid := 0,
        rev := 1, priority := 3, classtype := none, options, contentPatterns := [], pcrePatterns := [], flow := none,
        metadata := [] }
    return derivePriority (options.foldl applyOption rule)
  | parts => throw (.headerTooShort parts)

end ThorFirewall.Ids
