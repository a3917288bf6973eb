import Mathlib
import ThorFirewall.Detection.Events
import ThorFirewall.Lib.Text

/-!
# The Sigma compiler (`detection/sigma_compiler.rs`)

A rule file has a condition and named selections. The condition is parsed into a tree; a selection becomes a list of
matchers, each a set of patterns that are searched in the text of the event. A rule is classified as fast or complex.
Slices are taken at byte positions and can panic. The YAML reader, the lower-casing of Unicode and the outcome of building
an automaton are those of the libraries (`Libraries`).

- `parseCondition`, `splitTopLevel`: the condition parser;
- `compileSelection`, `extractStringsFromYaml`, `compileFile`: the compiler;
- `evalCondition`, `CompiledSigmaRule.evaluate`: the evaluation on the text of an event (`eventToString`).
-/

namespace ThorFirewall.Sigma

open Std Detection

/-! ## Rule files -/

/-- `serde_yml::Value`. A number is kept as its text. -/
inductive Value
  | null
  | bool (b : Bool)
  | number (text : String)
  | string (s : String)
  | sequence (items : List Value)
  | mapping (entries : List (Value × Value))
  | tagged (tag : String) (value : Value)

structure SigmaLogsource where
  category : Option String := none
  product : Option String := none
  service : Option String := none
  deriving DecidableEq, Repr

structure SigmaDetectionBlock where
  condition : Option String := none
  selections : List (String × Value) := []

structure SigmaRuleFile where
  title : String
  id : Option String := none
  description : Option String := none
  level : Option String := none
  detection : SigmaDetectionBlock
  logsource : Option SigmaLogsource := none
  tags : Option (List String) := none

/-! ## Compiled rules -/

inductive ConditionNode
  | selection (name : String)
  | not (inner : ConditionNode)
  | and (children : List ConditionNode)
  | or (children : List ConditionNode)
  | oneOf (pattern : String)
  | allOf (pattern : String)
  | keywords

inductive RuleTier
  | fast
  | complex
  deriving DecidableEq, Repr

/-- An automaton that ignores the case of ASCII letters. -/
structure AhoCorasick where
  patterns : List String
  deriving DecidableEq, Repr

def AhoCorasick.isMatch (ac : AhoCorasick) (text : String) : Bool := ac.patterns.any fun p => Text.occurs p text

structure SelectionMatcher where
  field : Option String
  ac : AhoCorasick
  patterns : List String
  negate : Bool
  hasRegex : Bool
  deriving DecidableEq, Repr

structure CompiledSigmaRule where
  title : String
  id : String
  level : ThreatLevel
  tags : List String
  logsource : Option SigmaLogsource
  description : String
  condition : ConditionNode
  selections : TreeMap String (List SelectionMatcher) compare
  keywords : List String
  keywordsAc : Option AhoCorasick
  tier : RuleTier

/-- What the compiler takes from its libraries. -/
structure Libraries where
  /-- `serde_yml::from_str`. -/
  fromYaml : String → Option SigmaRuleFile
  /-- `str::to_lowercase`. -/
  toLowercase : String → String
  toLowercase_ascii : ∀ s : String, (∀ c ∈ s.toList, c.toNat < 128) →
    toLowercase s = String.ofList (s.toList.map Char.toLower)
  /-- The automaton of these patterns is within the limits of the library. -/
  builds : List String → Bool

def Libraries.build (lib : Libraries) (patterns : List String) : Option AhoCorasick :=
  if lib.builds patterns then some ⟨patterns⟩ else none

/-- How a call can fail: by an error, by a panic, or by recursion without end. -/
inductive Fault
  | error (message : String)
  | panic
  | overflow
  deriving DecidableEq, Repr

/-! ## Conditions -/

/-- A slice at byte positions. -/
def slice (s : List Char) (first last : ℕ) : Except Fault (List Char) :=
  match Text.slice s first last with
  | some t => .ok t
  | none => .error .panic

def extractParenContent (s : List Char) : Except Fault String :=
  match s.findIdx? (· == '('), s.reverse.findIdx? (· == ')') with
  | none, _ => .error (.error "No (")
  | some _, none => .error (.error "No )")
  | some start, some back =>
    let last := s.length - 1 - back
    if last < start + 1 then .error .panic else .ok (String.ofList ((s.take last).drop (start + 1)))

/-- The loop of `split_top_level`, over the characters of the lower-cased text; `skip` of them belong to a separator.
The positions are used as byte positions in `s`. -/
def splitLoop (s sep : List Char) : List Char → ℕ → ℕ → ℕ → ℤ → Except Fault (List (List Char))
  | [], _, _, last, _ => do
    let part ← slice s last (Text.byteLength s)
    return [Text.trim part]
  | _ :: chars, skip + 1, i, last, depth => splitLoop s sep chars skip (i + 1) last depth
  | c :: chars, 0, i, last, depth =>
    if c = '(' then splitLoop s sep chars 0 (i + 1) last (depth + 1)
    else if c = ')' then splitLoop s sep chars 0 (i + 1) last (depth - 1)
    else if depth = 0 ∧ sep.isPrefixOf (c :: chars) then do
      let part ← slice s last i
      let parts ← splitLoop s sep chars (sep.length - 1) (i + 1) (i + sep.length) depth
      return Text.trim part :: parts
    else splitLoop s sep chars 0 (i + 1) last depth

def splitTopLevel (lib : Libraries) (s : List Char) (sep : String) : Except Fault (Option (List (List Char))) := do
  let parts ← splitLoop s (lib.toLowercase sep).toList (lib.toLowercase (String.ofList s)).toList 0 0 0 0
  return if 1 < parts.length then some parts else none

/-- `fuel` bounds the depth of the recursion. -/
def parseFrom (lib : Libraries) : ℕ → List Char → Except Fault ConditionNode
  | 0, _ => .error .overflow
  | fuel + 1, s => do
    let s := Text.trim s
    if "1of(".toList.isPrefixOf s || "1 of (".toList.isPrefixOf s then
      return .oneOf (← extractParenContent s)
    if "all of (".toList.isPrefixOf s || "allof(".toList.isPrefixOf s then
      return .allOf (← extractParenContent s)
    if "not ".toList.isPrefixOf s || "NOT ".toList.isPrefixOf s then
      return .not (← parseFrom lib fuel (s.drop 4))
    if let some parts ← splitTopLevel lib s " or " then
      return .or (← parts.mapM (parseFrom lib fuel))
    if let some parts ← splitTopLevel lib s " and " then
      return .and (← parts.mapM (parseFrom lib fuel))
    if s.head? = some '(' ∧ s.getLast? = some ')' then
      parseFrom lib fuel (s.drop 1).dropLast
    else if s = "keywords".toList then
      return .keywords
    else
      return .selection (String.ofList s)

/-- Each call is on a shorter text. -/
def parseCondition (lib : Libraries) (s : String) : Except Fault ConditionNode :=
  parseFrom lib (Text.byteLength s.toList + 1) s.toList

/-! ## Selections -/

mutual

def extractStringsFromYaml : Value → List String
  | .string s =>
    let cleaned := Text.remove "?" (Text.remove "*" s)
    if 3 ≤ Text.byteLength cleaned.toList then [cleaned] else []
  | .sequence items => extractStringsFromItems items
  | .mapping entries => extractStringsFromEntries entries
  | .bool b => [toString b]
  | .number text => [text]
  | .null => []
  | .tagged _ _ => []

def extractStringsFromItems : List Value → List String
  | [] => []
  | v :: items => extractStringsFromYaml v ++ extractStringsFromItems items

def extractStringsFromEntries : List (Value × Value) → List String
  | [] => []
  | (_, v) :: entries => extractStringsFromYaml v ++ extractStringsFromEntries entries

end

def Value.asStr : Value → Option String
  | string s => some s
  | _ => none

/-- The field name without its modifiers. -/
def fieldClean (fieldName : String) : String :=
  ["|contains|all", "|contains", "|startswith", "|endswith", "|not", "|all", "|re", "|regex"].foldl
    (fun name modifier => Text.remove modifier name) fieldName

/-- The matcher of one entry of a selection. -/
def compileEntry (lib : Libraries) (k v : Value) : Option SelectionMatcher :=
  let fieldName := k.asStr.getD ""
  let negate := "|not".toList.isSuffixOf fieldName.toList
  let hasRegex := contains fieldName "|re|" || "|re".toList.isSuffixOf fieldName.toList || contains fieldName "|regex"
  let clean := fieldClean fieldName
  let patterns := extractStringsFromYaml v
  if patterns.isEmpty then none
  else (lib.build patterns).map fun ac =>
    { field := if clean = "*" ∨ clean = "" then none else some clean, ac, patterns, negate, hasRegex }

def compileSelection (lib : Libraries) : Value → List SelectionMatcher
  | .mapping entries => entries.filterMap fun (k, v) => compileEntry lib k v
  | .sequence items =>
    let patterns := extractStringsFromYaml (.sequence items)
    if patterns.isEmpty then []
    else ((lib.build patterns).map fun ac =>
      { field := none, ac, patterns, negate := false, hasRegex := false : SelectionMatcher }).toList
  | _ => []

/-! ## Tiers -/

mutual

def conditionIsComplex : ConditionNode → ℕ → Bool
  | .selection _, _ => false
  | .keywords, _ => false
  | .not _, _ => true
  | .oneOf _, _ => true
  | .allOf _, _ => true
  | .and children, depth => decide (3 < depth) || anyIsComplex children (depth + 1)
  | .or children, depth => decide (3 < depth) || anyIsComplex children (depth + 1)

/-- `children.iter().any(..)`. -/
def anyIsComplex : List ConditionNode → ℕ → Bool
  | [], _ => false
  | c :: children, depth => conditionIsComplex c depth || anyIsComplex children depth

end

def classify (selections : TreeMap String (List SelectionMatcher) compare) (condition : ConditionNode) : RuleTier :=
  if selections.values.flatten.any (·.hasRegex) then .complex
  else if conditionIsComplex condition 0 then .complex
  else .fast

def CompiledSigmaRule.isComplex (rule : CompiledSigmaRule) : Bool := rule.tier == .complex

/-! ## Rules -/

def threatLevelOf : Option String → ThreatLevel
  | some "critical" => .critical
  | some "high" => .high
  | some "medium" => .medium
  | _ => .low

/-- The selections and the keywords of a rule, in the order in which the map gives its entries. -/
def compileSelections (lib : Libraries) (entries : List (String × Value)) :
    TreeMap String (List SelectionMatcher) compare × List String :=
  entries.foldl (fun (selections, keywords) (key, val) =>
    if key = "condition" then (selections, keywords)
    else if key = "keywords" then (selections, extractStringsFromYaml val)
    else
      let matchers := compileSelection lib val
      if matchers.isEmpty then (selections, keywords) else (selections.insert key matchers, keywords)) (∅, [])

/-- `uuid` is the random id that a rule without an id gets. -/
def compileRule (lib : Libraries) (uuid : String) (rule : SigmaRuleFile) : Except Fault CompiledSigmaRule := do
  let condition ← parseCondition lib (rule.detection.condition.getD "selection")
  let (selections, keywords) := compileSelections lib rule.detection.selections
  return {
    title := rule.title
    id := rule.id.getD uuid
    level := threatLevelOf rule.level
    tags := rule.tags.getD []
    logsource := rule.logsource
    description := rule.description.getD ""
    condition
    selections
    keywords
    keywordsAc := if keywords.isEmpty then none else lib.build keywords
    tier := classify selections condition }

def compileFile (lib : Libraries) (uuid content : String) : Except Fault CompiledSigmaRule :=
  match lib.fromYaml content with
  | none => .error (.error "YAML parse error")
  | some rule => compileRule lib uuid rule

/-- A file of the rule directory: its extension and, if it can be read, its content. -/
structure RuleFile where
  extension : Option String
  content : Option String
  uuid : String

/-- The loop of `load_directory`. A file that does not compile is left out; a panic is not caught. -/
def loadFiles (lib : Libraries) : List RuleFile → Except Fault (List CompiledSigmaRule)
  | [] => .ok []
  | file :: files =>
    if file.extension ≠ some "yml" then loadFiles lib files
    else
      match file.content with
      | none => loadFiles lib files
      | some content =>
        match compileFile lib file.uuid content with
        | .ok rule => (rule :: ·) <$> loadFiles lib files
        | .error (.error _) => loadFiles lib files
        | .error fault => .error fault

/-- The rules of a directory, `none` if it does not exist. -/
def loadDirectory (lib : Libraries) : Option (List RuleFile) → Except Fault (List CompiledSigmaRule)
  | none => .ok []
  | some files => loadFiles lib files

/-! ## Evaluation -/

def eventToString (event : EnrichedEvent) : String :=
  let hostname := event.hostname.getD ""
  let srcIp := event.srcIpStr.getD ""
  let dstIp := event.dstIpStr.getD ""
  match event.raw with
  | .process processName cmdline parentName => " ".intercalate [processName, cmdline, parentName.getD "", hostname, srcIp]
  | .network dstPort protocol => " ".intercalate [srcIp, dstIp, toString dstPort, toString protocol, hostname]
  | .dns query recordType => " ".intercalate [query, recordType]
  | .tls sni ja4Hash issuer => " ".intercalate [sni.getD "", ja4Hash.getD "", issuer.getD ""]
  | .fim path operation => " ".intercalate [path, operation.debug]
  | _ => ""

namespace CompiledSigmaRule

def evalSelection (rule : CompiledSigmaRule) (name text : String) : Bool :=
  match rule.selections[name]? with
  | none => false
  | some matchers => matchers.all fun m => if m.negate then !m.ac.isMatch text else m.ac.isMatch text

/-- The selections that a pattern with a trailing `*` stands for. -/
def selectionsLike (rule : CompiledSigmaRule) (pattern : String) : List String :=
  let stem := (pattern.toList.reverse.dropWhile (· == '*')).reverse
  rule.selections.keys.filter fun k => stem.isPrefixOf k.toList

mutual

def evalCondition (rule : CompiledSigmaRule) (text : String) : ConditionNode → Bool
  | .selection name => rule.evalSelection name text
  | .not inner => !rule.evalCondition text inner
  | .and children => rule.evalAll text children
  | .or children => rule.evalAny text children
  | .keywords => (rule.keywordsAc.map fun ac => ac.isMatch text).getD false
  | .oneOf pattern => (rule.selectionsLike pattern).any fun k => rule.evalSelection k text
  | .allOf pattern => (rule.selectionsLike pattern).all fun k => rule.evalSelection k text

/-- `children.iter().all(..)`. -/
def evalAll (rule : CompiledSigmaRule) (text : String) : List ConditionNode → Bool
  | [] => true
  | c :: children => rule.evalCondition text c && rule.evalAll text children

/-- `children.iter().any(..)`. -/
def evalAny (rule : CompiledSigmaRule) (text : String) : List ConditionNode → Bool
  | [] => false
  | c :: children => rule.evalCondition text c || rule.evalAny text children

end

def evaluate (rule : CompiledSigmaRule) (event : EnrichedEvent) : Bool :=
  rule.evalCondition (eventToString event) rule.condition

end CompiledSigmaRule

end ThorFirewall.Sigma
