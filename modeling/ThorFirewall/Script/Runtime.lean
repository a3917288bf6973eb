import ThorFirewall.Lib.KeyedList
import ThorFirewall.Lib.TextSearch
import ThorFirewall.Script.Parser

/-!
# The runtime of scripts (`thor-script/src/runtime.rs`)

A rule is compiled with its regular expressions: those of its payload searches, each under the text it was compiled
from. A context has variables and a payload. Every enabled rule whose event and condition match gives a result.

- `collectRegexes`, `evalCondition`: the cache, and conditions that look into it;
- `evalCondition_eq_holds`: a condition is a Boolean combination of its comparisons and payload searches;
- `cache_transparent`: the cache makes no difference.

The regex crate is a parameter (`RegexCrate`). A hash map is the list of its entries in the order of an iteration.
-/

namespace ThorFirewall.Script

open KeyedList

/-! ## Contexts -/

structure ExecutionContext where
  strVars : List (String × String)
  intVars : List (String × Int64)
  boolVars : List (String × Bool)
  payload : List UInt8
  eventType : String
  nodup_strVars : (strVars.map Prod.fst).Nodup
  nodup_intVars : (intVars.map Prod.fst).Nodup
  nodup_boolVars : (boolVars.map Prod.fst).Nodup

namespace ExecutionContext

def new : ExecutionContext where
  strVars := []
  intVars := []
  boolVars := []
  payload := []
  eventType := ""
  nodup_strVars := List.nodup_nil
  nodup_intVars := List.nodup_nil
  nodup_boolVars := List.nodup_nil

variable (ctx : ExecutionContext)

def setStr (k v : String) : ExecutionContext :=
  { ctx with strVars := upsert Prod.fst (k, v) ctx.strVars, nodup_strVars := nodup_upsert _ ctx.nodup_strVars }

def setI64 (k : String) (v : Int64) : ExecutionContext :=
  { ctx with intVars := upsert Prod.fst (k, v) ctx.intVars, nodup_intVars := nodup_upsert _ ctx.nodup_intVars }

def setBool (k : String) (v : Bool) : ExecutionContext :=
  { ctx with boolVars := upsert Prod.fst (k, v) ctx.boolVars, nodup_boolVars := nodup_upsert _ ctx.nodup_boolVars }

def setPayload (data : List UInt8) : ExecutionContext := { ctx with payload := data }

def setEventType (t : String) : ExecutionContext := { ctx with eventType := t }

def getStr (k : String) : Option String := (lookup Prod.fst k ctx.strVars).map Prod.snd

def getI64 (k : String) : Option Int64 :=
  ((lookup Prod.fst k ctx.intVars).map Prod.snd).or ((ctx.getStr k).bind fun s => Text.parseI64 s.toList)

def getBool (k : String) : Option Bool := (lookup Prod.fst k ctx.boolVars).map Prod.snd

end ExecutionContext

/-! ## Conditions -/

/-- The regex crate: `Regex::new` gives an expression for some of the patterns, `is_match` searches a text for it. -/
structure RegexCrate where
  Regex : Type
  new : String → Option Regex
  isMatch : Regex → String → Bool

/-- The text that is compiled, and the key of the cache. -/
def regexText (pattern : String) (caseInsensitive : Bool) : String :=
  if caseInsensitive then "(?i)" ++ pattern else pattern

section Evaluation

variable (crate : RegexCrate)

abbrev RegexCache := List (String × crate.Regex)

/-- The cache with the expression of a payload search, when it is new and compiles. -/
def cacheRegex (text : String) (cache : RegexCache crate) : RegexCache crate :=
  if (lookup Prod.fst text cache).isSome then cache
  else match crate.new text with
    | some re => upsert Prod.fst (text, re) cache
    | none => cache

def collectRegexes : Condition → RegexCache crate → RegexCache crate
  | .payloadMatch pattern ci, cache => cacheRegex crate (regexText pattern ci) cache
  | .and a b, cache => collectRegexes b (collectRegexes a cache)
  | .or a b, cache => collectRegexes b (collectRegexes a cache)
  | .not inner, cache => collectRegexes inner cache
  | .compare _ _ _, cache => cache
  | .true, cache => cache

/-- The payload as a text: the empty one when it is none. -/
def payloadText (payload : List UInt8) : String := String.ofList ((Utf8.fromUtf8 payload).getD [])

/-- An item of a list that a variable has as its value. -/
def hasItem (ctx : ExecutionContext) (field : String) : Value → Bool
  | .int n => ctx.getI64 field = some n
  | .str s => ctx.getStr field = some s
  | _ => false

def compareInt (op : Operator) (lhs rhs : Int64) : Bool :=
  match op with
  | .eq => lhs = rhs
  | .ne => lhs ≠ rhs
  | .lt => lhs < rhs
  | .gt => lhs > rhs
  | .le => lhs ≤ rhs
  | .ge => lhs ≥ rhs
  | _ => false

/-- Texts and Booleans are equal or not. -/
def compareEq {α : Type} [DecidableEq α] (op : Operator) (lhs rhs : α) : Bool :=
  match op with
  | .eq => lhs = rhs
  | .ne => lhs ≠ rhs
  | _ => false

def compareValue (ctx : ExecutionContext) (field : String) (op : Operator) : Value → Bool
  | .int rhs => (ctx.getI64 field).any fun lhs => compareInt op lhs rhs
  | .str rhs => (ctx.getStr field).any fun lhs => compareEq op lhs rhs
  | .bool rhs => (ctx.getBool field).any fun lhs => compareEq op lhs rhs
  | _ => false

def evalCompare (field : String) (op : Operator) (value : Value) (ctx : ExecutionContext) : Bool :=
  match op, value with
  | .in_, .list items => items.any (hasItem ctx field)
  | .notIn, .list items => !items.any (hasItem ctx field)
  | .match_, .regex pat => (crate.new pat).any fun re => crate.isMatch re ((ctx.getStr field).getD "")
  | .contains, .str s => decide (s.toList <:+: ((ctx.getStr field).getD "").toList)
  | .in_, _ => false
  | .notIn, _ => false
  | .match_, _ => false
  | .contains, _ => false
  | op, value => compareValue ctx field op value

def evalCondition (ctx : ExecutionContext) (cache : RegexCache crate) : Condition → Bool
  | .true => true
  | .and a b => evalCondition ctx cache a && evalCondition ctx cache b
  | .or a b => evalCondition ctx cache a || evalCondition ctx cache b
  | .not inner => !evalCondition ctx cache inner
  | .payloadMatch pattern ci =>
    match lookup Prod.fst (regexText pattern ci) cache with
    | some (_, re) => crate.isMatch re (payloadText ctx.payload)
    | none => false
  | .compare field op value => evalCompare crate field op value ctx

end Evaluation

/-- The value of a condition, when each comparison and each payload search has a truth value. -/
def Condition.holds (v : Condition → Bool) : Condition → Bool
  | .true => Bool.true
  | .and a b => a.holds v && b.holds v
  | .or a b => a.holds v || b.holds v
  | .not inner => !inner.holds v
  | atom => v atom

theorem evalCondition_eq_holds (crate : RegexCrate) (ctx : ExecutionContext) (cache : RegexCache crate)
    (cond : Condition) : evalCondition crate ctx cache cond = cond.holds (evalCondition crate ctx cache) := by
  induction cond with
  | compare _ _ _ => rfl
  | payloadMatch _ _ => rfl
  | and a b iha ihb => rw [evalCondition, Condition.holds, ← iha, ← ihb]
  | or a b iha ihb => rw [evalCondition, Condition.holds, ← iha, ← ihb]
  | not inner ih => rw [evalCondition, Condition.holds, ← ih]
  | true => rfl

/-! ## The cache -/

section Cache

variable (crate : RegexCrate)

/-- A condition without the cache: each payload search compiles its own pattern, and one that does not compile does not
match. -/
def evalDirect (ctx : ExecutionContext) : Condition → Bool
  | .true => true
  | .and a b => evalDirect ctx a && evalDirect ctx b
  | .or a b => evalDirect ctx a || evalDirect ctx b
  | .not inner => !evalDirect ctx inner
  | .payloadMatch pattern ci =>
    (crate.new (regexText pattern ci)).any fun re => crate.isMatch re (payloadText ctx.payload)
  | .compare field op value => evalCompare crate field op value ctx

/-- The texts of the payload searches of a condition. -/
def regexTexts : Condition → List String
  | .payloadMatch pattern ci => [regexText pattern ci]
  | .and a b => regexTexts a ++ regexTexts b
  | .or a b => regexTexts a ++ regexTexts b
  | .not inner => regexTexts inner
  | .compare _ _ _ => []
  | .true => []

variable {crate}

theorem lookup_cacheRegex (text other : String) (cache : RegexCache crate) :
    (lookup Prod.fst other (cacheRegex crate text cache)).map Prod.snd =
      ((lookup Prod.fst other cache).map Prod.snd).or (if text = other then crate.new text else none) := by
  unfold cacheRegex
  split
  · next hsome =>
    by_cases heq : text = other
    · obtain ⟨entry, hentry⟩ := Option.isSome_iff_exists.1 hsome
      rw [if_pos heq, ← heq, hentry]
      rfl
    · rw [if_neg heq, Option.or_none]
  · next hnone =>
    rw [Bool.not_eq_true, Option.isSome_eq_false_iff, Option.isNone_iff_eq_none] at hnone
    cases hre : crate.new text with
    | none => simp
    | some re =>
      simp only [lookup_upsert]
      by_cases heq : text = other
      · rw [if_pos heq, if_pos heq, ← heq, hnone]
        rfl
      · rw [if_neg heq, if_neg heq, Option.or_none]

/-- What the cache has under a text after a condition: what it had before, or the expression of a payload search. -/
theorem lookup_collectRegexes (cond : Condition) (text : String) (cache : RegexCache crate) :
    (lookup Prod.fst text (collectRegexes crate cond cache)).map Prod.snd =
      ((lookup Prod.fst text cache).map Prod.snd).or (if text ∈ regexTexts cond then crate.new text else none) := by
  have hjoin : ∀ xs ys : List String,
      (if text ∈ xs then crate.new text else none).or (if text ∈ ys then crate.new text else none) =
        if text ∈ xs ++ ys then crate.new text else none := by
    intro xs ys
    by_cases hx : text ∈ xs <;> by_cases hy : text ∈ ys <;> simp [hx, hy]
  induction cond generalizing cache with
  | compare _ _ _ => simp [collectRegexes, regexTexts]
  | payloadMatch pattern ci =>
    rw [collectRegexes, lookup_cacheRegex, regexTexts]
    by_cases heq : regexText pattern ci = text
    · simp [heq]
    · simp [heq, Ne.symm heq]
  | and a b iha ihb => rw [collectRegexes, ihb, iha, Option.or_assoc, hjoin, regexTexts]
  | or a b iha ihb => rw [collectRegexes, ihb, iha, Option.or_assoc, hjoin, regexTexts]
  | not inner ih => exact ih cache
  | true => simp [collectRegexes, regexTexts]

/-- **No payload search misses the cache** of its own condition. -/
theorem lookup_own_regex {cond : Condition} {text : String} (h : text ∈ regexTexts cond) :
    (lookup Prod.fst text (collectRegexes crate cond [])).map Prod.snd = crate.new text := by
  rw [lookup_collectRegexes, if_pos h]
  rfl

/-- A condition whose payload searches all find what they compile to. -/
theorem evalCondition_of_cached {ctx : ExecutionContext} {cache : RegexCache crate} {cond : Condition}
    (h : ∀ text ∈ regexTexts cond, (lookup Prod.fst text cache).map Prod.snd = crate.new text) :
    evalCondition crate ctx cache cond = evalDirect crate ctx cond := by
  induction cond with
  | compare _ _ _ => rfl
  | payloadMatch pattern ci =>
    have hown := h _ List.mem_cons_self
    rw [evalCondition, evalDirect, ← hown]
    cases lookup Prod.fst (regexText pattern ci) cache <;> rfl
  | and a b iha ihb =>
    obtain ⟨ha, hb⟩ := List.forall_mem_append.1 h
    rw [evalCondition, evalDirect, iha ha, ihb hb]
  | or a b iha ihb =>
    obtain ⟨ha, hb⟩ := List.forall_mem_append.1 h
    rw [evalCondition, evalDirect, iha ha, ihb hb]
  | not inner ih => rw [evalCondition, evalDirect, ih h]
  | true => rfl

/-- **The cache is transparent.** -/
theorem cache_transparent (ctx : ExecutionContext) (cond : Condition) :
    evalCondition crate ctx (collectRegexes crate cond []) cond = evalDirect crate ctx cond ∧
      ∀ text ∈ regexTexts cond,
        (lookup Prod.fst text (collectRegexes crate cond [])).map Prod.snd = crate.new text :=
  ⟨evalCondition_of_cached fun _ => lookup_own_regex, fun _ => lookup_own_regex⟩

end Cache

/-! ## Rules -/

section Engine

variable (crate : RegexCrate)

structure CompiledRule where
  rule : Rule
  regexCache : RegexCache crate

def CompiledRule.new (rule : Rule) : CompiledRule crate := ⟨rule, collectRegexes crate rule.condition []⟩

/-- A rule and the results of its actions. -/
structure ScriptResult where
  ruleName : String
  severity : String
  msg : String
  drop : Bool
  logs : List String
  deriving DecidableEq, Repr

/-- The event of a context is one of a rule's. -/
def matchesEvent (e : EventType) (eventType : String) : Bool :=
  match e with
  | .any => true
  | .network => eventType = "" || eventType = "network"
  | .dns => eventType = "dns"
  | .http => eventType = "http"
  | .tls => eventType = "tls"
  | .process => eventType = "process"
  | .file => eventType = "file"

def placeholder (name : String) : List Char := '$' :: '{' :: (name.toList ++ ['}'])

/-- `replace` of the variables' placeholders, one variable after the other. -/
def expandVars (vars : List (String × List Char)) (template : List Char) : List Char :=
  vars.foldl (fun result var => TextSearch.replace (placeholder var.1) var.2 result) template

/-- The variables in the order of the replacements, with their values as texts. -/
def textVars (ctx : ExecutionContext) : List (String × List Char) :=
  ctx.strVars.map (fun var => (var.1, var.2.toList)) ++ ctx.intVars.map fun var => (var.1, Text.showInt var.2.toInt)

def expandString (template : String) (ctx : ExecutionContext) : String :=
  String.ofList (expandVars (textVars ctx) template.toList)

/-- The round of an action. -/
def runAction (ctx : ExecutionContext) (r : ScriptResult) : Action → ScriptResult
  | .alert severity msg => { r with severity := severity, msg := msg }
  | .log message => { r with logs := r.logs ++ [expandString message ctx] }
  | .drop => { r with drop := true }

def ruleResult (rule : Rule) (ctx : ExecutionContext) : ScriptResult :=
  rule.actions.foldl (runAction ctx)
    { ruleName := rule.name, severity := "medium", msg := rule.name, drop := false, logs := [] }

variable {crate}

def fires (cr : CompiledRule crate) (ctx : ExecutionContext) : Bool :=
  cr.rule.enabled && matchesEvent cr.rule.eventType ctx.eventType && evalCondition crate ctx cr.regexCache cr.rule.condition

def evaluateAll (rules : List (CompiledRule crate)) (ctx : ExecutionContext) : List ScriptResult :=
  (rules.filter (fires · ctx)).map fun cr => ruleResult cr.rule ctx

theorem evaluateAll_append (rules others : List (CompiledRule crate)) (ctx : ExecutionContext) :
    evaluateAll (rules ++ others) ctx = evaluateAll rules ctx ++ evaluateAll others ctx := by
  rw [evaluateAll, List.filter_append, List.map_append]
  rfl

theorem evaluateAll_cons (cr : CompiledRule crate) (rules : List (CompiledRule crate)) (ctx : ExecutionContext) :
    evaluateAll (cr :: rules) ctx =
      (if fires cr ctx then [ruleResult cr.rule ctx] else []) ++ evaluateAll rules ctx := by
  rw [evaluateAll, List.filter_cons]
  split <;> rfl

theorem ruleName_foldl (ctx : ExecutionContext) (actions : List Action) (r : ScriptResult) :
    (actions.foldl (runAction ctx) r).ruleName = r.ruleName := by
  induction actions generalizing r with
  | nil => rfl
  | cons a actions ih =>
    rw [List.foldl_cons, ih]
    cases a <;> rfl

variable (crate)

/-- A result of the rule stands between those of the rules in front of it and behind it. -/
def Reports (before : List Rule) (rule : Rule) (after : List Rule) (ctx : ExecutionContext) : Prop :=
  ∃ r, r.ruleName = rule.name ∧ evaluateAll ((before ++ rule :: after).map (CompiledRule.new crate)) ctx =
    evaluateAll (before.map (CompiledRule.new crate)) ctx ++ r :: evaluateAll (after.map (CompiledRule.new crate)) ctx

/-- A rule is reported when it is enabled, and its event and its condition match. -/
theorem reports_iff (before : List Rule) (rule : Rule) (after : List Rule) (ctx : ExecutionContext) :
    Reports crate before rule after ctx ↔ fires (CompiledRule.new crate rule) ctx = true := by
  unfold Reports
  rw [List.map_append, List.map_cons, evaluateAll_append, evaluateAll_cons]
  constructor
  · rintro ⟨r, _, h⟩
    by_contra hfires
    rw [if_neg hfires, List.nil_append, List.append_cancel_left_eq] at h
    exact absurd (congrArg List.length h) (by simp)
  · intro hfires
    rw [if_pos hfires]
    exact ⟨ruleResult rule ctx, ruleName_foldl ctx rule.actions _, rfl⟩

end Engine

end ThorFirewall.Script
