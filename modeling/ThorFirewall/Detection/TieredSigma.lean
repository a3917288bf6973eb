import Mathlib
import ThorFirewall.Detection.SigmaCompiler

/-!
# The tiered Sigma engine

The engine runs its fast rules only when the text of the event has one of their patterns of at least four bytes, and its
complex rules only when a fast rule has matched. A rule can match without that: by a shorter pattern, by a negated
matcher, or without any fast rule. `lossless_iff` says for which rule sets and events nothing is lost.
-/

namespace ThorFirewall.Sigma

open Std Detection

structure TieredSigmaEngine where
  fastRules : List CompiledSigmaRule
  complexRules : List CompiledSigmaRule
  globalFastAc : Option AhoCorasick

/-- All patterns of a rule. -/
def CompiledSigmaRule.allPatterns (rule : CompiledSigmaRule) : List String :=
  rule.selections.values.flatten.flatMap (·.patterns) ++ rule.keywords

/-- The patterns of the gate. -/
def gatePatterns (fastRules : List CompiledSigmaRule) : List String :=
  (fastRules.flatMap CompiledSigmaRule.allPatterns).filter fun p => 4 ≤ Text.byteLength p.toList

namespace TieredSigmaEngine

def new (lib : Libraries) (rules : List CompiledSigmaRule) : TieredSigmaEngine :=
  let fastRules := rules.filter fun rule => !rule.isComplex
  let complexRules := rules.filter CompiledSigmaRule.isComplex
  let allFastPatterns := gatePatterns fastRules
  { fastRules, complexRules, globalFastAc := if allFastPatterns.isEmpty then none else lib.build allFastPatterns }

def evaluate (engine : TieredSigmaEngine) (event : EnrichedEvent) : List CompiledSigmaRule :=
  let text := eventToString event
  -- without a gate, the fast rules are always checked
  let fastGate := (engine.globalFastAc.map fun ac => ac.isMatch text).getD true
  let matched := if fastGate then engine.fastRules.filter fun rule => rule.evalCondition text rule.condition else []
  let anyFastMatch := !matched.isEmpty
  if anyFastMatch then matched ++ engine.complexRules.filter fun rule => rule.evalCondition text rule.condition
  else matched

def evaluateAll (engine : TieredSigmaEngine) (event : EnrichedEvent) : List CompiledSigmaRule :=
  let text := eventToString event
  (engine.fastRules ++ engine.complexRules).filter fun rule => rule.evalCondition text rule.condition

end TieredSigmaEngine

/-! ## What is lost -/

variable {lib : Libraries} {rules : List CompiledSigmaRule} {event : EnrichedEvent} {rule : CompiledSigmaRule}

/-- Every rule that matches is returned. -/
def Lossless (lib : Libraries) (rules : List CompiledSigmaRule) (event : EnrichedEvent) : Prop :=
  ∀ rule ∈ (TieredSigmaEngine.new lib rules).evaluateAll event, rule ∈ (TieredSigmaEngine.new lib rules).evaluate event

/-- There is no gate, or the text has one of its patterns. -/
def GateOpen (lib : Libraries) (rules : List CompiledSigmaRule) (event : EnrichedEvent) : Prop :=
  let patterns := gatePatterns (rules.filter fun rule => !rule.isComplex)
  patterns = [] ∨ lib.builds patterns = false ∨ ∃ p ∈ patterns, Text.occurs p (eventToString event)

theorem gateOpen_iff : ((TieredSigmaEngine.new lib rules).globalFastAc.map fun ac =>
    ac.isMatch (eventToString event)).getD true = true ↔ GateOpen lib rules event := by
  simp only [TieredSigmaEngine.new, GateOpen, List.isEmpty_iff]
  split_ifs with hnil
  · simp [hnil]
  · cases hbuild : lib.builds (gatePatterns (rules.filter fun rule => !rule.isComplex)) with
    | false => simp [Libraries.build, hbuild]
    | true => simp [Libraries.build, hbuild, hnil, AhoCorasick.isMatch]

theorem mem_evaluateAll : rule ∈ (TieredSigmaEngine.new lib rules).evaluateAll event ↔
    rule ∈ rules ∧ rule.evaluate event := by
  simp only [TieredSigmaEngine.evaluateAll, TieredSigmaEngine.new, List.mem_filter, List.mem_append,
    CompiledSigmaRule.evaluate, ← and_or_left]
  cases rule.isComplex <;> simp

theorem mem_fast : (rule ∈ (TieredSigmaEngine.new lib rules).fastRules.filter fun rule =>
    rule.evalCondition (eventToString event) rule.condition) ↔
    rule ∈ rules ∧ rule.isComplex = false ∧ rule.evaluate event := by
  simp only [TieredSigmaEngine.new, List.mem_filter, CompiledSigmaRule.evaluate, Bool.not_eq_true', and_assoc]

theorem mem_complex : (rule ∈ (TieredSigmaEngine.new lib rules).complexRules.filter fun rule =>
    rule.evalCondition (eventToString event) rule.condition) ↔ rule ∈ rules ∧ rule.isComplex ∧ rule.evaluate event := by
  simp only [TieredSigmaEngine.new, List.mem_filter, CompiledSigmaRule.evaluate, and_assoc]

theorem exists_fast_iff : ((TieredSigmaEngine.new lib rules).fastRules.filter fun rule =>
    rule.evalCondition (eventToString event) rule.condition).isEmpty = false ↔
    ∃ fast ∈ rules, fast.isComplex = false ∧ fast.evaluate event := by
  rw [List.isEmpty_eq_false_iff_exists_mem]
  simp only [mem_fast]

/-- A rule is returned when it matches, the gate is open and, for a complex rule, a fast one matches. -/
theorem mem_evaluate : rule ∈ (TieredSigmaEngine.new lib rules).evaluate event ↔
    rule ∈ rules ∧ rule.evaluate event ∧ GateOpen lib rules event ∧
      (rule.isComplex → ∃ fast ∈ rules, fast.isComplex = false ∧ fast.evaluate event) := by
  unfold TieredSigmaEngine.evaluate
  simp only
  by_cases hgate : GateOpen lib rules event
  · rw [if_pos (gateOpen_iff.2 hgate)]
    by_cases hany : ∃ fast ∈ rules, fast.isComplex = false ∧ fast.evaluate event
    · rw [if_pos (by rw [exists_fast_iff.2 hany]; rfl), List.mem_append, mem_fast, mem_complex]
      cases rule.isComplex <;> simp [hgate, hany]
    · rw [if_neg (by rw [Bool.not_eq_true', exists_fast_iff]; exact hany), mem_fast]
      cases rule.isComplex <;> simp [hgate, hany]
  · rw [if_neg fun h => hgate (gateOpen_iff.1 h)]
    simp [hgate]

/-- **When the tiers lose nothing.** A fast rule that matches finds the gate open, and a complex rule that matches comes
with a fast one. -/
theorem lossless_iff (lib : Libraries) (rules : List CompiledSigmaRule) (event : EnrichedEvent) :
    Lossless lib rules event ↔
      (∀ rule ∈ rules, rule.isComplex = false → rule.evaluate event → GateOpen lib rules event) ∧
      ∀ rule ∈ rules, rule.isComplex → rule.evaluate event →
        ∃ fast ∈ rules, fast.isComplex = false ∧ fast.evaluate event := by
  simp only [Lossless, mem_evaluateAll, mem_evaluate]
  constructor
  · intro h
    exact ⟨fun rule hr _ hm => (h rule ⟨hr, hm⟩).2.2.1, fun rule hr hc hm => (h rule ⟨hr, hm⟩).2.2.2 hc⟩
  · rintro ⟨hfast, hcomplex⟩ rule ⟨hr, hm⟩
    refine ⟨hr, hm, ?_, fun hc => hcomplex rule hr hc hm⟩
    cases hc : rule.isComplex with
    | false => exact hfast rule hr hc hm
    | true =>
      -- the gate is open for the fast rule that comes with it
      obtain ⟨fast, hf, hfc, hfm⟩ := hcomplex rule hr hc hm
      exact hfast fast hf hfc hfm

theorem charwise_ascii (s : String) (_ : ∀ c ∈ s.toList, c.toNat < 128) :
    (fun s : String => String.ofList (s.toList.map Char.toLower)) s = String.ofList (s.toList.map Char.toLower) := rfl

/-- Libraries that lower-case ASCII letters and build every automaton. -/
def asciiLibraries : Libraries where
  fromYaml := fun _ => none
  toLowercase := fun s => String.ofList (s.toList.map Char.toLower)
  toLowercase_ascii := charwise_ascii
  builds := fun _ => true

/-- A rule file that looks for a pattern in the command line. -/
def commandRule (condition pattern : String) : SigmaRuleFile where
  title := pattern
  id := some pattern
  detection := {
    condition := some condition
    selections := [("selection", .mapping [(.string "CommandLine|contains", .string pattern)])] }

/-- A fast rule with a pattern of three bytes, another one with a longer pattern, and a complex rule. -/
def shellRules : List CompiledSigmaRule :=
  [commandRule "selection" "cmd", commandRule "selection" "powershell", commandRule "1 of (selection*)" "whoami"].filterMap
    fun file => (compileRule asciiLibraries "" file).toOption

/-- The first and the last of these rules match, and none is returned. -/
theorem shell_lost :
    ¬ ∀ (lib : Libraries) (rules : List CompiledSigmaRule) (event : EnrichedEvent), Lossless lib rules event := by
  intro h
  have hall : ((TieredSigmaEngine.new asciiLibraries shellRules).evaluateAll
      { raw := .process "cmd.exe" "cmd /c whoami" none }).map (·.title) = ["cmd", "whoami"] := by decide +kernel
  have hnone : ((TieredSigmaEngine.new asciiLibraries shellRules).evaluate
      { raw := .process "cmd.exe" "cmd /c whoami" none }).isEmpty := by decide +kernel
  have hcmd : "cmd" ∈ ((TieredSigmaEngine.new asciiLibraries shellRules).evaluateAll
      { raw := .process "cmd.exe" "cmd /c whoami" none }).map (·.title) := hall ▸ List.mem_cons_self
  obtain ⟨rule, hrule, -⟩ := List.mem_map.1 hcmd
  have hmem := h asciiLibraries shellRules _ rule hrule
  rw [List.isEmpty_iff.1 hnone] at hmem
  cases hmem

end ThorFirewall.Sigma
