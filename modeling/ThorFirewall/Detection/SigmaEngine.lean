import Mathlib
import ThorFirewall.Detection.SigmaCompiler
import ThorFirewall.Lib.BucketIndex

/-!
# The Sigma engine and its category index (`detection/sigma.rs`)

Rules are indexed by the lower-cased category of their log source, and those without one under `*`. An event goes to the
rules of its category and to those under `*`.

- `SigmaEngine.Indexed`: the buckets are the positions of the rules of each category. `load` and `add_rule` keep it;
- `checkAll_eq`, `check_eq`: what the checks return, as a pass over the rules (`linearScan`);
- `category_index_faithful`: after a load and any calls of `add_rule`.
-/

namespace ThorFirewall.Sigma

open Std Detection BucketIndex

def wildcardCategory : String := "*"

/-- `rules_by_category` has the positions of the rules of each category. -/
structure SigmaEngine where
  rules : List CompiledSigmaRule
  ruleCount : ℕ
  rulesByCategory : TreeMap String (List ℕ) compare

/-- The category under which a rule is indexed. -/
def CompiledSigmaRule.category (lib : Libraries) (rule : CompiledSigmaRule) : String :=
  lib.toLowercase ((rule.logsource.bind (·.category)).getD wildcardCategory)

/-- The loop of `load`. -/
def buildIndex (lib : Libraries) (rules : List CompiledSigmaRule) : TreeMap String (List ℕ) compare :=
  rules.zipIdx.foldl (fun index (rule, i) => push index (rule.category lib) i) ∅

def eventCategory (event : EnrichedEvent) : String :=
  match event.raw with
  | .process _ _ _ => "process_creation"
  | .network _ _ => "network_connection"
  | .dns _ _ => "dns_query"
  | .file => "file_event"
  | .registry => "registry_event"
  | _ => wildcardCategory

def makeAlert (rule : CompiledSigmaRule) (event : EnrichedEvent) : Alert where
  source := event.hostname.getD "unknown"
  ruleName := "Sigma:" ++ rule.title
  ruleType := .sigma
  threatLevel := rule.level
  description := "[Sigma] " ++ rule.description ++ " | tags: " ++ ", ".intercalate rule.tags
  pid := none
  processName := none
  srcIp := event.srcIpStr
  dstIp := event.dstIpStr
  rawEventType := event.raw.source

namespace SigmaEngine

def load (lib : Libraries) (dir : Option (List RuleFile)) : Except Fault SigmaEngine := do
  let rules ← loadDirectory lib dir
  return { rules, ruleCount := rules.length, rulesByCategory := buildIndex lib rules }

def candidateIndices (lib : Libraries) (engine : SigmaEngine) (event : EnrichedEvent) : List ℕ :=
  let cat := lib.toLowercase (eventCategory event)
  bucket engine.rulesByCategory cat ++
    if cat ≠ wildcardCategory then bucket engine.rulesByCategory wildcardCategory else []

/-- The loop of `check`. The outer `none` is the panic of an index out of range. -/
def checkFrom (engine : SigmaEngine) (event : EnrichedEvent) : List ℕ → Option (Option Alert)
  | [] => some none
  | idx :: candidates =>
    match engine.rules[idx]? with
    | none => none
    | some rule => if rule.evaluate event then some (some (makeAlert rule event)) else engine.checkFrom event candidates

def check (lib : Libraries) (engine : SigmaEngine) (event : EnrichedEvent) : Option (Option Alert) :=
  engine.checkFrom event (engine.candidateIndices lib event)

/-- The alert of a rule, if it matches. -/
def alertOf (event : EnrichedEvent) (rule : CompiledSigmaRule) : Option Alert :=
  if rule.evaluate event then some (makeAlert rule event) else none

/-- `none` is the panic of an index out of range. -/
def checkAll (lib : Libraries) (engine : SigmaEngine) (event : EnrichedEvent) : Option (List Alert) := do
  let rules ← (engine.candidateIndices lib event).mapM fun idx => engine.rules[idx]?
  return rules.filterMap (alertOf event)

/-- A rule is added at runtime; the result is its id. -/
def addRule (lib : Libraries) (engine : SigmaEngine) (uuid yamlContent : String) : SigmaEngine × Except Fault String :=
  match compileFile lib uuid yamlContent with
  | .error fault => (engine, .error fault)
  | .ok rule =>
    ({ rules := engine.rules ++ [rule]
       ruleCount := engine.ruleCount + 1
       rulesByCategory := push engine.rulesByCategory (rule.category lib) engine.rules.length }, .ok rule.id)

/-- The invariant of the index. -/
structure Indexed (lib : Libraries) (engine : SigmaEngine) : Prop where
  count : engine.ruleCount = engine.rules.length
  index : Indexes (CompiledSigmaRule.category lib) engine.rules engine.rulesByCategory

end SigmaEngine

open SigmaEngine

variable {lib : Libraries} {engine : SigmaEngine} {event : EnrichedEvent}

/-! ## The invariant -/

theorem indexes_buildIndex (lib : Libraries) (rules : List CompiledSigmaRule) :
    Indexes (CompiledSigmaRule.category lib) rules (buildIndex lib rules) := by
  induction rules using List.reverseRecOn with
  | nil => exact indexes_nil
  | append_singleton rules rule ih =>
    rw [buildIndex, List.zipIdx_append, List.foldl_append]
    simpa [buildIndex] using ih.push rule

theorem indexed_load {dir : Option (List RuleFile)} (h : load lib dir = .ok engine) : Indexed lib engine := by
  rw [load] at h
  cases hrules : loadDirectory lib dir with
  | error fault =>
    rw [hrules] at h
    cases h
  | ok rules =>
    rw [hrules] at h
    cases h
    exact ⟨rfl, indexes_buildIndex lib rules⟩

theorem indexed_addRule (h : Indexed lib engine) (uuid content : String) :
    Indexed lib (engine.addRule lib uuid content).1 := by
  rw [addRule]
  cases compileFile lib uuid content with
  | error fault => exact h
  | ok rule => exact ⟨by simp [h.count], h.index.push rule⟩

/-- The engine after calls of `add_rule`, each with its uuid and its text. -/
def SigmaEngine.addRules (lib : Libraries) (engine : SigmaEngine) (adds : List (String × String)) : SigmaEngine :=
  adds.foldl (fun engine add => (engine.addRule lib add.1 add.2).1) engine

theorem indexed_addRules (h : Indexed lib engine) (adds : List (String × String)) :
    Indexed lib (engine.addRules lib adds) := by
  induction adds generalizing engine with
  | nil => exact h
  | cons add adds ih => exact ih (indexed_addRule h add.1 add.2)

/-! ## The checks -/

/-- The rule looks at events of this kind: it has their category, or `*`, or none. -/
def eligible (lib : Libraries) (event : EnrichedEvent) (rule : CompiledSigmaRule) : Bool :=
  match rule.logsource.bind (·.category) with
  | none => true
  | some category =>
    lib.toLowercase category == eventCategory event || lib.toLowercase category == wildcardCategory

/-- All rules, one after the other. -/
def linearScan (lib : Libraries) (engine : SigmaEngine) (event : EnrichedEvent) : List Alert :=
  (engine.rules.filter (eligible lib event)).filterMap (alertOf event)

theorem toLowercase_self (lib : Libraries) {s : String}
    (h : (s.toList.all fun c => decide (c.toNat < 128) && c.toLower == c) = true) : lib.toLowercase s = s := by
  simp only [List.all_eq_true, Bool.and_eq_true, decide_eq_true_eq, beq_iff_eq] at h
  rw [lib.toLowercase_ascii s fun c hc => (h c hc).1, List.map_congr_left fun c hc => (h c hc).2, List.map_id',
    String.ofList_toList]

theorem toLowercase_wildcard (lib : Libraries) : lib.toLowercase wildcardCategory = wildcardCategory :=
  toLowercase_self lib rfl

theorem toLowercase_eventCategory (lib : Libraries) (event : EnrichedEvent) :
    lib.toLowercase (eventCategory event) = eventCategory event := by
  refine toLowercase_self lib ?_
  unfold eventCategory
  cases event.raw <;> simp only <;> decide +kernel

theorem eligible_iff (rule : CompiledSigmaRule) : eligible lib event rule = true ↔
    rule.category lib = eventCategory event ∨ rule.category lib = wildcardCategory := by
  unfold eligible CompiledSigmaRule.category
  cases rule.logsource.bind (·.category) with
  | none => simp [toLowercase_wildcard]
  | some category => simp

/-- The candidates are positions of rules. -/
theorem candidate_lt (h : Indexed lib engine) {i : ℕ} (hi : i ∈ engine.candidateIndices lib event) :
    i < engine.rules.length := by
  have hbucket : ∀ cat, i ∈ bucket engine.rulesByCategory cat → i < engine.rules.length := by
    intro cat hi
    obtain ⟨rule, hrule, -⟩ := h.index.mem_bucket.1 hi
    exact (List.getElem?_eq_some_iff.1 hrule).1
  rw [candidateIndices, List.mem_append] at hi
  rcases hi with hi | hi
  · exact hbucket _ hi
  · split_ifs at hi
    · exact hbucket _ hi
    · cases hi

/-- Going through the candidates is going through the eligible rules, in another order. -/
theorem candidates_perm (h : Indexed lib engine) (event : EnrichedEvent) :
    ((engine.candidateIndices lib event).filterMap fun i => engine.rules[i]?.bind (alertOf event)).Perm
      (linearScan lib engine event) := by
  have hscan : linearScan lib engine event = engine.rules.filterMap fun rule =>
      if rule.category lib = eventCategory event ∨ rule.category lib = wildcardCategory then alertOf event rule
      else none := by
    rw [linearScan, List.filterMap_filter]
    simp only [eligible_iff]
  rw [hscan, candidateIndices, toLowercase_eventCategory, List.filterMap_append, h.index.filterMap_bucket]
  by_cases hcat : eventCategory event = wildcardCategory
  · rw [if_neg (not_not.2 hcat), List.filterMap_nil, List.append_nil, hcat]
    simp only [or_self, List.Perm.refl]
  · rw [if_pos hcat, h.index.filterMap_bucket]
    exact filterMap_append_perm _ _ (fun rule hp hq => hcat (hp.symm.trans hq)) _ _

theorem mapM_getElem? {α : Type*} {l : List α} {is : List ℕ} (h : ∀ i ∈ is, i < l.length) :
    is.mapM (fun i => l[i]?) = some (is.filterMap fun i => l[i]?) := by
  induction is with
  | nil => rfl
  | cons i is ih =>
    obtain ⟨a, hi⟩ : ∃ a, l[i]? = some a := ⟨_, List.getElem?_eq_getElem (h i List.mem_cons_self)⟩
    rw [List.mapM_cons, hi, ih fun j hj => h j (List.mem_cons_of_mem i hj), List.filterMap_cons_some hi]
    rfl

/-- **`check_all` returns the alerts of a pass over all rules.** -/
theorem checkAll_eq (h : Indexed lib engine) (event : EnrichedEvent) :
    ∃ alerts, engine.checkAll lib event = some alerts ∧ alerts.Perm (linearScan lib engine event) := by
  refine ⟨_, ?_, candidates_perm h event⟩
  rw [checkAll, mapM_getElem? fun i hi => candidate_lt h hi]
  exact congrArg some List.filterMap_filterMap

/-- `check` returns the first alert of the candidates. -/
theorem checkFrom_eq {is : List ℕ} (h : ∀ i ∈ is, i < engine.rules.length) :
    engine.checkFrom event is = some (is.filterMap fun i => engine.rules[i]?.bind (alertOf event)).head? := by
  induction is with
  | nil => rfl
  | cons i is ih =>
    obtain ⟨rule, hi⟩ : ∃ rule, engine.rules[i]? = some rule := ⟨_, List.getElem?_eq_getElem (h i List.mem_cons_self)⟩
    rw [checkFrom, hi, List.filterMap_cons, hi]
    simp only [Option.bind_some, alertOf]
    split_ifs with hm
    · rfl
    · exact ih fun j hj => h j (List.mem_cons_of_mem i hj)

/-- **The category index is faithful.** After a load and any calls of `add_rule`, every position is in one bucket, once;
a call that fails changes nothing; `check_all` returns the alerts of a pass over all rules that look at the event, and
`check` returns one of them if there is one. -/
theorem category_index_faithful {dir : Option (List RuleFile)} {engine₀ : SigmaEngine} (hload : load lib dir = .ok engine₀)
    (adds : List (String × String)) :
    let engine := engine₀.addRules lib adds
    engine.ruleCount = engine.rules.length ∧
    (∀ i < engine.ruleCount, ∃! cat : String, ∃ b : List ℕ, engine.rulesByCategory[cat]? = some b ∧ i ∈ b) ∧
    (∀ (cat : String) (b : List ℕ), engine.rulesByCategory[cat]? = some b → b.Nodup ∧ ∀ i ∈ b, i < engine.ruleCount) ∧
    (∀ uuid content fault, (engine.addRule lib uuid content).2 = .error fault →
      (engine.addRule lib uuid content).1 = engine) ∧
    ∀ event, (∃ alerts, engine.checkAll lib event = some alerts ∧ alerts.Perm (linearScan lib engine event)) ∧
      ∃ alert, engine.check lib event = some alert ∧ (alert.isSome ↔ linearScan lib engine event ≠ []) ∧
        ∀ a ∈ alert, a ∈ linearScan lib engine event := by
  intro engine
  have h : Indexed lib engine := indexed_addRules (indexed_load hload) adds
  have hbucket : ∀ {cat : String} {i : ℕ}, (∃ b : List ℕ, engine.rulesByCategory[cat]? = some b ∧ i ∈ b) ↔
      i ∈ bucket engine.rulesByCategory cat := by
    intro cat i
    rw [bucket]
    cases engine.rulesByCategory[cat]? <;> simp
  refine ⟨h.count, fun i hi => ?_, fun cat b hb => ?_, fun uuid content fault hfault => ?_, fun event => ?_⟩
  · simp only [hbucket]
    exact h.index.existsUnique (h.count ▸ hi)
  · have hb' : bucket engine.rulesByCategory cat = b := by rw [bucket, hb, Option.getD_some]
    refine ⟨hb' ▸ h.index.nodup_bucket cat, fun i hi => ?_⟩
    obtain ⟨rule, hrule, -⟩ := h.index.mem_bucket.1 (hb' ▸ hi)
    exact h.count ▸ (List.getElem?_eq_some_iff.1 hrule).1
  · rw [addRule] at hfault ⊢
    cases hcompile : compileFile lib uuid content with
    | error fault' => rfl
    | ok rule =>
      rw [hcompile] at hfault
      cases hfault
  · refine ⟨checkAll_eq h event, _, checkFrom_eq fun i hi => candidate_lt h hi, ?_, fun a ha => ?_⟩
    · rw [List.isSome_head?, ne_eq, ne_eq, ← List.length_eq_zero_iff, ← List.length_eq_zero_iff,
        (candidates_perm h event).length_eq]
    · exact (candidates_perm h event).subset (List.mem_of_mem_head? ha)

/-- Libraries whose YAML reader knows two texts: a rule of a category, and a rule without one. -/
def twoFiles : Libraries where
  fromYaml := fun content =>
    let detection : SigmaDetectionBlock := { selections := [("selection", .sequence [.string "whoami"])] }
    if content = "with category" then
      some { title := "A", id := some "a", detection, logsource := some { category := some "Process_Creation" } }
    else if content = "without" then some { title := "B", detection } else none
  toLowercase := fun s => String.ofList (s.toList.map Char.toLower)
  toLowercase_ascii := fun _ _ => rfl
  builds := fun _ => true

/-- A file of the directory, then a text that is no rule and one that is: both rules find the event. -/
theorem category_index_two_files :
    ∃ engine₀, load twoFiles (some [⟨some "yml", some "with category", "u0"⟩]) = .ok engine₀ ∧
      ∃ alerts, (engine₀.addRules twoFiles [("u1", "damaged"), ("u2", "without")]).checkAll twoFiles
        { raw := .process "sh" "whoami" none } = some alerts ∧ alerts.length = 2 := by
  have hscan : (load twoFiles (some [⟨some "yml", some "with category", "u0"⟩])).toOption.map (fun engine₀ =>
      (linearScan twoFiles (engine₀.addRules twoFiles [("u1", "damaged"), ("u2", "without")])
        { raw := .process "sh" "whoami" none }).length) = some 2 := by decide +kernel
  cases hload : load twoFiles (some [⟨some "yml", some "with category", "u0"⟩]) with
  | error fault =>
    rw [hload] at hscan
    cases hscan
  | ok engine₀ =>
    rw [hload] at hscan
    obtain ⟨-, -, -, -, hcheck⟩ := category_index_faithful hload [("u1", "damaged"), ("u2", "without")]
    obtain ⟨⟨alerts, halerts, hperm⟩, -⟩ := hcheck { raw := .process "sh" "whoami" none }
    exact ⟨engine₀, rfl, alerts, halerts, hperm.length_eq.trans (Option.some.inj hscan)⟩

end ThorFirewall.Sigma
