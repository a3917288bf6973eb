import Mathlib
import ThorFirewall.Detection.Events
import ThorFirewall.Lib.Mealy

/-!
# The sequence detector (`detection/sequence_detector.rs`)

A rule is a list of stages. For each rule and each entity (a host, a process, a user or an address) the detector keeps
one partial match: how many stages have fired, and when the first one did. A stage-0 event begins it, or begins it anew
when it is not the event that is waited for; the last stage completes it and raises an alert; it expires when the window
of its rule has passed. Two evictions take expired entries out, one of them by a ceiling that is the same for all rules.
The clock reads the same throughout one call; times are nanoseconds.

- `Cell`, `advance`: the partial match of one rule and one entity, and what an event does to it;
- `processRule_spec`: `process_rule` advances the cell of its rule and of the event's entity, and no other;
- `processRules_spec`: with distinct rule ids, `process` advances each cell on its own;
- `after_pending`, `raised_iff`: a run of the detector and its alerts, seen from one cell.
-/

namespace ThorFirewall.Detection

open Std

/-! ## Rules -/

inductive EntityField
  | hostname
  | pid
  | userId
  | srcIp
  deriving DecidableEq, Repr

inductive StagePredicate
  | commandContains (patterns : List String)
  | processNameIn (names : List String)
  | eventTypeEquals (t : String)
  | and (preds : List StagePredicate)
  | or (preds : List StagePredicate)

mutual

def StagePredicate.matches : StagePredicate → EnrichedEvent → Bool
  | .commandContains patterns, event => patterns.any fun p => contains (event.commandLine.getD "") p
  | .processNameIn names, event => names.any fun n => event.processName.getD "" == n
  | .eventTypeEquals t, event => event.eventType == some t
  | .and preds, event => matchesAll preds event
  | .or preds, event => matchesAny preds event

/-- `preds.iter().all(..)`. -/
def matchesAll : List StagePredicate → EnrichedEvent → Bool
  | [], _ => true
  | p :: preds, event => p.matches event && matchesAll preds event

/-- `preds.iter().any(..)`. -/
def matchesAny : List StagePredicate → EnrichedEvent → Bool
  | [], _ => false
  | p :: preds, event => p.matches event || matchesAny preds event

end

structure SequenceStage where
  name : String
  entityField : EntityField
  predicate : StagePredicate

structure SequenceRule where
  id : String
  title : String
  description : String
  threatLevel : ThreatLevel
  stages : List SequenceStage
  /-- In nanoseconds. -/
  window : ℕ
  tags : List String

/-! ## Partial matches -/

structure PendingSequence where
  nextStage : ℕ
  windowStart : ℕ
  ruleWindow : ℕ
  stageEvents : List String
  deriving DecidableEq, Repr

def PendingSequence.new (firstEventDesc : String) (ruleWindow now : ℕ) : PendingSequence where
  nextStage := 1
  windowStart := now
  ruleWindow := ruleWindow
  stageEvents := [firstEventDesc]

def PendingSequence.isExpired (p : PendingSequence) (now : ℕ) : Bool := p.ruleWindow < now - p.windowStart

abbrev SeqKey := String × String

/-- Keys are ordered by rule and then by entity. -/
def SeqKey.cmp (a b : SeqKey) : Ordering := compareLex (compareOn Prod.fst) (compareOn Prod.snd) a b

instance : TransCmp SeqKey.cmp :=
  inferInstanceAs (TransCmp (compareLex (compareOn (Prod.fst : SeqKey → String)) (compareOn Prod.snd)))

theorem SeqKey.cmp_eq_iff {a b : SeqKey} : SeqKey.cmp a b = .eq ↔ a = b := by
  rw [SeqKey.cmp, compareLex_eq_eq, compareOn, compareOn, Std.compare_eq_iff_eq, Std.compare_eq_iff_eq, Prod.ext_iff]

instance : LawfulEqCmp SeqKey.cmp where
  eq_of_compare := SeqKey.cmp_eq_iff.1
  compare_self := SeqKey.cmp_eq_iff.2 rfl

/-! ## The detector -/

structure SequenceDetector where
  pending : TreeMap SeqKey PendingSequence SeqKey.cmp
  completedCount : UInt64
  evictedCount : UInt64

def SequenceDetector.new : SequenceDetector := { pending := ∅, completedCount := 0, evictedCount := 0 }

/-- Ten minutes. -/
def ceiling : ℕ := 600 * 10 ^ 9

namespace SequenceDetector

/-- The number of evicted entries is the result. -/
def cleanupExpired (s : SequenceDetector) (now : ℕ) : SequenceDetector × ℕ :=
  let kept := s.pending.filter fun _ p => !p.isExpired now
  let evicted := s.pending.size - kept.size
  ({ s with pending := kept, evictedCount := s.evictedCount + UInt64.ofNat evicted }, evicted)

def inlineEvictExpired (s : SequenceDetector) (now : ℕ) : SequenceDetector :=
  { s with pending := s.pending.filter fun _ p => !decide (ceiling < now - p.windowStart) }

end SequenceDetector

def extractEntityKey (rule : SequenceRule) (event : EnrichedEvent) : String :=
  match rule.stages with
  | [] => "global"
  | stage :: _ =>
    match stage.entityField with
    | .hostname => event.hostname.getD "unknown"
    | .pid => (event.pid.map toString).getD "0"
    | .userId => event.userId.getD "unknown"
    | .srcIp => event.srcIpStr.getD "0.0.0.0"

def eventDescription (event : EnrichedEvent) : String :=
  let eventType := event.eventType.getD "?"
  let commandLine := event.commandLine.getD "?"
  let processName := event.processName.getD "?"
  let hostname := event.hostname.getD "?"
  s!"[{eventType}] cmd={commandLine} proc={processName} host={hostname}"

def makeAlert (rule : SequenceRule) (event : EnrichedEvent) (stageEvents : List String) : Alert where
  source := event.hostname.getD "unknown"
  ruleName := s!"Sequence:{rule.title}"
  ruleType := .behavioral
  threatLevel := rule.threatLevel
  description := s!"[SequenceDetector] {rule.description} | stages={rule.stages.length} | chain: " ++
    " → ".intercalate stageEvents
  pid := event.pid
  processName := event.processName
  srcIp := event.srcIpStr
  dstIp := event.dstIpStr
  rawEventType := event.raw.source

/-- The predicate of a stage matches. -/
def SequenceRule.matchesAt (rule : SequenceRule) (i : ℕ) (event : EnrichedEvent) : Bool :=
  rule.stages[i]?.any fun stage => stage.predicate.matches event

namespace SequenceDetector

/-- The stage that is waited for. An expired entry is taken out, and its stages start again. -/
def nextStageIdx (s : SequenceDetector) (seqKey : SeqKey) (now : ℕ) : SequenceDetector × ℕ :=
  match s.pending[seqKey]? with
  | some p => if p.isExpired now then ({ s with pending := s.pending.erase seqKey }, 0) else (s, p.nextStage)
  | none => (s, 0)

/-- The second half of `process_rule`: stage `idx` is waited for. -/
def fireStage (s : SequenceDetector) (rule : SequenceRule) (event : EnrichedEvent) (now : ℕ) (seqKey : SeqKey)
    (idx : ℕ) : SequenceDetector × Option Alert :=
  if rule.stages.length ≤ idx then (s, none)
  else if !rule.matchesAt idx event then
    -- a stage-0 event begins the sequence anew
    if 0 < idx && rule.matchesAt 0 event then
      ({ s with pending := s.pending.insert seqKey (.new (eventDescription event) rule.window now) }, none)
    else (s, none)
  else if idx = 0 then
    ({ s with pending := s.pending.insert seqKey (.new (eventDescription event) rule.window now) }, none)
  else if idx = rule.stages.length - 1 then
    let stageEvents := match s.pending[seqKey]? with
      | some p => p.stageEvents ++ [eventDescription event]
      | none => [eventDescription event]
    ({ s with pending := s.pending.erase seqKey, completedCount := s.completedCount + 1 },
      some (makeAlert rule event stageEvents))
  else
    match s.pending[seqKey]? with
    | some p =>
      let p := { p with nextStage := p.nextStage + 1, stageEvents := p.stageEvents ++ [eventDescription event] }
      ({ s with pending := s.pending.insert seqKey p }, none)
    | none => (s, none)

def processRule (s : SequenceDetector) (rule : SequenceRule) (event : EnrichedEvent) (now : ℕ) :
    SequenceDetector × Option Alert :=
  let seqKey := (rule.id, extractEntityKey rule event)
  let r := s.nextStageIdx seqKey now
  r.1.fireStage rule event now seqKey r.2

/-- One rule after the other. An alert is listed with its rule. -/
def processRules (s : SequenceDetector) (event : EnrichedEvent) (now : ℕ) :
    List SequenceRule → SequenceDetector × List (SequenceRule × Alert)
  | [] => (s, [])
  | rule :: rules =>
    let r := s.processRule rule event now
    let r' := r.1.processRules event now rules
    (r'.1, (r.2.map fun alert => (rule, alert)).toList ++ r'.2)

/-- `roll` is the outcome of `rand_u8() == 0`. -/
def process (rules : List SequenceRule) (s : SequenceDetector) (event : EnrichedEvent) (now : ℕ) (roll : Bool) :
    SequenceDetector × List (SequenceRule × Alert) :=
  let s := if roll then s.inlineEvictExpired now else s
  s.processRules event now rules

end SequenceDetector

/-! ## Runs -/

inductive Action
  | process (event : EnrichedEvent) (now : ℕ) (roll : Bool)
  | cleanup (now : ℕ)
  | inlineEvict (now : ℕ)

def Action.now : Action → ℕ
  | process _ now _ => now
  | cleanup now => now
  | inlineEvict now => now

/-- The clock of a run does not go back. -/
def Monotone (acts : List Action) : Prop := (acts.map Action.now).Pairwise (· ≤ ·)

def step (rules : List SequenceRule) (s : SequenceDetector) : Action → SequenceDetector × List (SequenceRule × Alert)
  | .process event now roll => s.process rules event now roll
  | .cleanup now => ((s.cleanupExpired now).1, [])
  | .inlineEvict now => (s.inlineEvictExpired now, [])

def after (rules : List SequenceRule) (acts : List Action) : SequenceDetector := Mealy.after (step rules) .new acts

/-- The alerts of each action. -/
def alerts (rules : List SequenceRule) (acts : List Action) : List (List (SequenceRule × Alert)) :=
  Mealy.outputs (step rules) .new acts

/-! ## Cells -/

/-- The partial match of one rule and one entity. -/
abbrev Cell := Option PendingSequence

/-- The cell without an expired match. -/
def Cell.live (c : Cell) (now : ℕ) : Cell := c.filter fun p => !p.isExpired now

/-- The cell without a match that is older than the ceiling. -/
def Cell.young (c : Cell) (now : ℕ) : Cell := c.filter fun p => !decide (ceiling < now - p.windowStart)

/-- What an event of its entity does to the cell of a rule. It depends on the match that has not expired. -/
def advance (rule : SequenceRule) (c : Cell) (event : EnrichedEvent) (now : ℕ) : Cell × Option Alert :=
  match c.live now with
  | none => (if rule.matchesAt 0 event then some (.new (eventDescription event) rule.window now) else none, none)
  | some p =>
    if rule.stages.length ≤ p.nextStage then (some p, none)
    else if !rule.matchesAt p.nextStage event then
      (if 0 < p.nextStage && rule.matchesAt 0 event then some (.new (eventDescription event) rule.window now)
        else some p, none)
    else if p.nextStage = 0 then (some (.new (eventDescription event) rule.window now), none)
    else if p.nextStage = rule.stages.length - 1 then
      (none, some (makeAlert rule event (p.stageEvents ++ [eventDescription event])))
    else
      (some { p with nextStage := p.nextStage + 1, stageEvents := p.stageEvents ++ [eventDescription event] }, none)

variable {rule r : SequenceRule} {rules : List SequenceRule} {s : SequenceDetector} {event : EnrichedEvent}
  {now : ℕ} {key : SeqKey} {x : String}

theorem matchesAt_of_le {i : ℕ} (h : rule.stages.length ≤ i) : rule.matchesAt i event = false := by
  rw [SequenceRule.matchesAt, List.getElem?_eq_none h]
  rfl

theorem getElem?_insert (t : TreeMap SeqKey PendingSequence SeqKey.cmp) (k key : SeqKey) (p : PendingSequence) :
    (t.insert k p)[key]? = if key = k then some p else t[key]? := by
  simp only [TreeMap.getElem?_insert, SeqKey.cmp_eq_iff, @eq_comm _ key k]

theorem getElem?_erase (t : TreeMap SeqKey PendingSequence SeqKey.cmp) (k key : SeqKey) :
    (t.erase k)[key]? = if key = k then none else t[key]? := by
  simp only [TreeMap.getElem?_erase, SeqKey.cmp_eq_iff, @eq_comm _ key k]

/-- `r` does this to one cell, and leaves the others as they are. -/
def Sets (s : SequenceDetector) (k : SeqKey) (out : Cell × Option Alert) (r : SequenceDetector × Option Alert) : Prop :=
  (∀ key, r.1.pending[key]? = if key = k then out.1 else s.pending[key]?) ∧ r.2 = out.2

theorem sets_self {k : SeqKey} {c : Cell} (hc : s.pending[k]? = c) (o : Option Alert) : Sets s k (c, o) (s, o) := by
  refine ⟨fun key => ?_, rfl⟩
  split_ifs with h
  · rw [h, hc]
  · rfl

/-- A cell without a match waits for stage 0. -/
theorem fireStage_none {k : SeqKey} (hc : s.pending[k]? = none) :
    Sets s k (advance rule none event now) (s.fireStage rule event now k 0) := by
  unfold SequenceDetector.fireStage advance
  by_cases hm : rule.matchesAt 0 event
  · have hlen : ¬ rule.stages.length ≤ 0 := fun h => by simp [matchesAt_of_le h] at hm
    simp only [hlen, hm, Bool.not_true, Bool.false_eq_true, if_true, if_false, Cell.live, Option.filter_none]
    exact ⟨fun key => getElem?_insert _ _ _ _, rfl⟩
  · simp only [hm, Bool.not_false, Bool.false_eq_true, if_false, if_true, Cell.live, Option.filter_none, Nat.lt_irrefl,
      decide_false, Bool.false_and, ite_self]
    exact sets_self hc none

/-- A cell with a match that has not expired waits for its next stage. -/
theorem fireStage_some {k : SeqKey} {p : PendingSequence} (hc : s.pending[k]? = some p) (hp : p.isExpired now = false) :
    Sets s k (advance rule (some p) event now) (s.fireStage rule event now k p.nextStage) := by
  have hlive : Cell.live (some p) now = some p := by simp [Cell.live, hp]
  unfold SequenceDetector.fireStage advance
  rw [hlive]
  simp only
  split_ifs
  · exact sets_self hc none
  · exact ⟨fun key => getElem?_insert _ _ _ _, rfl⟩
  · exact sets_self hc none
  · exact ⟨fun key => getElem?_insert _ _ _ _, rfl⟩
  · rw [hc]
    exact ⟨fun key => getElem?_erase _ _ _, rfl⟩
  · rw [hc]
    exact ⟨fun key => getElem?_insert _ _ _ _, rfl⟩

/-- Cells that are alike but for an expired match are advanced alike. -/
theorem advance_congr {c c' : Cell} (h : c.live now = c'.live now) :
    advance rule c event now = advance rule c' event now := by
  unfold advance
  rw [h]

/-- `process_rule` advances one cell. -/
theorem processRule_spec (s : SequenceDetector) (rule : SequenceRule) (event : EnrichedEvent) (now : ℕ) :
    Sets s (rule.id, extractEntityKey rule event)
      (advance rule s.pending[(rule.id, extractEntityKey rule event)]? event now) (s.processRule rule event now) := by
  unfold SequenceDetector.processRule SequenceDetector.nextStageIdx
  generalize (rule.id, extractEntityKey rule event) = k
  simp only
  cases hc : s.pending[k]? with
  | none => exact fireStage_none hc
  | some p =>
    by_cases hp : p.isExpired now
    · simp only [hp, if_true]
      have hlive : Cell.live (some p) now = Cell.live none now := by simp [Cell.live, hp]
      rw [advance_congr hlive]
      have herase : (s.pending.erase k)[k]? = none := by rw [getElem?_erase, if_pos rfl]
      obtain ⟨hcell, hout⟩ : Sets { s with pending := s.pending.erase k } k (advance rule none event now) _ :=
        fireStage_none herase
      refine ⟨fun key => ?_, hout⟩
      rw [hcell]
      split_ifs with h
      · rfl
      · exact (getElem?_erase _ _ _).trans (if_neg h)
    · simp only [hp, Bool.false_eq_true, if_false]
      exact fireStage_some hc (Bool.eq_false_iff.2 hp)

/-! ## The cells of a rule set -/

/-- A rule changes no cell of another id. -/
theorem processRule_frame (s : SequenceDetector) (rule : SequenceRule) (event : EnrichedEvent) (now : ℕ) {id x : String}
    (h : id ≠ rule.id) : (s.processRule rule event now).1.pending[(id, x)]? = s.pending[(id, x)]? := by
  rw [(processRule_spec s rule event now).1, if_neg]
  exact fun hk => h (Prod.ext_iff.1 hk).1

theorem processRules_frame {id x : String} (h : id ∉ rules.map (·.id)) (s : SequenceDetector) (event : EnrichedEvent)
    (now : ℕ) : (s.processRules event now rules).1.pending[(id, x)]? = s.pending[(id, x)]? := by
  induction rules generalizing s with
  | nil => rfl
  | cons rule rules ih =>
    simp only [List.map_cons, List.mem_cons, not_or] at h
    rw [SequenceDetector.processRules]
    exact (ih h.2 _).trans (processRule_frame s rule event now h.1)

theorem mem_processRules_cons {alert : Alert} : (r, alert) ∈ (s.processRules event now (rule :: rules)).2 ↔
    rule = r ∧ (s.processRule rule event now).2 = some alert ∨
      (r, alert) ∈ ((s.processRule rule event now).1.processRules event now rules).2 := by
  rw [SequenceDetector.processRules, List.mem_append, Option.mem_toList, Option.map_eq_some_iff]
  simp only [Prod.mk.injEq]
  constructor
  · rintro (⟨a, ha, rfl, rfl⟩ | h)
    · exact .inl ⟨rfl, ha⟩
    · exact .inr h
  · rintro (⟨rfl, h⟩ | h)
    · exact .inl ⟨alert, h, rfl, rfl⟩
    · exact .inr h

theorem mem_rules_of_mem_processRules {alert : Alert} (h : (r, alert) ∈ (s.processRules event now rules).2) :
    r ∈ rules := by
  induction rules generalizing s with
  | nil => simp [SequenceDetector.processRules] at h
  | cons rule rules ih =>
    rcases mem_processRules_cons.1 h with ⟨rfl, -⟩ | h
    · exact List.mem_cons_self
    · exact List.mem_cons_of_mem _ (ih h)

/-- What an event does to the cell of an entity: it advances the cell of its own entity. -/
def Cell.feed (r : SequenceRule) (x : String) (c : Cell) (event : EnrichedEvent) (now : ℕ) : Cell × Option Alert :=
  if extractEntityKey r event = x then advance r c event now else (c, none)

/-- With distinct ids, each cell is advanced on its own. -/
theorem processRules_spec (hids : (rules.map (·.id)).Nodup) (hr : r ∈ rules) (s : SequenceDetector)
    (event : EnrichedEvent) (now : ℕ) :
    (∀ x, (s.processRules event now rules).1.pending[(r.id, x)]? =
      (Cell.feed r x s.pending[(r.id, x)]? event now).1) ∧
    ∀ alert, (r, alert) ∈ (s.processRules event now rules).2 ↔
      (advance r s.pending[(r.id, extractEntityKey r event)]? event now).2 = some alert := by
  induction rules generalizing s with
  | nil => cases hr
  | cons rule rules ih =>
    rw [List.map_cons, List.nodup_cons] at hids
    obtain ⟨hcell, hout⟩ := processRule_spec s rule event now
    rcases List.mem_cons.1 hr with rfl | hr
    · -- the rule itself; the others have other ids
      constructor
      · intro x
        rw [SequenceDetector.processRules, processRules_frame hids.1, hcell, Cell.feed]
        by_cases hx : extractEntityKey r event = x
        · rw [if_pos hx, if_pos (by rw [hx]), hx]
        · rw [if_neg hx, if_neg fun hk => hx (Prod.ext_iff.1 hk).2.symm]
      · intro alert
        rw [← hout, mem_processRules_cons]
        constructor
        · rintro (⟨-, h⟩ | h)
          · exact h
          · exact absurd (List.mem_map.2 ⟨r, mem_rules_of_mem_processRules h, rfl⟩) hids.1
        · exact fun h => .inl ⟨rfl, h⟩
    · -- a later rule: the first one has another id
      have hne : r.id ≠ rule.id := fun h => hids.1 (List.mem_map.2 ⟨r, hr, h⟩)
      have hsame : ∀ x, (s.processRule rule event now).1.pending[(r.id, x)]? = s.pending[(r.id, x)]? :=
        fun x => processRule_frame s rule event now hne
      obtain ⟨hstate, halert⟩ := ih hids.2 hr (s.processRule rule event now).1
      constructor
      · intro x
        rw [SequenceDetector.processRules, hstate, hsame]
      · intro alert
        rw [← hsame, ← halert, mem_processRules_cons]
        constructor
        · rintro (⟨rfl, -⟩ | h)
          · exact absurd rfl hne
          · exact h
        · exact .inr

theorem cleanupExpired_pending (s : SequenceDetector) (now : ℕ) (key : SeqKey) :
    (s.cleanupExpired now).1.pending[key]? = Cell.live s.pending[key]? now := TreeMap.getElem?_filter'

theorem inlineEvictExpired_pending (s : SequenceDetector) (now : ℕ) (key : SeqKey) :
    (s.inlineEvictExpired now).pending[key]? = Cell.young s.pending[key]? now := TreeMap.getElem?_filter'

/-! ## Runs, seen from one cell -/

/-- The eviction that `process` may begin with. -/
def Cell.rolled (c : Cell) (now : ℕ) (roll : Bool) : Cell := if roll then c.young now else c

/-- One action, seen from the cell of a rule and an entity. -/
def Cell.step (r : SequenceRule) (x : String) (c : Cell) : Action → Cell × Option Alert
  | .process event now roll => (c.rolled now roll).feed r x event now
  | .cleanup now => (c.live now, none)
  | .inlineEvict now => (c.young now, none)

theorem rolled_pending (s : SequenceDetector) (now : ℕ) (roll : Bool) (key : SeqKey) :
    (if roll then s.inlineEvictExpired now else s).pending[key]? = Cell.rolled s.pending[key]? now roll := by
  cases roll with
  | false => rfl
  | true => exact inlineEvictExpired_pending s now key

theorem step_pending (hids : (rules.map (·.id)).Nodup) (hr : r ∈ rules) (s : SequenceDetector) (a : Action) (x : String) :
    (step rules s a).1.pending[(r.id, x)]? = (Cell.step r x s.pending[(r.id, x)]? a).1 := by
  cases a with
  | process event now roll =>
    simp only [step, SequenceDetector.process, Cell.step]
    rw [(processRules_spec hids hr _ event now).1, rolled_pending]
  | cleanup now => exact cleanupExpired_pending s now _
  | inlineEvict now => exact inlineEvictExpired_pending s now _

/-- The cell of a rule and an entity after a run. -/
def cellAfter (r : SequenceRule) (x : String) (acts : List Action) : Cell := Mealy.after (Cell.step r x) none acts

/-- The alerts of the cell. -/
def cellAlerts (r : SequenceRule) (x : String) (acts : List Action) : List (Option Alert) :=
  Mealy.outputs (Cell.step r x) none acts

theorem after_pending (hids : (rules.map (·.id)).Nodup) (hr : r ∈ rules) (acts : List Action) (x : String) :
    (after rules acts).pending[(r.id, x)]? = cellAfter r x acts := by
  induction acts using List.reverseRecOn with
  | nil => simp [after, Mealy.after, SequenceDetector.new, cellAfter]
  | append_singleton acts a ih =>
    rw [after, Mealy.after_concat, step_pending hids hr, cellAfter, Mealy.after_concat]
    rw [after] at ih
    rw [ih, cellAfter]

/-- The action at this position raises an alert of the rule for the entity. -/
def Raised (rules : List SequenceRule) (acts : List Action) (r : SequenceRule) (x : String) (n : ℕ) (alert : Alert) :
    Prop :=
  ∃ out event now roll, (alerts rules acts)[n]? = some out ∧ acts[n]? = some (.process event now roll) ∧
    extractEntityKey r event = x ∧ (r, alert) ∈ out

theorem cellAlerts_iff {acts : List Action} {n : ℕ} {alert : Alert} : (cellAlerts r x acts)[n]? = some (some alert) ↔
    ∃ event now roll, acts[n]? = some (.process event now roll) ∧ extractEntityKey r event = x ∧
      (advance r ((cellAfter r x (acts.take n)).rolled now roll) event now).2 = some alert := by
  rw [cellAlerts, Mealy.getElem?_outputs, Option.map_eq_some_iff]
  constructor
  · rintro ⟨a, ha, hout⟩
    cases a with
    | process event now roll =>
      simp only [Cell.step, Cell.feed] at hout
      split_ifs at hout with hx
      exact ⟨event, now, roll, ha, hx, hout⟩
    | cleanup now => cases hout
    | inlineEvict now => cases hout
  · rintro ⟨event, now, roll, ha, hx, hout⟩
    refine ⟨_, ha, ?_⟩
    simp only [Cell.step, Cell.feed]
    rw [if_pos hx]
    exact hout

/-- An alert of the detector is an alert of one cell. -/
theorem raised_iff (hids : (rules.map (·.id)).Nodup) (hr : r ∈ rules) {acts : List Action} {n : ℕ} {alert : Alert} :
    Raised rules acts r x n alert ↔ (cellAlerts r x acts)[n]? = some (some alert) := by
  have hproc : ∀ event now roll, (r, alert) ∈ (step rules (after rules (acts.take n)) (.process event now roll)).2 ↔
      (advance r ((cellAfter r (extractEntityKey r event) (acts.take n)).rolled now roll) event now).2 = some alert := by
    intro event now roll
    rw [← after_pending hids hr]
    simp only [step, SequenceDetector.process]
    rw [(processRules_spec hids hr _ event now).2, rolled_pending]
  rw [cellAlerts_iff, Raised, alerts]
  simp only [Mealy.getElem?_outputs, Option.map_eq_some_iff]
  constructor
  · rintro ⟨out, event, now, roll, ⟨a, ha, rfl⟩, hact, rfl, hmem⟩
    rw [hact] at ha
    rw [← Option.some.inj ha] at hmem
    exact ⟨event, now, roll, hact, rfl, (hproc event now roll).1 hmem⟩
  · rintro ⟨event, now, roll, hact, rfl, hadv⟩
    exact ⟨_, event, now, roll, ⟨_, hact, rfl⟩, hact, rfl, (hproc event now roll).2 hadv⟩

end ThorFirewall.Detection
