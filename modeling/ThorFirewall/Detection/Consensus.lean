import Mathlib
import ThorFirewall.Detection.Events
import ThorFirewall.Lib.FloatRounding

/-!
# The confidence of alerts (`detection/mod.rs`)

The engine gives every alert of an event a confidence by its source, and if there are several alerts, all of them the
highest confidence and a bonus. The response to an alert is staged by its confidence alone.

- `le_boosted_iff`: when several alerts reach a confidence, by the highest one among them;
- `mem_found`, `mem_detect`: where the alerts of an event come from.

The answers of the engines are parameters, as are the texts of numbers.
-/

namespace ThorFirewall.Consensus

open FloatRounding
open Detection (EnrichedEvent)

/-- A number in single precision. -/
def f32 (x : ℚ) : ℚ := binary32.round x

/-! ## Alerts -/

inductive RuleType
  | sigma
  | yara
  | ml
  | ids
  | threatIntel
  deriving DecidableEq

/-- What the id and the time of an alert are. -/
structure Stamp where
  id : String
  timestamp : ℤ

structure Alert extends Stamp where
  source : String
  ruleName : String
  ruleType : RuleType
  threatLevel : ThreatLevel
  description : String
  pid : Option UInt32
  processName : Option String
  srcIp : Option String
  dstIp : Option String
  dstPort : Option UInt16
  mlScore : Option ℚ
  confidenceScore : ℚ
  /-- The explanation of the report. -/
  xaiReport : Option String
  soarActionsTaken : List String
  rawEventType : String

/-- The alert of a rule, which names no process. -/
structure RuleAlert extends Stamp where
  source : String
  ruleName : String
  ruleType : RuleType
  threatLevel : ThreatLevel
  description : String
  srcIp : Option String
  dstIp : Option String
  dstPort : Option UInt16
  rawEventType : String

def RuleAlert.scored (confidence : ℚ) (a : RuleAlert) : Alert where
  toStamp := a.toStamp
  source := a.source
  ruleName := a.ruleName
  ruleType := a.ruleType
  threatLevel := a.threatLevel
  description := a.description
  pid := none
  processName := none
  srcIp := a.srcIp
  dstIp := a.dstIp
  dstPort := a.dstPort
  mlScore := none
  confidenceScore := confidence
  xaiReport := none
  soarActionsTaken := []
  rawEventType := a.rawEventType

/-! ## Findings -/

/-- A malware class, as it is displayed. -/
structure MalwarePrediction where
  malwareClass : String
  confidence : ℚ

structure AnomalyWindow where
  baseline : ℚ
  value : ℚ
  zscore : ℚ
  shouldAlert : Bool

inductive ZeroDaySeverity
  | low
  | medium
  | high
  | critical
  deriving DecidableEq

/-- `{:?}`. -/
def ZeroDaySeverity.debug : ZeroDaySeverity → String
  | low => "Low"
  | medium => "Medium"
  | high => "High"
  | critical => "Critical"

structure ZeroDayFinding where
  threatScore : ℚ
  severity : ZeroDaySeverity
  /-- The methods, as they are shown. -/
  methods : List String
  summary : String

/-- What the engines find in an event, with the stamps of the alerts that are built here. -/
structure Findings where
  sigma : Option RuleAlert
  ioc : Option RuleAlert
  ids : List RuleAlert
  yara : List RuleAlert
  mlScore : Option ℚ
  malware : Option MalwarePrediction
  mlStamp : Stamp
  timeseries : Option AnomalyWindow
  timeseriesStamp : Stamp
  zeroDay : Option ZeroDayFinding
  zeroDayStamp : Stamp

def fromScore (score : ℚ) : ThreatLevel :=
  if f32 0.95 ≤ score then .critical
  else if f32 0.85 ≤ score then .high
  else if f32 0.70 ≤ score then .medium
  else if f32 0.50 ≤ score then .low
  else .unknown

def classifyAnomaly (score threshold : ℚ) : String :=
  let excess := f32 (score - threshold)
  if f32 0.45 ≤ excess then "Critical — likely active attack"
  else if f32 0.30 ≤ excess then "High — highly suspicious behavior"
  else if f32 0.15 ≤ excess then "Medium — anomalous activity"
  else "Low — marginal anomaly"

/-! ## Detection -/

section Detection

variable (fixed : ℕ → ℚ → String) (mlThreshold : ℚ)

/-- The confidence of an anomaly above the threshold. -/
def mlConfidence (f : Findings) : Option ℚ :=
  f.mlScore.bind fun score =>
    if f32 mlThreshold < score then
      match f.malware with
      | some prediction => if f32 0.8 < prediction.confidence then some (min (f32 (score + f32 0.1)) 1) else some score
      | none => some score
    else none

def mlAlert (event : EnrichedEvent) (f : Findings) : Option Alert :=
  f.mlScore.bind fun score => (mlConfidence mlThreshold f).map fun confidence =>
    { toStamp := f.mlStamp
      source := event.hostname.getD ""
      ruleName := "ML:EnsembleAnomaly"
      ruleType := .ml
      threatLevel := fromScore score
      description := "ML anomaly score: " ++ fixed 3 score ++ " (threshold: " ++ fixed 3 (f32 mlThreshold) ++ ")" ++
        (f.malware.map fun prediction => " | Classification: " ++ prediction.malwareClass ++ " (" ++
          fixed 2 (f32 (prediction.confidence * 100)) ++ "%)").getD ""
      pid := event.pid
      processName := event.processName
      srcIp := event.srcIpStr
      dstIp := event.dstIpStr
      dstPort := none
      mlScore := some score
      confidenceScore := confidence
      xaiReport := some ("[ML XAI] Score=" ++ fixed 3 score ++ " threshold=" ++ fixed 3 mlThreshold ++ " (" ++
        (if f32 mlThreshold < score then "ANOMALOUS" else "normal") ++ ") — " ++ classifyAnomaly score (f32 mlThreshold))
      soarActionsTaken := []
      rawEventType := event.raw.source }

/-- The drift of a host that has a name. -/
def drift (event : EnrichedEvent) (f : Findings) : Option (String × AnomalyWindow) :=
  event.hostname.bind fun hostname => (f.timeseries.filter (·.shouldAlert)).map fun result => (hostname, result)

def driftAlert (event : EnrichedEvent) (f : Findings) : Option Alert :=
  (drift event f).map fun (hostname, result) =>
    { toStamp := f.timeseriesStamp
      source := hostname
      ruleName := "ML:BehavioralDrift"
      ruleType := .ml
      threatLevel := .high
      description := "Host behavior drift detected! Baseline: " ++ fixed 2 result.baseline ++ ", Observed: " ++
        fixed 2 result.value ++ ", Z-Score: " ++ fixed 2 result.zscore
      pid := none
      processName := none
      srcIp := event.srcIpStr
      dstIp := none
      dstPort := none
      mlScore := some (f32 (f32 result.zscore / 10))
      confidenceScore := f32 0.85
      xaiReport := none
      soarActionsTaken := []
      rawEventType := "timeseries" }

def ZeroDaySeverity.threatLevel : ZeroDaySeverity → ThreatLevel
  | critical => .critical
  | high => .high
  | medium => .high
  | low => .medium

def ZeroDaySeverity.confidence : ZeroDaySeverity → ℚ
  | critical => f32 0.95
  | high => f32 0.80
  | medium => f32 0.65
  | low => f32 0.45

def ZeroDaySeverity.shouldQuarantine : ZeroDaySeverity → Bool
  | critical | high => true
  | medium | low => false

/-- The finding about the process of an event that has one. -/
def zeroDay (event : EnrichedEvent) (f : Findings) : Option (UInt32 × ZeroDayFinding) :=
  event.pid.bind fun pid => f.zeroDay.map fun finding => (pid, finding)

def zeroDayAlert (event : EnrichedEvent) (f : Findings) : Option Alert :=
  (zeroDay event f).map fun (pid, finding) =>
    { toStamp := f.zeroDayStamp
      source := event.hostname.getD "zero_day_engine"
      ruleName := "ZeroDay::" ++ finding.severity.debug
      ruleType := .ml
      threatLevel := finding.severity.threatLevel
      description := finding.summary
      pid := some pid
      processName := event.processName
      srcIp := event.srcIpStr
      dstIp := event.dstIpStr
      dstPort := none
      mlScore := some (f32 finding.threatScore)
      confidenceScore := finding.severity.confidence
      xaiReport := some ("[Zero-Day XAI] Methods: " ++ ", ".intercalate finding.methods ++ ". Score: " ++
        fixed 3 finding.threatScore ++ ". Summary: " ++ finding.summary)
      soarActionsTaken := "zero_day_detected" ::
        (if finding.severity.shouldQuarantine then ["hitl_quarantine_required"] else [])
      rawEventType := "zero_day" }

/-- The alerts of the rules. -/
def ruleAlerts (f : Findings) : List Alert :=
  f.sigma.toList.map (RuleAlert.scored (f32 0.85)) ++ f.ioc.toList.map (RuleAlert.scored 1) ++
    f.ids.map (RuleAlert.scored (f32 0.85)) ++ f.yara.map (RuleAlert.scored (f32 0.90))

/-- The alerts with the confidence that their sources have. -/
def found (event : EnrichedEvent) (f : Findings) : List Alert :=
  ruleAlerts f ++ (mlAlert fixed mlThreshold event f).toList ++ (driftAlert fixed event f).toList ++
    (zeroDayAlert fixed event f).toList

/-- The highest confidence. -/
def maxConf (alerts : List Alert) : ℚ := (alerts.map (·.confidenceScore)).foldl max 0

def boosted (alerts : List Alert) : ℚ := min (f32 (maxConf alerts + f32 0.15)) 1

/-- If several alerts were found, all get the same confidence. -/
def consensus (alerts : List Alert) : List Alert :=
  if 1 < alerts.length then alerts.map fun a => { a with confidenceScore := boosted alerts } else alerts

def detect (event : EnrichedEvent) (f : Findings) : List Alert := consensus (found fixed mlThreshold event f)

end Detection

/-! ## The numbers -/

/-- What a number is in single precision, by its digits and the exponent of the last one. -/
theorem f32_eq {x y : ℚ} (m e : ℤ) (he : -149 ≤ e) (hlow : 2 ^ (23 + e) ≤ x) (hhigh : x < 2 ^ (24 + e))
    (hnear : |x / 2 ^ e - m| < 1 / 2) (hy : m * 2 ^ e = y) : f32 x = y :=
  (Format.round_eq (F := binary32) he hlow hhigh hnear).trans hy

theorem f32_015 : f32 0.15 = 10066330 / 2 ^ 26 := by
  refine f32_eq 10066330 (-26) ?_ ?_ ?_ ?_ ?_ <;> norm_num [abs_lt]

theorem f32_045 : f32 0.45 = 15099494 / 2 ^ 25 := by
  refine f32_eq 15099494 (-25) ?_ ?_ ?_ ?_ ?_ <;> norm_num [abs_lt]

theorem f32_050 : f32 0.50 = 1 / 2 := by
  refine f32_eq 8388608 (-24) ?_ ?_ ?_ ?_ ?_ <;> norm_num [abs_lt]

theorem f32_065 : f32 0.65 = 10905190 / 2 ^ 24 := by
  refine f32_eq 10905190 (-24) ?_ ?_ ?_ ?_ ?_ <;> norm_num [abs_lt]

theorem f32_070 : f32 0.70 = 11744051 / 2 ^ 24 := by
  refine f32_eq 11744051 (-24) ?_ ?_ ?_ ?_ ?_ <;> norm_num [abs_lt]

theorem f32_080 : f32 0.80 = 13421773 / 2 ^ 24 := by
  refine f32_eq 13421773 (-24) ?_ ?_ ?_ ?_ ?_ <;> norm_num [abs_lt]

theorem f32_085 : f32 0.85 = 14260634 / 2 ^ 24 := by
  refine f32_eq 14260634 (-24) ?_ ?_ ?_ ?_ ?_ <;> norm_num [abs_lt]

theorem f32_090 : f32 0.90 = 15099494 / 2 ^ 24 := by
  refine f32_eq 15099494 (-24) ?_ ?_ ?_ ?_ ?_ <;> norm_num [abs_lt]

theorem f32_095 : f32 0.95 = 15938355 / 2 ^ 24 := by
  refine f32_eq 15938355 (-24) ?_ ?_ ?_ ?_ ?_ <;> norm_num [abs_lt]

/-! ## The bonus -/

theorem foldl_max_le_iff (cs : List ℚ) (m c : ℚ) : cs.foldl max m ≤ c ↔ m ≤ c ∧ ∀ x ∈ cs, x ≤ c := by
  induction cs generalizing m with
  | nil => simp
  | cons x cs ih => rw [List.foldl_cons, ih, max_le_iff, List.forall_mem_cons, and_assoc]

theorem maxConf_le_iff {alerts : List Alert} {c : ℚ} :
    maxConf alerts ≤ c ↔ 0 ≤ c ∧ ∀ a ∈ alerts, a.confidenceScore ≤ c := by
  rw [maxConf, foldl_max_le_iff, List.forall_mem_map]

theorem maxConf_nonneg (alerts : List Alert) : 0 ≤ maxConf alerts := (maxConf_le_iff.1 le_rfl).1

/-- When the confidence of several alerts is at least a given one, by its digits and the highest among theirs. -/
theorem le_boosted_iff (alerts : List Alert) {y c : ℚ} (m e : ℤ) (he : -149 ≤ e) (hm : m ≤ 2 ^ 24) (hnormal : 2 ^ 23 < m)
    (hy : m * 2 ^ e = y) (hone : y ≤ 1) (hc : (m - 1 / 2) * 2 ^ e - f32 0.15 = c) :
    y ≤ boosted alerts ↔ c < maxConf alerts ∨ c = maxConf alerts ∧ Even m := by
  have hpos : 0 < maxConf alerts + f32 0.15 := by
    rw [f32_015]
    linarith [maxConf_nonneg alerts]
  rw [boosted, le_min_iff, and_iff_left hone, ← hc, sub_lt_iff_lt_add, sub_eq_iff_eq_add, ← hy]
  exact Format.le_round_iff (F := binary32) hpos he hm (.inr hnormal)

theorem ninety_le_boosted_iff (alerts : List Alert) :
    f32 0.90 ≤ boosted alerts ↔ 12582911 / 2 ^ 24 ≤ maxConf alerts := by
  rw [le_boosted_iff alerts 15099494 (-24) (by decide) (by decide) (by decide) (by rw [f32_090]; norm_num)
    (by rw [f32_090]; norm_num) (c := 12582911 / 2 ^ 24) (by rw [f32_015]; norm_num), le_iff_lt_or_eq]
  exact or_congr_right (and_iff_left (by decide))

theorem seventy_le_boosted_iff (alerts : List Alert) :
    f32 0.70 ≤ boosted alerts ↔ 9227468 / 2 ^ 24 < maxConf alerts := by
  rw [le_boosted_iff alerts 11744051 (-24) (by decide) (by decide) (by decide) (by rw [f32_070]; norm_num)
    (by rw [f32_070]; norm_num) (c := 9227468 / 2 ^ 24) (by rw [f32_015]; norm_num)]
  exact or_iff_left fun h => absurd h.2 (by decide)

theorem fifty_le_boosted_iff (alerts : List Alert) :
    f32 0.50 ≤ boosted alerts ↔ 23488101 / 2 ^ 26 ≤ maxConf alerts := by
  rw [le_boosted_iff alerts 16777216 (-25) (by decide) (by decide) (by decide) (by rw [f32_050]; norm_num)
    (by rw [f32_050]; norm_num) (c := 23488101 / 2 ^ 26) (by rw [f32_015]; norm_num), le_iff_lt_or_eq]
  exact or_congr_right (and_iff_left (by decide))

/-! ## The alerts of an event -/

/-- No rule matches the event. -/
def Findings.RulesSilent (f : Findings) : Prop := f.sigma = none ∧ f.ioc = none ∧ f.ids = [] ∧ f.yara = []

instance (f : Findings) : Decidable f.RulesSilent :=
  decidable_of_iff (f.sigma.isNone ∧ f.ioc.isNone ∧ f.ids.isEmpty ∧ f.yara.isEmpty) (by
    simp only [Option.isNone_iff_eq_none, List.isEmpty_iff, Findings.RulesSilent])

section Alerts

variable {fixed : ℕ → ℚ → String} {mlThreshold : ℚ} {event : EnrichedEvent} {f : Findings} {a : Alert}

theorem ruleAlerts_eq_nil_iff : ruleAlerts f = [] ↔ f.RulesSilent := by
  simp only [ruleAlerts, Findings.RulesSilent, List.append_eq_nil_iff, List.map_eq_nil_iff, Option.toList_eq_nil_iff,
    and_assoc]

/-- The alerts of rules and of drift name no process, are confident, and have no mark. -/
theorem loud_spec (h : a ∈ ruleAlerts f ∨ a ∈ driftAlert fixed event f) :
    a.pid = none ∧ f32 0.85 ≤ a.confidenceScore ∧ a.soarActionsTaken = [] := by
  have hone : f32 0.85 ≤ 1 := by
    rw [f32_085]
    norm_num
  have hninety : f32 0.85 ≤ f32 0.90 := by
    rw [f32_085, f32_090]
    norm_num
  rcases h with h | h
  · simp only [ruleAlerts, List.mem_append, List.mem_map] at h
    rcases h with ((⟨r, -, rfl⟩ | ⟨r, -, rfl⟩) | ⟨r, -, rfl⟩) | ⟨r, -, rfl⟩
    · exact ⟨rfl, le_rfl, rfl⟩
    · exact ⟨rfl, hone, rfl⟩
    · exact ⟨rfl, le_rfl, rfl⟩
    · exact ⟨rfl, hninety, rfl⟩
  · obtain ⟨r, -, rfl⟩ := Option.map_eq_some_iff.1 h
    exact ⟨rfl, le_rfl, rfl⟩

theorem mlConfidence_eq_none_iff {score : ℚ} (h : f.mlScore = some score) :
    mlConfidence mlThreshold f = none ↔ ¬ f32 mlThreshold < score := by
  rw [mlConfidence, h, Option.bind_some]
  split_ifs with hlt
  · refine iff_of_false (fun hnone => ?_) (not_not_intro hlt)
    cases hmalware : f.malware with
    | none =>
      rw [hmalware] at hnone
      cases hnone
    | some prediction =>
      rw [hmalware] at hnone
      dsimp only at hnone
      split_ifs at hnone
  · exact iff_of_true rfl hlt

theorem mlAlert_eq_none_iff : mlAlert fixed mlThreshold event f = none ↔ mlConfidence mlThreshold f = none := by
  unfold mlAlert mlConfidence
  cases f.mlScore with
  | none => exact iff_of_true rfl rfl
  | some score => exact Option.map_eq_none_iff

/-- The alert of an anomaly names the process and has no mark. -/
theorem mlAlert_spec (h : a ∈ mlAlert fixed mlThreshold event f) : ∃ score, f.mlScore = some score ∧
    mlConfidence mlThreshold f = some a.confidenceScore ∧ a.pid = event.pid ∧ a.threatLevel = fromScore score ∧
    a.soarActionsTaken = [] := by
  obtain ⟨score, hscore, h⟩ := Option.bind_eq_some_iff.1 h
  obtain ⟨c, hc, rfl⟩ := Option.map_eq_some_iff.1 h
  exact ⟨score, hscore, hc, rfl, rfl, rfl⟩

theorem zeroDayAlert_eq_none_iff {pid : UInt32} (h : event.pid = some pid) :
    zeroDayAlert fixed event f = none ↔ f.zeroDay = none := by
  rw [zeroDayAlert, Option.map_eq_none_iff, zeroDay, h]
  exact Option.map_eq_none_iff

/-- The alert of a zero-day finding has its confidence, and a mark if it is serious. -/
theorem zeroDayAlert_of_some (fixed : ℕ → ℚ → String) {pid : UInt32} {finding : ZeroDayFinding}
    (h : zeroDay event f = some (pid, finding)) : ∃ a ∈ zeroDayAlert fixed event f,
      a.pid = some pid ∧ a.confidenceScore = finding.severity.confidence ∧
      ("hitl_quarantine_required" ∈ a.soarActionsTaken ↔ finding.severity.shouldQuarantine = true) := by
  rw [zeroDayAlert, h]
  refine ⟨_, rfl, rfl, rfl, ?_⟩
  rw [List.mem_cons, or_iff_right (by decide)]
  cases finding.severity <;> decide

theorem zeroDayAlert_spec (h : a ∈ zeroDayAlert fixed event f) : ∃ pid finding, event.pid = some pid ∧
    f.zeroDay = some finding ∧ a.pid = some pid ∧ a.confidenceScore = finding.severity.confidence := by
  obtain ⟨⟨pid, finding⟩, hzero, -⟩ := Option.map_eq_some_iff.1 h
  obtain ⟨b, hb, hbpid, hconf, -⟩ := zeroDayAlert_of_some fixed hzero
  obtain rfl := Option.mem_unique h hb
  obtain ⟨_, hpid, hzero⟩ := Option.bind_eq_some_iff.1 hzero
  obtain ⟨_, hfinding, heq⟩ := Option.map_eq_some_iff.1 hzero
  cases heq
  exact ⟨_, _, hpid, hfinding, hbpid, hconf⟩

theorem mem_found : a ∈ found fixed mlThreshold event f ↔ (a ∈ ruleAlerts f ∨ a ∈ driftAlert fixed event f) ∨
    a ∈ mlAlert fixed mlThreshold event f ∨ a ∈ zeroDayAlert fixed event f := by
  simp only [found, List.mem_append, Option.mem_toList]
  tauto

/-- An event that some rule matches or whose host drifts has an alert of a rule or of drift. -/
theorem exists_loud (fixed : ℕ → ℚ → String) (h : ¬ (f.RulesSilent ∧ drift event f = none)) :
    ∃ a, a ∈ ruleAlerts f ∨ a ∈ driftAlert fixed event f := by
  rcases not_and_or.1 h with hrules | hdrift
  · obtain ⟨a, ha⟩ := List.exists_mem_of_ne_nil _ (mt ruleAlerts_eq_nil_iff.1 hrules)
    exact ⟨a, .inl ha⟩
  · obtain ⟨d, hd⟩ := Option.ne_none_iff_exists'.1 hdrift
    exact ⟨_, .inr (Option.mem_def.2 (by rw [driftAlert, hd]; rfl))⟩

/-- The alerts of an event without alerts of rules and of drift. -/
theorem found_of_quiet (fixed : ℕ → ℚ → String) (mlThreshold : ℚ) (hrules : f.RulesSilent)
    (hdrift : drift event f = none) : found fixed mlThreshold event f =
      (mlAlert fixed mlThreshold event f).toList ++ (zeroDayAlert fixed event f).toList := by
  rw [found, ruleAlerts_eq_nil_iff.2 hrules, driftAlert, hdrift]
  simp

theorem mem_detect {a : Alert} (h : a ∈ detect fixed mlThreshold event f) :
    ∃ b ∈ found fixed mlThreshold event f, ∃ c, a = { b with confidenceScore := c } := by
  unfold detect consensus at h
  split_ifs at h
  · obtain ⟨b, hb, rfl⟩ := List.mem_map.1 h
    exact ⟨b, hb, _, rfl⟩
  · exact ⟨a, h, _, rfl⟩

theorem detect_of_found {a : Alert} (h : a ∈ found fixed mlThreshold event f) :
    ∃ c, { a with confidenceScore := c } ∈ detect fixed mlThreshold event f := by
  unfold detect consensus
  split_ifs
  · exact ⟨_, List.mem_map.2 ⟨a, h, rfl⟩⟩
  · exact ⟨a.confidenceScore, h⟩

theorem detect_of_single {a : Alert} (h : found fixed mlThreshold event f = [a]) :
    detect fixed mlThreshold event f = [a] := by
  rw [detect, h]
  rfl

theorem detect_of_lt (h : 1 < (found fixed mlThreshold event f).length) : detect fixed mlThreshold event f =
    (found fixed mlThreshold event f).map fun a => { a with confidenceScore := boosted (found fixed mlThreshold event f) } :=
  if_pos h

theorem le_maxConf {alerts : List Alert} (h : a ∈ alerts) : a.confidenceScore ≤ maxConf alerts :=
  (maxConf_le_iff.1 le_rfl).2 a h

end Alerts

end ThorFirewall.Consensus
