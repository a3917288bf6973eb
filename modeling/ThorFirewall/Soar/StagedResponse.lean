import Mathlib
import ThorFirewall.Control.Resolution
import ThorFirewall.Detection.Consensus
import ThorFirewall.Lib.Mealy
import ThorFirewall.Soar.CircuitBreaker

/-!
# Staged responses (`soar/mod.rs`, `events/pipeline.rs`)

The pipeline responds to every alert of an event by the confidence of the alert: its source address is blocked, its traffic
is shaped, its process is stopped until an administrator decides, or nothing is done. The processes of serious alerts are
captured besides.

- `signals_of_run`: which processes are stopped in a run;
- `zero_day_response`: an alert that requires quarantine is never one of them;
- `captured_of_run`: which processes are captured.

The correlation of the alerts is left out, which changes nothing here. The answers of `kill` and of the case management are
parameters.
-/

namespace ThorFirewall.Staged

open Consensus
open Control (Os ProcessSuspender Signal)
open Detection (EnrichedEvent)
open Soar (SoarEngine)
open Std (TreeMap)

/-! ## Stages -/

inductive Stage
  | telemetry
  | quarantine
  | shaping
  | interdiction
  deriving DecidableEq

def stage (confidence : ℚ) : Stage :=
  if f32 0.90 ≤ confidence then .interdiction
  else if f32 0.70 ≤ confidence then .shaping
  else if f32 0.50 ≤ confidence then .quarantine
  else .telemetry

theorem stage_boosted (alerts : List Alert) : stage (boosted alerts) =
    if 12582911 / 2 ^ 24 ≤ maxConf alerts then .interdiction
    else if 9227468 / 2 ^ 24 < maxConf alerts then .shaping
    else if 23488101 / 2 ^ 26 ≤ maxConf alerts then .quarantine
    else .telemetry := by
  simp only [stage, ninety_le_boosted_iff, seventy_le_boosted_iff, fifty_le_boosted_iff]

theorem stage_boosted_eq_quarantine_iff (alerts : List Alert) : stage (boosted alerts) = .quarantine ↔
    23488101 / 2 ^ 26 ≤ maxConf alerts ∧ maxConf alerts ≤ 9227468 / 2 ^ 24 := by
  rw [stage_boosted]
  split_ifs with h90 h70 h50
  · refine iff_of_false (by decide) fun h => ?_
    norm_num at h90 h
    linarith
  · exact iff_of_false (by decide) fun h => not_lt.2 h.2 h70
  · exact iff_of_true rfl ⟨h50, not_lt.1 h70⟩
  · exact iff_of_false (by decide) fun h => h50 h.1

theorem stage_eq_quarantine_iff (c : ℚ) : stage c = .quarantine ↔ f32 0.50 ≤ c ∧ c < f32 0.70 := by
  have hle : f32 0.70 ≤ f32 0.90 := by
    rw [f32_070, f32_090]
    norm_num
  unfold stage
  split_ifs with h90 h70 h50
  · exact iff_of_false (by decide) fun h => not_lt.2 (hle.trans h90) h.2
  · exact iff_of_false (by decide) fun h => not_lt.2 h70 h.2
  · exact iff_of_true rfl ⟨h50, not_le.1 h70⟩
  · exact iff_of_false (by decide) fun h => h50 h.1

theorem maxConf_pair (a b : Alert) : maxConf [a, b] = max (max 0 a.confidenceScore) b.confidenceScore := rfl

/-- The stage of a zero-day alert on its own. -/
theorem stage_severity (severity : ZeroDaySeverity) : stage severity.confidence = match severity with
    | .critical => .interdiction
    | .high => .shaping
    | .medium => .quarantine
    | .low => .telemetry := by
  cases severity <;> simp only [stage, ZeroDaySeverity.confidence, f32_045, f32_050, f32_065, f32_070, f32_080, f32_090,
    f32_095] <;> norm_num

/-- An anomaly and a zero-day finding quarantine the process, if the finding is low and the anomaly is not confident. -/
theorem stage_pair (a b : Alert) (severity : ZeroDaySeverity) (hb : b.confidenceScore = severity.confidence) :
    stage (boosted [a, b]) = .quarantine ↔ severity = .low ∧ a.confidenceScore ≤ 9227468 / 2 ^ 24 := by
  rw [stage_boosted_eq_quarantine_iff, maxConf_pair, hb, max_le_iff, max_le_iff]
  cases severity with
  | low =>
    simp only [ZeroDaySeverity.confidence, f32_045, true_and]
    refine ⟨fun h => h.2.1.2, fun h => ⟨le_max_of_le_right ?_, ⟨?_, h⟩, ?_⟩⟩ <;> norm_num
  | medium | high | critical =>
    refine iff_of_false (fun h => ?_) fun h => by cases h.1
    have hle := h.2.2
    simp only [ZeroDaySeverity.confidence, f32_065, f32_080, f32_095] at hle
    norm_num at hle

/-! ## Responses -/

structure Response where
  engine : SoarEngine
  shapedIps : TreeMap String UInt64
  inspectingIps : TreeMap String Bool
  suspender : ProcessSuspender
  /-- The processes that were cut off from the network. -/
  isolated : List UInt32
  /-- The processes that were captured. -/
  captured : List UInt32
  totalAlerts : UInt64

namespace Response

def interdict (s : Response) (alert : Alert) (now : ℕ) : Response × List String :=
  match alert.srcIp with
  | some ip => match s.engine.autoBlockIp ip now with
    | (engine, .error msg) => ({ s with engine }, ["block_skipped:" ++ msg, "era_action:interdiction"])
    | (engine, .ok ()) => ({ s with engine }, ["ip_blocked:" ++ ip, "era_action:interdiction"])
  | none => (s, ["era_action:interdiction"])

def shape (s : Response) (alert : Alert) : Response × List String :=
  match alert.srcIp with
  | some ip => ({ s with shapedIps := s.shapedIps.insert ip 1000000 },
      ["traffic_shaped:" ++ ip ++ "@1Mbps", "era_action:shaping"])
  | none => (s, ["era_action:shaping"])

def inspect (s : Response) (alert : Alert) : Response × List String :=
  match alert.srcIp with
  | some ip => ({ s with inspectingIps := s.inspectingIps.insert ip true }, ["deep_inspection:" ++ ip])
  | none => (s, [])

section Parameters

variable (fixed : ℕ → ℚ → String) (os : Os) (thehive : Option (Alert → Except String String))

def suspend (s : Response) (alert : Alert) (now : ℕ) : Response × List String :=
  match alert.pid with
  | some pid =>
    let xaiExplanation := alert.xaiReport.getD ("ML anomaly score=" ++ fixed 3 alert.confidenceScore)
    match s.suspender.suspendProcess os now pid alert.id xaiExplanation (alert.processName.getD "unknown") with
    | (suspender, .ok ()) => ({ s with suspender },
        ["process_quarantined:pid=" ++ toString pid ++ " (SIGSTOP)", "era_action:quarantine_hitl_pending"])
    | (suspender, .error _) => ({ s with suspender, isolated := s.isolated ++ [pid] },
        ["process_network_isolated:pid=" ++ toString pid])
  | none => (s, [])

def quarantine (s : Response) (alert : Alert) (now : ℕ) : Response × List String :=
  let (s, inspected) := s.inspect alert
  let (s, suspended) := s.suspend fixed os alert now
  (s, inspected ++ suspended ++ ["era_action:quarantine"])

/-- High and critical alerts are captured at every stage. -/
def capture (s : Response) (alert : Alert) : Response × List String :=
  if alert.threatLevel = .critical ∨ alert.threatLevel = .high then
    match alert.pid with
    | some pid => ({ s with captured := s.captured ++ [pid] }, ["forensics_captured"])
    | none => (s, [])
  else (s, [])

/-- The case that the case management opens, if there is one. -/
def caseActions (alert : Alert) : List String :=
  (thehive.bind fun create => (create alert).toOption).toList.map ("thehive_case:" ++ ·)

/-- What an alert leads to, by its confidence. -/
def enforce (s : Response) (alert : Alert) (now : ℕ) : Response × List String :=
  match stage alert.confidenceScore with
  | .interdiction => s.interdict alert now
  | .shaping => s.shape alert
  | .quarantine => s.quarantine fixed os alert now
  | .telemetry => (s, ["era_action:allow_with_telemetry"])

def respond (s : Response) (alert : Alert) (now : ℕ) : Response × List String :=
  let (s, actions) := s.enforce fixed os alert now
  let (s, captured) := s.capture alert
  ({ s with totalAlerts := s.totalAlerts + 1 }, actions ++ captured ++ caseActions thehive alert)

/-! ## The pipeline -/

/-- An event that is no duplicate, what the engines find in it, and the times of the responses to its alerts. -/
structure Input where
  event : EnrichedEvent
  findings : Findings
  clock : ℕ → ℕ

/-- The response to an alert, which is sent on with the actions taken. -/
def answer (s : Response) (call : Alert × ℕ) : Response × Alert :=
  let (s, actions) := s.respond fixed os thehive call.1 call.2
  (s, { call.1 with soarActionsTaken := actions })

variable (mlThreshold : ℚ)

def calls (i : Input) : List (Alert × ℕ) :=
  (detect fixed mlThreshold i.event i.findings).zipIdx.map fun (alert, n) => (alert, i.clock n)

def process (s : Response) (i : Input) : Response × List Alert :=
  (Mealy.after (answer fixed os thehive) s (calls fixed mlThreshold i),
    Mealy.outputs (answer fixed os thehive) s (calls fixed mlThreshold i))

end Parameters

/-! ## What a response leaves behind -/

/-- The process that an alert stops. -/
def stops (alert : Alert) : List UInt32 := if stage alert.confidenceScore = .quarantine then alert.pid.toList else []

/-- The process that is captured for an alert. -/
def captures (alert : Alert) : List UInt32 :=
  if alert.threatLevel = .critical ∨ alert.threatLevel = .high then alert.pid.toList else []

def stopSignals (pids : List UInt32) : List (Int32 × Signal) := pids.map fun pid => (pid.toInt32, .sigstop)

variable (fixed : ℕ → ℚ → String) (os : Os) (thehive : Option (Alert → Except String String)) (mlThreshold : ℚ)

theorem suspend_effect (s : Response) (alert : Alert) (now : ℕ) :
    (s.suspend fixed os alert now).1.suspender.signals = s.suspender.signals ++ stopSignals alert.pid.toList ∧
      (s.suspend fixed os alert now).1.captured = s.captured := by
  unfold suspend ProcessSuspender.suspendProcess ProcessSuspender.kill
  cases alert.pid with
  | none => exact ⟨(List.append_nil _).symm, rfl⟩
  | some pid =>
    dsimp only
    cases os s.suspender.signals pid.toInt32 .sigstop <;> exact ⟨rfl, rfl⟩

theorem inspect_effect (s : Response) (alert : Alert) :
    (s.inspect alert).1.suspender = s.suspender ∧ (s.inspect alert).1.captured = s.captured := by
  unfold inspect
  cases alert.srcIp <;> exact ⟨rfl, rfl⟩

theorem enforce_effect (s : Response) (alert : Alert) (now : ℕ) :
    (s.enforce fixed os alert now).1.suspender.signals = s.suspender.signals ++ stopSignals (stops alert) ∧
      (s.enforce fixed os alert now).1.captured = s.captured := by
  unfold enforce stops
  cases stage alert.confidenceScore with
  | telemetry => exact ⟨(List.append_nil _).symm, rfl⟩
  | quarantine =>
    obtain ⟨hsuspender, hcaptured⟩ := inspect_effect s alert
    obtain ⟨hsignals, hcaptured'⟩ := (s.inspect alert).1.suspend_effect fixed os alert now
    exact ⟨hsignals.trans (by rw [hsuspender, if_pos rfl]), hcaptured'.trans hcaptured⟩
  | shaping =>
    unfold shape
    cases alert.srcIp <;> exact ⟨(List.append_nil _).symm, rfl⟩
  | interdiction =>
    unfold interdict
    cases alert.srcIp with
    | none => exact ⟨(List.append_nil _).symm, rfl⟩
    | some ip =>
      dsimp only
      rcases s.engine.autoBlockIp ip now with ⟨engine, _ | _⟩ <;> exact ⟨(List.append_nil _).symm, rfl⟩

theorem respond_effect (s : Response) (alert : Alert) (now : ℕ) :
    (s.respond fixed os thehive alert now).1.suspender.signals = s.suspender.signals ++ stopSignals (stops alert) ∧
      (s.respond fixed os thehive alert now).1.captured = s.captured ++ captures alert := by
  obtain ⟨hsignals, hcaptured⟩ := s.enforce_effect fixed os alert now
  unfold respond capture captures
  dsimp only
  split_ifs
  · cases alert.pid with
    | none => exact ⟨hsignals, hcaptured.trans (List.append_nil _).symm⟩
    | some pid => exact ⟨hsignals, congrArg (· ++ [pid]) hcaptured⟩
  · exact ⟨hsignals, hcaptured.trans (List.append_nil _).symm⟩

theorem flatMap_calls {α : Type*} (g : Alert → List α) (i : Input) :
    (calls fixed mlThreshold i).flatMap (fun call => g call.1) =
      (detect fixed mlThreshold i.event i.findings).flatMap g := by
  rw [calls, List.flatMap_map, ← List.flatMap_map (f := Prod.fst) (g := g), List.zipIdx_map_fst]

theorem process_effect (s : Response) (i : Input) :
    (s.process fixed os thehive mlThreshold i).1.suspender.signals = s.suspender.signals ++
        (detect fixed mlThreshold i.event i.findings).flatMap (fun alert => stopSignals (stops alert)) ∧
      (s.process fixed os thehive mlThreshold i).1.captured =
        s.captured ++ (detect fixed mlThreshold i.event i.findings).flatMap captures := by
  constructor
  · rw [← flatMap_calls]
    exact Mealy.log_after (answer fixed os thehive) (·.suspender.signals)
      (fun s call => (s.respond_effect fixed os thehive call.1 call.2).1) s _
  · rw [← flatMap_calls]
    exact Mealy.log_after (answer fixed os thehive) (·.captured)
      (fun s call => (s.respond_effect fixed os thehive call.1 call.2).2) s _

/-! ## The processes of an event -/

theorem stops_scored {a : Alert} {pid : UInt32} (h : a.pid = some pid) (c : ℚ) :
    stops { a with confidenceScore := c } = if stage c = .quarantine then [pid] else [] := by
  simp only [stops, h]
  rfl

theorem stops_of_no_pid {a : Alert} (h : a.pid = none) : stops a = [] := by
  rw [stops, h]
  split_ifs <;> rfl

section Event

variable {fixed mlThreshold} {event : EnrichedEvent} {f : Findings} {pid : UInt32}

theorem stops_single {a : Alert} (h : found fixed mlThreshold event f = [a]) (hpid : a.pid = some pid) :
    (detect fixed mlThreshold event f).flatMap stops =
      if stage a.confidenceScore = .quarantine then [pid] else [] := by
  rw [detect_of_single h, List.flatMap_singleton]
  exact stops_scored hpid a.confidenceScore

theorem stops_pair {a b : Alert} (h : found fixed mlThreshold event f = [a, b]) (ha : a.pid = some pid)
    (hb : b.pid = some pid) : (detect fixed mlThreshold event f).flatMap stops =
      if stage (boosted [a, b]) = .quarantine then [pid, pid] else [] := by
  rw [detect_of_lt (by rw [h]; exact Nat.one_lt_two), h, List.map_cons, List.map_cons, List.flatMap_cons, List.map_nil,
    List.flatMap_singleton, stops_scored ha, stops_scored hb]
  split_ifs <;> rfl

variable (fixed mlThreshold)

/-- An event without a process stops none. -/
theorem stops_without_pid (h : event.pid = none) : (detect fixed mlThreshold event f).flatMap stops = [] := by
  refine List.flatMap_eq_nil_iff.2 fun a ha => stops_of_no_pid ?_
  obtain ⟨b, hb, c, rfl⟩ := mem_detect ha
  rcases mem_found.1 hb with hb | hb | hb
  · exact (loud_spec hb).1
  · obtain ⟨_, _, _, hpid, _⟩ := mlAlert_spec hb
    exact hpid.trans h
  · obtain ⟨_, _, hpid, _⟩ := zeroDayAlert_spec hb
    rw [h] at hpid
    cases hpid

/-- An event with an alert of a rule or of drift stops none. -/
theorem stops_of_loud (h : ¬ (f.RulesSilent ∧ drift event f = none)) :
    (detect fixed mlThreshold event f).flatMap stops = [] := by
  obtain ⟨a, ha⟩ := exists_loud fixed h
  obtain ⟨hpid, hconf, -⟩ := loud_spec ha
  have hmem : a ∈ found fixed mlThreshold event f := mem_found.2 (.inl ha)
  by_cases hone : 1 < (found fixed mlThreshold event f).length
  · have hstage : stage (boosted (found fixed mlThreshold event f)) ≠ .quarantine := by
      rw [Ne, stage_boosted_eq_quarantine_iff]
      have hmax := hconf.trans (le_maxConf hmem)
      rw [f32_085] at hmax
      rintro ⟨-, hle⟩
      norm_num at hmax hle
      linarith
    rw [detect_of_lt hone, List.flatMap_map]
    exact List.flatMap_eq_nil_iff.2 fun b _ => if_neg hstage
  · obtain ⟨b, hb⟩ := List.length_eq_one_iff.1 (le_antisymm (not_lt.1 hone) (List.length_pos_of_mem hmem))
    rw [hb, List.mem_singleton] at hmem
    rw [detect_of_single (hmem ▸ hb), List.flatMap_singleton, stops_of_no_pid hpid]

end Event

/-- The processes that are stopped for an event: that of an anomaly alone, if it is not confident, that of a medium
finding alone, and that of both together, if the finding is low, twice. -/
def stopped (mlThreshold : ℚ) (i : Input) : List UInt32 :=
  match i.event.pid with
  | none => []
  | some pid =>
    if i.findings.RulesSilent ∧ drift i.event i.findings = none then
      match mlConfidence mlThreshold i.findings, i.findings.zeroDay.map (·.severity) with
      | some c, none => if f32 0.50 ≤ c ∧ c < f32 0.70 then [pid] else []
      | none, some ZeroDaySeverity.medium => [pid]
      | some c, some ZeroDaySeverity.low => if c ≤ 9227468 / 2 ^ 24 then [pid, pid] else []
      | _, _ => []
    else []

theorem stops_detect (i : Input) :
    (detect fixed mlThreshold i.event i.findings).flatMap stops = stopped mlThreshold i := by
  unfold stopped
  cases hpid : i.event.pid with
  | none => exact stops_without_pid fixed mlThreshold hpid
  | some pid =>
    dsimp only
    split_ifs with hquiet
    · have hfound := found_of_quiet fixed mlThreshold hquiet.1 hquiet.2
      cases hm : mlAlert fixed mlThreshold i.event i.findings with
      | none =>
        rw [mlAlert_eq_none_iff.1 hm]
        cases hz : zeroDayAlert fixed i.event i.findings with
        | none =>
          rw [hm, hz] at hfound
          rw [detect, hfound, (zeroDayAlert_eq_none_iff hpid).1 hz]
          rfl
        | some b =>
          obtain ⟨_, finding, hp, hfinding, hbpid, hconf⟩ := zeroDayAlert_spec hz
          rw [hp] at hpid
          cases hpid
          rw [hm, hz] at hfound
          rw [stops_single hfound hbpid, hconf, stage_severity, hfinding, Option.map_some]
          cases finding.severity <;> rfl
      | some a =>
        obtain ⟨score, -, hconf, hapid, -⟩ := mlAlert_spec hm
        rw [hpid] at hapid
        rw [hconf]
        cases hz : zeroDayAlert fixed i.event i.findings with
        | none =>
          rw [hm, hz] at hfound
          rw [stops_single hfound hapid, (zeroDayAlert_eq_none_iff hpid).1 hz]
          simp only [stage_eq_quarantine_iff, Option.map_none]
        | some b =>
          obtain ⟨_, finding, hp, hfinding, hbpid, hbconf⟩ := zeroDayAlert_spec hz
          rw [hp] at hpid
          cases hpid
          rw [hm, hz] at hfound
          rw [stops_pair hfound hapid hbpid, hfinding, Option.map_some]
          simp only [stage_pair a b finding.severity hbconf]
          cases finding.severity with
          | low => simp only [true_and]
          | medium | high | critical => rfl
    · exact stops_of_loud fixed mlThreshold hquiet

/-! ## Runs -/

/-- **Stopped processes.** After any run, the processes that were sent a signal are those of the events that had neither
an alert of a rule nor of drift, and for which an anomaly that is not confident or a medium finding stands alone, or a low
finding beside such an anomaly. -/
theorem signals_of_run (s : Response) (is : List Input) :
    (Mealy.after (process fixed os thehive mlThreshold) s is).suspender.signals =
      s.suspender.signals ++ is.flatMap fun i => stopSignals (stopped mlThreshold i) := by
  refine Mealy.log_after _ (·.suspender.signals) (fun s i => ?_) s is
  rw [(s.process_effect fixed os thehive mlThreshold i).1, ← stops_detect fixed, stopSignals, List.map_flatMap]
  rfl

/-- The processes that are captured for an event. -/
def capturedFor (mlThreshold : ℚ) (i : Input) : List UInt32 :=
  (i.findings.mlScore.toList.flatMap fun score =>
      if f32 mlThreshold < score ∧ f32 0.85 ≤ score then i.event.pid.toList else []) ++
    i.findings.zeroDay.toList.flatMap fun finding => if finding.severity = .low then [] else i.event.pid.toList

theorem fromScore_iff (score : ℚ) : fromScore score = .critical ∨ fromScore score = .high ↔ f32 0.85 ≤ score := by
  have hle : f32 0.85 ≤ f32 0.95 := by
    rw [f32_085, f32_095]
    norm_num
  unfold fromScore
  split_ifs with h95 h85 h70 h50
  · exact iff_of_true (.inl rfl) (hle.trans h95)
  · exact iff_of_true (.inr rfl) h85
  all_goals exact iff_of_false (by decide) h85

theorem captures_found (i : Input) : (detect fixed mlThreshold i.event i.findings).flatMap captures =
    (found fixed mlThreshold i.event i.findings).flatMap captures := by
  unfold detect consensus
  split_ifs
  · rw [List.flatMap_map]
    rfl
  · rfl

theorem captures_anomaly (i : Input) : (mlAlert fixed mlThreshold i.event i.findings).toList.flatMap captures =
    i.findings.mlScore.toList.flatMap fun score =>
      if f32 mlThreshold < score ∧ f32 0.85 ≤ score then i.event.pid.toList else [] := by
  cases hscore : i.findings.mlScore with
  | none =>
    rw [mlAlert, hscore]
    rfl
  | some score =>
    rw [Option.toList_some, List.flatMap_singleton]
    cases ha : mlAlert fixed mlThreshold i.event i.findings with
    | none =>
      rw [if_neg fun h => (mlConfidence_eq_none_iff hscore).1 (mlAlert_eq_none_iff.1 ha) h.1]
      rfl
    | some a =>
      obtain ⟨score', hscore', hconf, hpid, hlevel, -⟩ := mlAlert_spec ha
      rw [hscore] at hscore'
      cases hscore'
      have hhigh : f32 mlThreshold < score := by
        by_contra hlow
        rw [(mlConfidence_eq_none_iff hscore).2 hlow] at hconf
        cases hconf
      rw [Option.toList_some, List.flatMap_singleton, captures, hlevel, hpid]
      simp only [fromScore_iff, hhigh, true_and]

theorem captures_zeroDay (i : Input) : (zeroDayAlert fixed i.event i.findings).toList.flatMap captures =
    i.findings.zeroDay.toList.flatMap fun finding => if finding.severity = .low then [] else i.event.pid.toList := by
  unfold zeroDayAlert zeroDay
  cases i.findings.zeroDay with
  | none => cases i.event.pid <;> rfl
  | some finding =>
    obtain ⟨score, severity, methods, summary⟩ := finding
    cases i.event.pid <;> cases severity <;> rfl

theorem captures_detect (i : Input) :
    (detect fixed mlThreshold i.event i.findings).flatMap captures = capturedFor mlThreshold i := by
  have hloud : ∀ a, a ∈ ruleAlerts i.findings ∨ a ∈ driftAlert fixed i.event i.findings → captures a = [] := by
    intro a ha
    rw [captures, (loud_spec ha).1]
    split_ifs <;> rfl
  have hrules : (ruleAlerts i.findings).flatMap captures = [] :=
    List.flatMap_eq_nil_iff.2 fun a ha => hloud a (.inl ha)
  have hdrift : (driftAlert fixed i.event i.findings).toList.flatMap captures = [] :=
    List.flatMap_eq_nil_iff.2 fun a ha => hloud a (.inr (Option.mem_toList.1 ha))
  rw [captures_found, found, List.flatMap_append, List.flatMap_append, List.flatMap_append, hrules, hdrift,
    captures_anomaly, captures_zeroDay, List.append_nil, List.nil_append, capturedFor]

/-- **Captured processes.** After any run, the processes that were captured are those of the events whose anomaly score is
above the threshold and at least 0.85, and those of the events with a finding that is not low, for each of the two once. -/
theorem captured_of_run (s : Response) (is : List Input) :
    (Mealy.after (process fixed os thehive mlThreshold) s is).captured =
      s.captured ++ is.flatMap (capturedFor mlThreshold) := by
  refine Mealy.log_after _ (·.captured) (fun s i => ?_) s is
  rw [(s.process_effect fixed os thehive mlThreshold i).2, captures_detect]

/-- The stage of every alert of an event with a serious finding. -/
theorem stage_of_serious {event : EnrichedEvent} {f : Findings} {pid : UInt32} {finding : ZeroDayFinding}
    (hzero : zeroDay event f = some (pid, finding)) (hserious : finding.severity.shouldQuarantine = true) {a : Alert}
    (ha : a ∈ detect fixed mlThreshold event f) : stage a.confidenceScore =
      if finding.severity = .critical ∨ 1 < (found fixed mlThreshold event f).length then .interdiction else .shaping := by
  obtain ⟨b, hb, -, hconf, -⟩ := zeroDayAlert_of_some fixed hzero
  have hmem : b ∈ found fixed mlThreshold event f := mem_found.2 (.inr (.inr hb))
  by_cases hlen : 1 < (found fixed mlThreshold event f).length
  · have hmax : 12582911 / 2 ^ 24 ≤ maxConf (found fixed mlThreshold event f) := by
      refine le_trans ?_ (le_maxConf hmem)
      rw [hconf]
      cases hs : finding.severity with
      | critical => rw [ZeroDaySeverity.confidence, f32_095]; norm_num
      | high => rw [ZeroDaySeverity.confidence, f32_080]; norm_num
      | medium | low => rw [hs] at hserious; cases hserious
    rw [detect_of_lt hlen] at ha
    obtain ⟨c, -, rfl⟩ := List.mem_map.1 ha
    rw [if_pos (.inr hlen)]
    exact (stage_boosted _).trans (if_pos hmax)
  · obtain ⟨c, hc⟩ := List.length_eq_one_iff.1 (le_antisymm (not_lt.1 hlen) (List.length_pos_of_mem hmem))
    rw [hc, List.mem_singleton] at hmem
    subst hmem
    rw [detect_of_single hc, List.mem_singleton] at ha
    rw [ha, hconf, stage_severity]
    cases hs : finding.severity with
    | critical => rw [if_pos (.inl rfl)]
    | high => rw [if_neg (not_or.2 ⟨by decide, hlen⟩)]
    | medium | low => rw [hs] at hserious; cases hserious

/-- Only the alerts that are quarantined reach the suspender. -/
theorem respond_suspender (s : Response) (alert : Alert) (now : ℕ) (h : stage alert.confidenceScore ≠ .quarantine) :
    (s.respond fixed os thehive alert now).1.suspender = s.suspender := by
  have henforce : (s.enforce fixed os alert now).1.suspender = s.suspender := by
    unfold enforce
    cases hstage : stage alert.confidenceScore with
    | telemetry => rfl
    | quarantine => exact absurd hstage h
    | shaping =>
      unfold shape
      cases alert.srcIp <;> rfl
    | interdiction =>
      unfold interdict
      cases alert.srcIp with
      | none => rfl
      | some ip =>
        dsimp only
        rcases s.engine.autoBlockIp ip now with ⟨engine, _ | _⟩ <;> rfl
  unfold respond capture
  dsimp only
  split_ifs
  · cases alert.pid <;> exact henforce
  · exact henforce

/-- **Zero-day response.** A serious finding asks for the quarantine of its process under human review, but none of the
alerts of its event comes to the suspender: the address is blocked, or the traffic is shaped if the finding is high and
alone. -/
theorem zero_day_response (s : Response) (i : Input) {pid : UInt32} {finding : ZeroDayFinding}
    (hzero : zeroDay i.event i.findings = some (pid, finding)) (hserious : finding.severity.shouldQuarantine = true) :
    (∃ a ∈ detect fixed mlThreshold i.event i.findings,
        a.pid = some pid ∧ "hitl_quarantine_required" ∈ a.soarActionsTaken) ∧
      (∀ a ∈ detect fixed mlThreshold i.event i.findings, stage a.confidenceScore =
        if finding.severity = .critical ∨ 1 < (found fixed mlThreshold i.event i.findings).length then .interdiction
        else .shaping) ∧
      (s.process fixed os thehive mlThreshold i).1.suspender = s.suspender := by
  refine ⟨?_, fun a ha => stage_of_serious fixed mlThreshold hzero hserious ha, ?_⟩
  · obtain ⟨b, hb, hpid, -, hmark⟩ := zeroDayAlert_of_some fixed hzero
    obtain ⟨c, hc⟩ := detect_of_found (mem_found.2 (.inr (.inr hb)))
    exact ⟨_, hc, hpid, hmark.2 hserious⟩
  · refine Mealy.kept_after (answer fixed os thehive) (·.suspender) (fun s call hcall => ?_) s
    obtain ⟨⟨a, n⟩, ha, rfl⟩ := List.mem_map.1 hcall
    refine s.respond_suspender fixed os thehive a _ ?_
    rw [stage_of_serious fixed mlThreshold hzero hserious (List.fst_mem_of_mem_zipIdx ha)]
    split_ifs <;> decide

/-- An engine that has done nothing yet. -/
def fresh (engine : SoarEngine) : Response where
  engine := engine
  shapedIps := ∅
  inspectingIps := ∅
  suspender := .new
  isolated := []
  captured := []
  totalAlerts := 0

/-- A process with a zero-day finding of the given severity, and nothing else. -/
def findingAlone (severity : ZeroDaySeverity) : Input where
  event := { pid := some 4242 }
  findings :=
    { sigma := none, ioc := none, ids := [], yara := [], mlScore := none, malware := none,
      mlStamp := ⟨"a", 0⟩, timeseries := none, timeseriesStamp := ⟨"b", 0⟩,
      zeroDay := some ⟨4 / 5, severity, ["ExploitPrimitive"], "ROP chain"⟩, zeroDayStamp := ⟨"c", 0⟩ }
  clock := fun _ => 0

theorem high_finding_response :
    ((fresh ⟨.new 50 0, [], ∅⟩).process (fun _ _ => "0.8") (fun _ _ _ => .ok ()) none 0 (findingAlone .high)).1.suspender =
      .new :=
  (zero_day_response (fun _ _ => "0.8") (fun _ _ _ => .ok ()) none 0 (fresh ⟨.new 50 0, [], ∅⟩) (findingAlone .high)
    rfl rfl).2.2

end Response

end ThorFirewall.Staged
