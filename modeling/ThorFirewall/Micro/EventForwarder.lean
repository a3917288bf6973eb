import Mathlib
import ThorFirewall.Lib.Json
import ThorFirewall.Lib.Mealy

/-!
# The event forwarders of the micro-agents (`thor-agent-net`, `thor-agent-web`, `thor-agent-srv`)

Each agent runs the same loop with events of its own: an urgent event is posted at once, alone; the others are collected
and posted together at every tick. The network agent keeps a batch that could not be sent, the others do not.

- `eventForwarder`: one round of the loop;
- `mem_posts`: an urgent event is posted alone to the route for single events, a batch has no urgent event in it and goes
  to the route for batches.
-/

namespace ThorFirewall.Micro

open Json

/-! ## Events -/

/-- Floating-point numbers as the agents use them: written to JSON, and compared with the limit for urgent events. -/
structure EventFloats (F64 F32 : Type) where
  ofF32 : F32 → Value F64
  ofF64 : F64 → Value F64
  /-- `x >= 0.85`. -/
  urgent : F32 → Bool

/-- Exact numbers in place of floating-point ones. -/
def exactEventFloats : EventFloats ℚ ℚ where
  ofF32 x := .number (.float x)
  ofF64 x := .number (.float x)
  urgent x := decide (85 / 100 ≤ x)

structure NetworkAgentEvent (F64 F32 : Type) where
  eventId : String
  timestamp : UInt64
  agentId : String
  srcIp : String
  dstIp : String
  srcPort : UInt16
  dstPort : UInt16
  protocol : String
  action : String
  reason : String
  threatLevel : String
  confidence : F32
  modelId : String
  xaiSummary : String
  decision : String
  c2Domain : Option String
  ppsRate : Option F64
  ja4 : Option String
  dgaEntropy : Option F64
  auditSeq : Option UInt64
  flRoundId : Option String

structure WafEvent (F32 : Type) where
  eventId : String
  timestamp : UInt64
  agentId : String
  srcIp : String
  method : String
  uri : String
  host : Option String
  userAgent : Option String
  ja4h : Option String
  category : String
  score : F32
  modelId : String
  action : String
  decision : String
  xaiSummary : String
  signatures : List String
  auditSeq : Option UInt64
  bodyBytes : Option UInt32
  contentType : Option String

inductive IncidentType
  | processAnomaly
  | fileIntegrityViolation
  | privilegeEscalation
  | persistenceMechanism
  | cryptoMiner
  | reverseShell
  | memoryAnomaly
  | rootkitIndicator
  | processHollowing
  | suspiciousNetworkSocket
  deriving DecidableEq, Repr

structure EdrEvent (F32 : Type) where
  eventId : String
  timestamp : UInt64
  agentId : String
  hostname : String
  incidentType : IncidentType
  pid : Option UInt32
  ppid : Option UInt32
  processName : Option String
  cmdLine : Option String
  user : Option String
  filePath : Option String
  oldHash : Option String
  newHash : Option String
  uebaScore : F32
  modelId : String
  action : String
  decision : String
  xaiSummary : String
  mitreTechnique : Option String
  auditSeq : Option UInt64

/-! ## Events as JSON -/

section Serialize

variable {F64 F32 : Type} (ef : EventFloats F64 F32)

def u64 (n : UInt64) : Value F64 := .number (.posInt n)

def NetworkAgentEvent.toJson (e : NetworkAgentEvent F64 F32) : Value F64 := .object [
  ("event_id", .string e.eventId), ("timestamp", u64 e.timestamp), ("agent_id", .string e.agentId),
  ("src_ip", .string e.srcIp), ("dst_ip", .string e.dstIp), ("src_port", u64 e.srcPort.toUInt64),
  ("dst_port", u64 e.dstPort.toUInt64), ("protocol", .string e.protocol), ("action", .string e.action),
  ("reason", .string e.reason), ("threat_level", .string e.threatLevel), ("confidence", ef.ofF32 e.confidence),
  ("model_id", .string e.modelId), ("xai_summary", .string e.xaiSummary), ("decision", .string e.decision),
  ("c2_domain", ofOption .string e.c2Domain), ("pps_rate", ofOption ef.ofF64 e.ppsRate),
  ("ja4", ofOption .string e.ja4), ("dga_entropy", ofOption ef.ofF64 e.dgaEntropy),
  ("audit_seq", ofOption u64 e.auditSeq), ("fl_round_id", ofOption .string e.flRoundId)]

def WafEvent.toJson (e : WafEvent F32) : Value F64 := .object [
  ("event_id", .string e.eventId), ("timestamp", u64 e.timestamp), ("agent_id", .string e.agentId),
  ("src_ip", .string e.srcIp), ("method", .string e.method), ("uri", .string e.uri),
  ("host", ofOption .string e.host), ("user_agent", ofOption .string e.userAgent), ("ja4h", ofOption .string e.ja4h),
  ("category", .string e.category), ("score", ef.ofF32 e.score), ("model_id", .string e.modelId),
  ("action", .string e.action), ("decision", .string e.decision), ("xai_summary", .string e.xaiSummary),
  ("signatures", .array (e.signatures.map .string)), ("audit_seq", ofOption u64 e.auditSeq),
  ("body_bytes", ofOption (fun n => u64 n.toUInt64) e.bodyBytes), ("content_type", ofOption .string e.contentType)]

/-- `rename_all = "snake_case"`. -/
def IncidentType.name : IncidentType → String
  | processAnomaly => "process_anomaly"
  | fileIntegrityViolation => "file_integrity_violation"
  | privilegeEscalation => "privilege_escalation"
  | persistenceMechanism => "persistence_mechanism"
  | cryptoMiner => "crypto_miner"
  | reverseShell => "reverse_shell"
  | memoryAnomaly => "memory_anomaly"
  | rootkitIndicator => "rootkit_indicator"
  | processHollowing => "process_hollowing"
  | suspiciousNetworkSocket => "suspicious_network_socket"

def EdrEvent.toJson (e : EdrEvent F32) : Value F64 := .object [
  ("event_id", .string e.eventId), ("timestamp", u64 e.timestamp), ("agent_id", .string e.agentId),
  ("hostname", .string e.hostname), ("incident_type", .string e.incidentType.name),
  ("pid", ofOption (fun n => u64 n.toUInt64) e.pid), ("ppid", ofOption (fun n => u64 n.toUInt64) e.ppid),
  ("process_name", ofOption .string e.processName), ("cmd_line", ofOption .string e.cmdLine),
  ("user", ofOption .string e.user), ("file_path", ofOption .string e.filePath),
  ("old_hash", ofOption .string e.oldHash), ("new_hash", ofOption .string e.newHash),
  ("ueba_score", ef.ofF32 e.uebaScore), ("model_id", .string e.modelId), ("action", .string e.action),
  ("decision", .string e.decision), ("xai_summary", .string e.xaiSummary),
  ("mitre_technique", ofOption .string e.mitreTechnique), ("audit_seq", ofOption u64 e.auditSeq)]

end Serialize

/-! ## The loop -/

/-- Who sent an event, and what became of it. -/
structure Identity where
  eventId : String
  agentId : String
  action : String
  decision : String
  deriving DecidableEq, Repr

/-- An agent: its events, which of them are urgent, whether it keeps a batch that could not be sent, and its events as
JSON, with their identity under the keys of the SOC. -/
structure Agent (F64 E : Type) where
  urgent : E → Bool
  keepsFailed : Bool
  identity : E → Identity
  toJson : E → Value F64
  eventId_toJson : ∀ e, (toJson e).index "event_id" = .string (identity e).eventId
  agentId_toJson : ∀ e, (toJson e).index "agent_id" = .string (identity e).agentId
  action_toJson : ∀ e, (toJson e).index "action" = .string (identity e).action
  decision_toJson : ∀ e, (toJson e).index "decision" = .string (identity e).decision

variable {F64 F32 E : Type}

inductive Input (E : Type)
  /-- An event from the channel; `sent` is the outcome of a post. -/
  | recv (e : E) (sent : Bool)
  | tick (sent : Bool)
  /-- The channel is closed. -/
  | close

structure Post (E : Type) where
  path : String
  events : List E

/-- Both kinds of post have an array as their body. -/
def Agent.body (a : Agent F64 E) (p : Post E) : Value F64 := .array (p.events.map a.toJson)

structure Forwarder (E : Type) where
  batch : List E
  running : Bool

def Forwarder.new : Forwarder E := { batch := [], running := true }

def eventForwarder (a : Agent F64 E) (f : Forwarder E) : Input E → Forwarder E × Option (Post E)
  | .recv e _ =>
    if !f.running then (f, none)
    else if a.urgent e then (f, some { path := "/api/v1/events", events := [e] })
    else ({ f with batch := f.batch ++ [e] }, none)
  | .tick sent =>
    if !f.running || f.batch.isEmpty then (f, none)
    else
      (if sent || !a.keepsFailed then { f with batch := [] } else f,
        some { path := "/api/v1/events/batch", events := f.batch })
  | .close => ({ f with running := false }, none)

/-- The posts of a run. -/
def posts (a : Agent F64 E) (inputs : List (Input E)) : List (Post E) :=
  (Mealy.outputs (eventForwarder a) .new inputs).reduceOption

/-! ## The three agents -/

section Agents

variable (ef : EventFloats F64 F32)

def netAgent : Agent F64 (NetworkAgentEvent F64 F32) where
  urgent e := e.threatLevel == "CRITICAL" || e.threatLevel == "HIGH"
  keepsFailed := true
  identity e := ⟨e.eventId, e.agentId, e.action, e.decision⟩
  toJson e := e.toJson ef
  eventId_toJson _ := rfl
  agentId_toJson _ := rfl
  action_toJson _ := rfl
  decision_toJson _ := rfl

def webAgent : Agent F64 (WafEvent F32) where
  urgent e := ef.urgent e.score
  keepsFailed := false
  identity e := ⟨e.eventId, e.agentId, e.action, e.decision⟩
  toJson e := e.toJson ef
  eventId_toJson _ := rfl
  agentId_toJson _ := rfl
  action_toJson _ := rfl
  decision_toJson _ := rfl

def srvAgent : Agent F64 (EdrEvent F32) where
  urgent e := ef.urgent e.uebaScore
  keepsFailed := false
  identity e := ⟨e.eventId, e.agentId, e.action, e.decision⟩
  toJson e := e.toJson ef
  eventId_toJson _ := rfl
  agentId_toJson _ := rfl
  action_toJson _ := rfl
  decision_toJson _ := rfl

inductive Kind
  | net
  | web
  | srv

def Kind.Event (F64 F32 : Type) : Kind → Type
  | net => NetworkAgentEvent F64 F32
  | web => WafEvent F32
  | srv => EdrEvent F32

def Kind.agent : (k : Kind) → Agent F64 (k.Event F64 F32)
  | net => netAgent ef
  | web => webAgent ef
  | srv => srvAgent ef

end Agents

/-! ## What is posted where -/

variable {a : Agent F64 E}

/-- A post of an urgent event, or of a batch without one. -/
def Post.WellFormed (a : Agent F64 E) (p : Post E) : Prop :=
  (∃ e, a.urgent e = true ∧ p = { path := "/api/v1/events", events := [e] }) ∨
    p.path = "/api/v1/events/batch" ∧ ∀ e ∈ p.events, a.urgent e = false

/-- One round: no urgent event waits, and what is posted is well formed. -/
theorem eventForwarder_inv {f : Forwarder E} (hf : ∀ e ∈ f.batch, a.urgent e = false) (i : Input E) :
    (∀ e ∈ (eventForwarder a f i).1.batch, a.urgent e = false) ∧
      ∀ p ∈ (eventForwarder a f i).2, p.WellFormed a := by
  cases i with
  | recv e sent =>
    simp only [eventForwarder]
    split_ifs with hrun hurg
    · exact ⟨hf, by simp⟩
    · refine ⟨hf, ?_⟩
      rintro p ⟨⟩
      exact .inl ⟨e, hurg, rfl⟩
    · refine ⟨?_, by simp⟩
      intro e' he'
      rcases List.mem_append.1 he' with he' | he'
      · exact hf e' he'
      · rw [List.mem_singleton.1 he']
        exact Bool.eq_false_iff.2 hurg
  | tick sent =>
    simp only [eventForwarder]
    split_ifs with hrun hsent
    · exact ⟨hf, by simp⟩
    · refine ⟨by simp, ?_⟩
      rintro p ⟨⟩
      exact .inr ⟨rfl, hf⟩
    · refine ⟨hf, ?_⟩
      rintro p ⟨⟩
      exact .inr ⟨rfl, hf⟩
  | close => exact ⟨hf, by simp [eventForwarder]⟩

theorem mem_posts {inputs : List (Input E)} {p : Post E} (hp : p ∈ posts a inputs) : p.WellFormed a := by
  have hinv : (∀ e ∈ (Mealy.after (eventForwarder a) .new inputs).batch, a.urgent e = false) ∧
      ∀ o ∈ Mealy.outputs (eventForwarder a) .new inputs, ∀ p ∈ o, p.WellFormed a := by
    refine Mealy.history_inv (P := fun _ (os : List (Option (Post E))) (f : Forwarder E) =>
      (∀ e ∈ f.batch, a.urgent e = false) ∧ ∀ o ∈ os, ∀ p ∈ o, p.WellFormed a)
      ⟨by simp [Forwarder.new], by simp⟩ ?_ inputs
    rintro _ os f i ⟨hf, hos⟩
    obtain ⟨hf', hp⟩ := eventForwarder_inv hf i
    refine ⟨hf', fun o ho => ?_⟩
    rcases List.mem_append.1 ho with ho | ho
    · exact hos o ho
    · rw [List.mem_singleton.1 ho]
      exact hp
  exact hinv.2 (some p) (List.reduceOption_mem_iff.1 hp) p rfl

end ThorFirewall.Micro
