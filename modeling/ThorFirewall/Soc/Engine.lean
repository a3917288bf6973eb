import Mathlib
import ThorFirewall.Lib.Json
import ThorFirewall.Lib.Mealy
import ThorFirewall.Lib.SortedMap
import ThorFirewall.Soc.AuditChain

/-!
# The SOC engine (`thor-soc-slm`)

Agents send events. An event whose decision is `escalated` goes to the inbox under its id, where an analyst approves or
rejects it. Every event and every review is appended to the audit log. Requests are served one after the other here; the
interleaving of the steps of `append_audit` is in `Soc.AuditChain`.

- `ingestEvent`, `approveDecision`, `rejectDecision`: the handlers, with every default of a missing key;
- `step_cases`: what one request does to the inbox, to the counter of pending decisions and to the audit log;
- `appendAudit_eq_exec`: an `append_audit` that nothing interleaves with.

The limit that the web framework puts on the size of a body is left out.
-/

namespace ThorFirewall.Soc

open Std Json

/-! ## Types -/

/-- Floating-point numbers are passed on, compared and printed, but not computed with. -/
structure Floats (F64 F32 : Type) where
  ofU64 : UInt64 → F64
  ofI64 : Int64 → F64
  zero : F64
  toF32 : F64 → F32
  /-- `{:.2}`. -/
  format2 : F32 → String

/-- `{:.2}` of an exact number: the nearest hundredth, the even one of two. -/
def hundredths (x : ℚ) : String :=
  let q := |x| * 100
  let n := ⌊q⌋₊
  let n := if q - n < 1 / 2 then n else if 1 / 2 < q - n then n + 1 else n + n % 2
  (if x < 0 then "-" else "") ++ toString (n / 100) ++ "." ++ toString (n / 10 % 10) ++ toString (n % 10)

/-- Exact numbers in place of floating-point ones. -/
def exactFloats : Floats ℚ ℚ where
  ofU64 n := n.toNat
  ofI64 n := n.toInt
  zero := 0
  toF32 x := x
  format2 := hundredths

structure IngestedEvent (F64 F32 : Type) where
  eventId : String
  timestamp : UInt64
  agentId : String
  agentType : String
  threatLevel : String
  action : String
  decision : String
  score : F32
  modelId : String
  xaiSummary : String
  description : String
  mitre : Option String
  auditSeq : Option UInt64
  raw : Value F64
  ingestedAt : UInt64

inductive Status
  | pending
  | approved
  | rejected
  deriving DecidableEq, Repr

structure PendingDecision (F64 F32 : Type) where
  eventId : String
  agentId : String
  agentType : String
  escalatedAt : UInt64
  proposedAction : String
  score : F32
  xaiSummary : String
  threatLevel : String
  description : String
  rawEvent : Value F64
  status : Status
  reviewedBy : Option String
  reviewedAt : Option UInt64
  reviewNote : Option String

/-- `EVENT_HISTORY_MAX`. -/
def eventHistoryMax : ℕ := 10000

structure SocState (F64 F32 : Type) where
  /-- The newest first. -/
  events : List (IngestedEvent F64 F32)
  inbox : TreeMap String (PendingDecision F64 F32)
  auditLog : List AuditRecord
  auditSeq : UInt64
  auditPrev : String
  agents : TreeMap String UInt64
  eventsTotal : UInt64
  pendingCount : UInt64
  autoTotal : UInt64
  humanTotal : UInt64

variable {F64 F32 : Type}

def SocState.new : SocState F64 F32 where
  events := []
  inbox := ∅
  auditLog := []
  auditSeq := 0
  auditPrev := zeros
  agents := ∅
  eventsTotal := 0
  pendingCount := 0
  autoTotal := 0
  humanTotal := 0

/-! ## Ingestion -/

section Handlers

variable (fl : Floats F64 F32) (digest : String → String)

/-- `append_audit` with no other call between its steps. -/
def SocState.appendAudit (s : SocState F64 F32) (call : AppendCall) : SocState F64 F32 :=
  let r := record digest call s.auditSeq s.auditPrev
  { s with auditSeq := s.auditSeq + 1, auditPrev := r.entryHash, auditLog := s.auditLog ++ [r] }

/-- The event that `ingest_event` reads from a value. -/
def readEvent (raw : Value F64) (agentType : String) (now : UInt64) : IngestedEvent F64 F32 :=
  let agentId := (raw.index "agent_id").asStr.getD ""
  let score := fl.toF32 <| ((raw.index "score").asF64 fl.ofU64 fl.ofI64
    <|> (raw.index "confidence").asF64 fl.ofU64 fl.ofI64
    <|> (raw.index "ueba_score").asF64 fl.ofU64 fl.ofI64).getD fl.zero
  let action := (raw.index "action").asStr.getD "ALERT"
  let threat := (raw.index "threat_level").asStr.getD "LOW"
  { eventId := (raw.index "event_id").asStr.getD ""
    timestamp := (raw.index "timestamp").asU64.getD now
    agentId
    agentType
    threatLevel := threat
    action
    decision := (raw.index "decision").asStr.getD "logged"
    score
    modelId := (raw.index "model_id").asStr.getD "unknown"
    xaiSummary := (raw.index "xai_summary").asStr.getD ""
    description := s!"[{threat}] {agentType} agent={agentId} score={fl.format2 score} action={action}"
    mitre := (raw.index "mitre_technique").asStr
    auditSeq := (raw.index "audit_seq").asU64
    raw
    ingestedAt := now }

/-- The inbox entry of an escalated event. -/
def pendingOf (ev : IngestedEvent F64 F32) (now : UInt64) : PendingDecision F64 F32 where
  eventId := ev.eventId
  agentId := ev.agentId
  agentType := ev.agentType
  escalatedAt := now
  proposedAction :=
    if ev.action = "PENDING_REVIEW" then (ev.raw.index "proposed_action").asStr.getD "BLOCK" else ev.action
  score := ev.score
  xaiSummary := ev.xaiSummary
  threatLevel := ev.threatLevel
  description := ev.description
  rawEvent := ev.raw
  status := .pending
  reviewedBy := none
  reviewedAt := none
  reviewNote := none

/-- The ring buffer of recent events. -/
def pushFront (ev : IngestedEvent F64 F32) (events : List (IngestedEvent F64 F32)) : List (IngestedEvent F64 F32) :=
  let events := ev :: events
  if events.length > eventHistoryMax then events.dropLast else events

/-- The routing of an event: to the inbox if it is escalated. -/
def SocState.route (s : SocState F64 F32) (ev : IngestedEvent F64 F32) (now : UInt64) : SocState F64 F32 :=
  if ev.decision = "escalated" then
    { s with pendingCount := s.pendingCount + 1, inbox := s.inbox.insert ev.eventId (pendingOf ev now) }
  else if ev.decision = "autonomous" then { s with autoTotal := s.autoTotal + 1 }
  else s

def SocState.ingestEvent (s : SocState F64 F32) (raw : Value F64) (agentType : String) (now : UInt64) :
    SocState F64 F32 × IngestedEvent F64 F32 :=
  let ev := readEvent fl raw agentType now
  let s := { s with
    agents := s.agents.insert ev.agentId now
    eventsTotal := s.eventsTotal + 1
    events := pushFront ev s.events }
  let s := s.route ev now
  let s := s.appendAudit digest {
    eventId := ev.eventId, agentId := ev.agentId, category := "SecurityAlert", action := ev.action,
    decision := ev.decision, analyst := none, xai := some ev.xaiSummary, now }
  (s, ev)

/-- The agent type of a single event: its own word for it, or what the prefix of the agent's id says. -/
def agentTypeOf (body : Value F64) : String :=
  ((body.index "agent_type").asStr <|> (body.index "agent_id").asStr.map fun id =>
    if id.startsWith "net-" then "network" else if id.startsWith "web-" then "web" else "server").getD "unknown"

/-- The agent type of an event in a batch. -/
def batchAgentTypeOf (raw : Value F64) : String :=
  let id := (raw.index "agent_id").asStr.getD ""
  if id.startsWith "net-" then "network" else if id.startsWith "web-" then "web" else "server"

def SocState.ingestEventHandler (s : SocState F64 F32) (body : Value F64) (now : UInt64) :
    SocState F64 F32 × IngestedEvent F64 F32 :=
  s.ingestEvent fl digest body (agentTypeOf body) now

def SocState.ingestBatchHandler (s : SocState F64 F32) (batch : List (Value F64)) (now : UInt64) :
    SocState F64 F32 × List (IngestedEvent F64 F32) :=
  match batch with
  | [] => (s, [])
  | raw :: rest =>
    let r := s.ingestEvent fl digest raw (batchAgentTypeOf raw) now
    let r' := r.1.ingestBatchHandler rest now
    (r'.1, r.2 :: r'.2)

/-- A POST to one of the two event routes, and the events it ingests. `none` is a rejected request: a batch has to be an
array. -/
def SocState.post (s : SocState F64 F32) (path : String) (body : Value F64) (now : UInt64) :
    Option (SocState F64 F32 × List (IngestedEvent F64 F32)) :=
  if path = "/api/v1/events" then
    let r := s.ingestEventHandler fl digest body now
    some (r.1, [r.2])
  else if path = "/api/v1/events/batch" then
    match body with
    | .array batch => some (s.ingestBatchHandler fl digest batch now)
    | _ => none
  else none

/-! ## Reviews -/

structure DecisionBody where
  analyst : String
  note : Option String

/-- The answer to a request. -/
inductive Response
  | created (eventId : String)
  | approved (eventId action analyst : String)
  | rejected (eventId analyst : String)
  | conflict (error : String)
  | notFound (error : String)
  deriving DecidableEq, Repr

/-- An inbox entry after its review. -/
def PendingDecision.review (e : PendingDecision F64 F32) (status : Status) (body : DecisionBody) (now : UInt64) :
    PendingDecision F64 F32 :=
  { e with status, reviewedBy := some body.analyst, reviewedAt := some now, reviewNote := body.note }

def SocState.approveDecision (s : SocState F64 F32) (eventId : String) (body : DecisionBody) (now : UInt64) :
    SocState F64 F32 × Response :=
  match s.inbox[eventId]? with
  | none => (s, .notFound "event not found in inbox")
  | some entry =>
    if entry.status ≠ .pending then (s, .conflict "already reviewed")
    else
      let s := { s with
        inbox := s.inbox.insert eventId (entry.review .approved body now)
        humanTotal := s.humanTotal + 1
        pendingCount := s.pendingCount - 1 }
      (s.appendAudit digest {
        eventId, agentId := entry.agentId, category := "HumanDecision", action := entry.proposedAction,
        decision := "approved", analyst := some body.analyst, xai := body.note, now },
        .approved eventId entry.proposedAction body.analyst)

/-- Unlike `approveDecision`, this does not look at the status of the entry. -/
def SocState.rejectDecision (s : SocState F64 F32) (eventId : String) (body : DecisionBody) (now : UInt64) :
    SocState F64 F32 × Response :=
  match s.inbox[eventId]? with
  | none => (s, .notFound "not found")
  | some entry =>
    let s := { s with
      inbox := s.inbox.insert eventId (entry.review .rejected body now)
      pendingCount := s.pendingCount - 1 }
    (s.appendAudit digest {
      eventId, agentId := entry.agentId, category := "HumanDecision", action := "REJECT", decision := "rejected",
      analyst := some body.analyst, xai := body.note, now },
      .rejected eventId body.analyst)

/-! ## Requests -/

inductive Request (F64 : Type)
  | ingest (raw : Value F64) (agentType : String) (now : UInt64)
  | approve (eventId : String) (body : DecisionBody) (now : UInt64)
  | reject (eventId : String) (body : DecisionBody) (now : UInt64)

def step (s : SocState F64 F32) : Request F64 → SocState F64 F32 × Response
  | .ingest raw agentType now =>
    let r := s.ingestEvent fl digest raw agentType now
    (r.1, .created r.2.eventId)
  | .approve eventId body now => s.approveDecision digest eventId body now
  | .reject eventId body now => s.rejectDecision digest eventId body now

/-- The state after requests to a new engine. -/
def after (reqs : List (Request F64)) : SocState F64 F32 := Mealy.after (step fl digest) .new reqs

end Handlers

/-! ## What a request does -/

section Effects

variable {fl : Floats F64 F32} {digest : String → String} {s : SocState F64 F32}

/-- The request puts an entry under this id into the inbox. -/
def Request.Escalates : Request F64 → String → Prop
  | .ingest raw _ _, id =>
    (raw.index "decision").asStr.getD "logged" = "escalated" ∧ (raw.index "event_id").asStr.getD "" = id
  | _, _ => False

/-- The request reviews the inbox entry with this id. -/
def Request.Reviews (s : SocState F64 F32) : Request F64 → String → Prop
  | .ingest _ _ _, _ => False
  | .approve eventId _ _, id => eventId = id ∧ ∃ e, s.inbox[id]? = some e ∧ e.status = .pending
  | .reject eventId _ _, id => eventId = id ∧ ∃ e, s.inbox[id]? = some e

variable {r : Request F64} {id i : String}

theorem Request.Escalates.unique (h : r.Escalates id) (h' : r.Escalates i) : id = i := by
  cases r with
  | ingest raw agentType now => exact h.2.symm.trans h'.2
  | approve | reject => exact h.elim

theorem Request.Reviews.unique (h : r.Reviews s id) (h' : r.Reviews s i) : id = i := by
  cases r with
  | ingest => exact h.elim
  | approve | reject => exact h.1.symm.trans h'.1

theorem Request.Escalates.not_reviews (h : r.Escalates id) : ¬ r.Reviews s i := by
  intro h'
  cases r with
  | ingest => exact h'
  | approve | reject => exact h

/-- The number of reviews of an event in the audit log. -/
def SocState.humanDecisions (s : SocState F64 F32) (id : String) : ℕ :=
  s.auditLog.countP fun r => r.category = "HumanDecision" && r.eventId = id

theorem humanDecisions_appendAudit (call : AppendCall) (id : String) : (s.appendAudit digest call).humanDecisions id =
    s.humanDecisions id + if call.category = "HumanDecision" ∧ call.eventId = id then 1 else 0 := by
  have hrec : (record digest call s.auditSeq s.auditPrev).category = call.category ∧
      (record digest call s.auditSeq s.auditPrev).eventId = call.eventId := ⟨rfl, rfl⟩
  simp [SocState.appendAudit, SocState.humanDecisions, List.countP_append, List.countP_singleton, hrec]

/-- What a request does to the inbox, the counter and the reviews in the audit log. -/
inductive Effect (s : SocState F64 F32) (r : Request F64) (s' : SocState F64 F32) : Prop
  | escalated (id : String) (e : PendingDecision F64 F32) (hr : r.Escalates id) (he : e.status = .pending)
      (hinbox : s'.inbox = s.inbox.insert id e) (hcount : s'.pendingCount = s.pendingCount + 1)
      (hlog : ∀ i, s'.humanDecisions i = s.humanDecisions i)
  | reviewed (id : String) (e e' : PendingDecision F64 F32) (hr : r.Reviews s id) (he : s.inbox[id]? = some e)
      (he' : e'.status ≠ .pending) (hinbox : s'.inbox = s.inbox.insert id e')
      (hcount : s'.pendingCount = s.pendingCount - 1)
      (hlog : ∀ i, s'.humanDecisions i = s.humanDecisions i + if id = i then 1 else 0)
  | quiet (hesc : ∀ id, ¬ r.Escalates id) (hrev : ∀ id, ¬ r.Reviews s id) (hinbox : s'.inbox = s.inbox)
      (hcount : s'.pendingCount = s.pendingCount) (hlog : ∀ i, s'.humanDecisions i = s.humanDecisions i)

theorem ingestEvent_effect (raw : Value F64) (agentType : String) (now : UInt64) :
    Effect s (.ingest raw agentType now) (s.ingestEvent fl digest raw agentType now).1 := by
  set ev : IngestedEvent F64 F32 := readEvent fl raw agentType now with hev
  have hlog : ∀ i, (s.ingestEvent fl digest raw agentType now).1.humanDecisions i = s.humanDecisions i := by
    intro i
    rw [SocState.ingestEvent, humanDecisions_appendAudit, if_neg (by simp), Nat.add_zero]
    unfold SocState.humanDecisions SocState.route
    split_ifs <;> rfl
  by_cases hesc : ev.decision = "escalated"
  · refine .escalated ev.eventId (pendingOf ev now) ⟨hesc, rfl⟩ rfl ?_ ?_ hlog
    all_goals
      simp only [SocState.ingestEvent, SocState.appendAudit, SocState.route]
      rw [if_pos hesc]
  · refine .quiet (fun id h => hesc h.1) (fun id h => h) ?_ ?_ hlog
    all_goals
      simp only [SocState.ingestEvent, SocState.appendAudit, SocState.route]
      rw [if_neg hesc]
      split_ifs <;> rfl

theorem approveDecision_effect (id : String) (body : DecisionBody) (now : UInt64) :
    Effect s (.approve id body now) (s.approveDecision digest id body now).1 := by
  unfold SocState.approveDecision
  cases he : s.inbox[id]? with
  | none =>
    refine .quiet (fun i h => h) ?_ rfl rfl fun i => rfl
    rintro i ⟨rfl, e, he', -⟩
    rw [he] at he'
    cases he'
  | some e =>
    by_cases hp : e.status = .pending
    · simp only [hp, ne_eq, not_true_eq_false, if_false]
      refine .reviewed id e (e.review .approved body now) ⟨rfl, e, he, hp⟩ he (by simp [PendingDecision.review]) rfl rfl ?_
      intro i
      rw [humanDecisions_appendAudit]
      simp [SocState.humanDecisions]
    · simp only [hp, ne_eq, not_false_eq_true, if_true]
      refine .quiet (fun i h => h) ?_ rfl rfl fun i => rfl
      rintro i ⟨rfl, e', he', hp'⟩
      rw [he] at he'
      exact hp (Option.some.inj he' ▸ hp')

theorem rejectDecision_effect (id : String) (body : DecisionBody) (now : UInt64) :
    Effect s (.reject id body now) (s.rejectDecision digest id body now).1 := by
  unfold SocState.rejectDecision
  cases he : s.inbox[id]? with
  | none =>
    refine .quiet (fun i h => h) ?_ rfl rfl fun i => rfl
    rintro i ⟨rfl, e, he'⟩
    rw [he] at he'
    cases he'
  | some e =>
    refine .reviewed id e (e.review .rejected body now) ⟨rfl, e, he⟩ he (by simp [PendingDecision.review]) rfl rfl ?_
    intro i
    rw [humanDecisions_appendAudit]
    simp [SocState.humanDecisions]

theorem step_cases (s : SocState F64 F32) (r : Request F64) : Effect s r (step fl digest s r).1 := by
  cases r with
  | ingest raw agentType now => exact ingestEvent_effect raw agentType now
  | approve eventId body now => exact approveDecision_effect eventId body now
  | reject eventId body now => exact rejectDecision_effect eventId body now

@[simp] theorem after_nil : after fl digest [] = .new := rfl

@[simp] theorem after_concat (reqs : List (Request F64)) (r : Request F64) :
    after fl digest (reqs ++ [r]) = (step fl digest (after fl digest reqs) r).1 := by
  rw [after, Mealy.after_concat]
  rfl

theorem effect_after (reqs : List (Request F64)) (r : Request F64) :
    Effect (after fl digest reqs) r (after fl digest (reqs ++ [r])) := by
  rw [after_concat]
  exact step_cases _ r

open Interleaving in
/-- The four steps of one call of `append_audit` with no other step between them. -/
theorem appendAudit_eq_exec {ι : Type*} [DecidableEq ι] (calls : ι → AppendCall) (i : ι) {c : Config ι Shared Pc}
    (hpc : c.pc i = .start) (hc : c.shared = ⟨s.auditSeq, s.auditPrev, s.auditLog⟩) :
    (exec (next digest calls) c [i, i, i, i]).shared =
      ⟨(s.appendAudit digest (calls i)).auditSeq, (s.appendAudit digest (calls i)).auditPrev,
        (s.appendAudit digest (calls i)).auditLog⟩ := by
  simp [exec, Interleaving.step, next, hpc, hc, SocState.appendAudit]

end Effects

end ThorFirewall.Soc
