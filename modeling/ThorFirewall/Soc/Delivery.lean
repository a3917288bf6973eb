import Mathlib
import ThorFirewall.Micro.EventForwarder
import ThorFirewall.Soc.Engine

/-!
# From the forwarders to the SOC engine

A forwarder posts an array of events to either route. The handler of the batch route reads the array event by event. The
handler of the route for single events reads the array as one event: every key is missing, and every default is taken.

- `identityOf_readEvent`: an event of an agent is read with its own identity;
- `ingestBatchHandler_spec`: what a batch leaves behind;
- `faithful_iff`: which posts are read as they were sent.
-/

namespace ThorFirewall.Soc

open Std Json Micro

variable {F64 F32 E : Type} {fl : Floats F64 F32} {digest : String → String} {s : SocState F64 F32}
  {a : Agent F64 E}

/-- The identity of an ingested event. -/
def identityOf (ev : IngestedEvent F64 F32) : Identity := ⟨ev.eventId, ev.agentId, ev.action, ev.decision⟩

/-- The identity of an event without keys. -/
def blank : Identity := ⟨"", "", "ALERT", "logged"⟩

theorem identityOf_readEvent (e : E) (agentType : String) (now : UInt64) :
    identityOf (readEvent fl (a.toJson e) agentType now) = a.identity e := by
  simp [identityOf, readEvent, a.eventId_toJson, a.agentId_toJson, a.action_toJson, a.decision_toJson]

theorem identityOf_readEvent_array (vs : List (Value F64)) (agentType : String) (now : UInt64) :
    identityOf (readEvent fl (.array vs) agentType now) = blank := by
  simp [identityOf, readEvent, blank]

/-- The entry of this id is in the inbox. -/
def InInbox (s : SocState F64 F32) (id : String) : Prop := ∃ p, s.inbox[id]? = some p ∧ p.eventId = id

theorem inbox_ingestEvent (raw : Value F64) (agentType : String) (now : UInt64) :
    (s.ingestEvent fl digest raw agentType now).1.inbox =
      if (readEvent fl raw agentType now).decision = "escalated" then
        s.inbox.insert (readEvent fl raw agentType now).eventId (pendingOf (readEvent fl raw agentType now) now)
      else s.inbox := by
  simp only [SocState.ingestEvent, SocState.appendAudit, SocState.route]
  split_ifs <;> rfl

/-- An ingested event takes nothing out of the inbox. -/
theorem InInbox.ingestEvent {id : String} (h : InInbox s id) (raw : Value F64) (agentType : String) (now : UInt64) :
    InInbox (s.ingestEvent fl digest raw agentType now).1 id := by
  unfold InInbox
  rw [inbox_ingestEvent]
  split_ifs
  · rw [TreeMap.getElem?_insert]
    split_ifs with heq
    · exact ⟨_, rfl, Std.compare_eq_iff_eq.1 heq⟩
    · exact h
  · exact h

theorem inInbox_ingestEvent {raw : Value F64} {agentType : String} {now : UInt64}
    (h : (readEvent fl raw agentType now).decision = "escalated") :
    InInbox (s.ingestEvent fl digest raw agentType now).1 (readEvent fl raw agentType now).eventId := by
  unfold InInbox
  rw [inbox_ingestEvent, if_pos h, TreeMap.getElem?_insert_self]
  exact ⟨_, rfl, rfl⟩

theorem InInbox.ingestBatchHandler {id : String} (batch : List (Value F64)) (now : UInt64) :
    ∀ {s : SocState F64 F32}, InInbox s id → InInbox (s.ingestBatchHandler fl digest batch now).1 id := by
  induction batch with
  | nil => exact fun h => h
  | cons raw rest ih =>
    intro s h
    exact ih (h.ingestEvent raw _ now)

/-- A batch of an agent is read event by event, and what is escalated is in the inbox. -/
theorem ingestBatchHandler_spec (fl : Floats F64 F32) (digest : String → String) (a : Agent F64 E) (es : List E)
    (now : UInt64) (s : SocState F64 F32) :
    (s.ingestBatchHandler fl digest (es.map a.toJson) now).2.map identityOf = es.map a.identity ∧
    ∀ e ∈ es, (a.identity e).decision = "escalated" →
      InInbox (s.ingestBatchHandler fl digest (es.map a.toJson) now).1 (a.identity e).eventId := by
  induction es generalizing s with
  | nil => simp [SocState.ingestBatchHandler]
  | cons e es ih =>
    have hid : identityOf (readEvent fl (a.toJson e) (batchAgentTypeOf (a.toJson e)) now) = a.identity e :=
      identityOf_readEvent e _ now
    obtain ⟨hmap, hin⟩ := ih (s.ingestEvent fl digest (a.toJson e) (batchAgentTypeOf (a.toJson e)) now).1
    constructor
    · exact congrArg₂ List.cons hid hmap
    · intro e' he' hesc
      rcases List.mem_cons.1 he' with rfl | he'
      · have hfirst : InInbox (s.ingestEvent fl digest (a.toJson e') (batchAgentTypeOf (a.toJson e')) now).1
            (a.identity e').eventId := by
          rw [← hid] at hesc ⊢
          exact inInbox_ingestEvent hesc
        exact hfirst.ingestBatchHandler _ now
      · exact hin e' he' hesc

/-- **The post is read as it was sent**: the handler of its route ingests its events, each with its own identity, and
what is escalated is in the inbox under its id. -/
def Faithful (fl : Floats F64 F32) (digest : String → String) (a : Agent F64 E) (p : Post E) : Prop :=
  ∀ (s : SocState F64 F32) (now : UInt64), ∃ s' evs, s.post fl digest p.path (a.body p) now = some (s', evs) ∧
    evs.map identityOf = p.events.map a.identity ∧
    ∀ e ∈ p.events, (a.identity e).decision = "escalated" → InInbox s' (a.identity e).eventId

theorem faithful_batch {p : Post E} (hp : p.path = "/api/v1/events/batch") : Faithful fl digest a p := by
  intro s now
  obtain ⟨hmap, hin⟩ := ingestBatchHandler_spec fl digest a p.events now s
  refine ⟨_, _, ?_, hmap, hin⟩
  simp [SocState.post, hp, Agent.body]

theorem faithful_single {e : E} : Faithful fl digest a { path := "/api/v1/events", events := [e] } ↔ a.identity e = blank := by
  have hread : ∀ (s : SocState F64 F32) now, s.post fl digest "/api/v1/events" (a.body ⟨"/api/v1/events", [e]⟩) now =
      some ((s.ingestEventHandler fl digest (.array [a.toJson e]) now).1,
        [(s.ingestEventHandler fl digest (.array [a.toJson e]) now).2]) := fun s now => rfl
  have hblank : ∀ (s : SocState F64 F32) now,
      identityOf (s.ingestEventHandler fl digest (.array [a.toJson e]) now).2 = blank :=
    fun s now => identityOf_readEvent_array _ _ now
  constructor
  · intro h
    obtain ⟨s', evs, hpost, hmap, -⟩ := h .new 0
    obtain ⟨rfl, rfl⟩ := Prod.mk.inj (Option.some.inj (hpost.symm.trans (hread .new 0)))
    have heq := List.singleton_inj.1 hmap
    rw [← heq]
    exact hblank .new 0
  · intro h s now
    refine ⟨_, _, hread s now, ?_, ?_⟩
    · simp [hblank, h]
    · intro e' he' hesc
      rw [List.mem_singleton.1 he', h] at hesc
      exact absurd hesc (by decide)

/-- **Which posts are read as they were sent.** For every run of the forwarder of every agent: those without an urgent
event. (An urgent event is read without its identity, which changes nothing only if it had none.) -/
theorem faithful_iff (fl : Floats F64 F32) (digest : String → String) (ef : EventFloats F64 F32) (k : Kind)
    (inputs : List (Input (k.Event F64 F32))) (p : Post (k.Event F64 F32)) (hp : p ∈ posts (k.agent ef) inputs) :
    Faithful fl digest (k.agent ef) p ↔
      ∀ e ∈ p.events, (k.agent ef).urgent e = false ∨ (k.agent ef).identity e = blank := by
  rcases mem_posts hp with ⟨e, hurg, rfl⟩ | ⟨hpath, hcalm⟩
  · rw [faithful_single]
    simp [hurg]
  · exact iff_of_true (faithful_batch hpath) fun e he => .inl (hcalm e he)

/-- An escalated event of the network agent, of this threat level. -/
def probe (threatLevel : String) (confidence : ℚ) : NetworkAgentEvent ℚ ℚ where
  eventId := "7c9e6679-7425-40de-944b-e07fc1f90ae7"
  timestamp := 1735689600
  agentId := "net-edge"
  srcIp := "10.0.0.5"
  dstIp := "10.0.0.9"
  srcPort := 50000
  dstPort := 22
  protocol := "TCP"
  action := "PENDING_REVIEW"
  reason := "below the threshold"
  threatLevel
  confidence
  modelId := "thor_master_brain_v3_2026"
  xaiSummary := ""
  decision := "escalated"
  c2Domain := none
  ppsRate := none
  ja4 := none
  dgaEntropy := none
  auditSeq := none
  flRoundId := none

/-- A medium event goes in a batch and is read as it was sent. -/
theorem faithful_medium : Faithful exactFloats Sha256.hexDigest (Kind.net.agent exactEventFloats)
    { path := "/api/v1/events/batch", events := [probe "MEDIUM" (3 / 4)] } := by
  refine (faithful_iff exactFloats Sha256.hexDigest exactEventFloats .net
    [.recv (probe "MEDIUM" (3 / 4)) true, .tick true] _ (List.mem_singleton.2 rfl)).2 fun e he => .inl ?_
  rw [List.mem_singleton.1 he]
  decide

/-- A high event is posted at once, and read without an id, an agent or a decision: the inbox stays empty. -/
theorem faithful_fails :
    posts (Kind.net.agent exactEventFloats) [.recv (probe "HIGH" (22 / 25)) true] =
      [{ path := "/api/v1/events", events := [probe "HIGH" (22 / 25)] }] ∧
    ((SocState.new.post exactFloats Sha256.hexDigest "/api/v1/events"
      ((Kind.net.agent exactEventFloats).body ⟨"/api/v1/events", [probe "HIGH" (22 / 25)]⟩) 0).map fun r =>
        (r.2.map identityOf, r.1.inbox.size)) = some ([⟨"", "", "ALERT", "logged"⟩], 0) ∧
    ¬ Faithful exactFloats Sha256.hexDigest (Kind.net.agent exactEventFloats)
      { path := "/api/v1/events", events := [probe "HIGH" (22 / 25)] } := by
  refine ⟨rfl, rfl, fun h => ?_⟩
  exact absurd (faithful_single.1 h) (by decide)

end ThorFirewall.Soc
