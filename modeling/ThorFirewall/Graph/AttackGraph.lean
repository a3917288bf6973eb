import Mathlib
import ThorFirewall.Lib.Mealy
import ThorFirewall.Lib.Text

/-!
# The attack graph (`graph/mod.rs`)

Alerts of one source address within a window are collected in a campaign. The first one founds it (`Campaign.new`), the
others are absorbed (`Campaign.absorb`); a campaign that has been silent for two windows is evicted. The clock counts
seconds and is read twice in a call.

- `coherent_step_iff`: what a campaign says about itself holds after a step exactly if a campaign that the step founds
  is of a phase below 4 and its tactics are distinct;
- `campaigns_coherent_iff`: so it does in a run.
-/

namespace ThorFirewall.Graph

open Std

/-! ## Campaigns -/

inductive Tactic
  | reconnaissance
  | resourceDevelopment
  | initialAccess
  | execution
  | persistence
  | privilegeEscalation
  | defenseEvasion
  | credentialAccess
  | discovery
  | lateralMovement
  | collection
  | commandAndControl
  | exfiltration
  | impact
  deriving DecidableEq

def Tactic.name : Tactic → String
  | reconnaissance => "Reconnaissance"
  | resourceDevelopment => "Resource Development"
  | initialAccess => "Initial Access"
  | execution => "Execution"
  | persistence => "Persistence"
  | privilegeEscalation => "Privilege Escalation"
  | defenseEvasion => "Defense Evasion"
  | credentialAccess => "Credential Access"
  | discovery => "Discovery"
  | lateralMovement => "Lateral Movement"
  | collection => "Collection"
  | commandAndControl => "Command and Control"
  | exfiltration => "Exfiltration"
  | impact => "Impact"

/-- What the graph reads of a technique. -/
structure Technique where
  id : String
  tactic : Tactic
  deriving DecidableEq

/-- What the graph reads of a tag. -/
structure AttackTag where
  techniques : List Technique
  killChainPhase : Option UInt8
  deriving DecidableEq

def AttackTag.tactics (tag : AttackTag) : List String := tag.techniques.map fun t => t.tactic.name

/-- What the graph reads of an alert. -/
structure GraphAlert where
  id : String
  timestamp : Int64
  ruleName : String
  srcIp : Option String
  dstIp : Option String
  deriving DecidableEq

inductive CampaignStage
  | reconnaissance
  | initialAccess
  | execution
  | persistence
  | privilegeEscalation
  | lateralMovement
  | commandAndControl
  | exfiltration
  | impact
  | unknown
  deriving DecidableEq

inductive CampaignSeverity
  | low
  | medium
  | high
  | critical
  deriving DecidableEq

structure Campaign where
  id : String
  firstSeen : UInt64
  lastSeen : UInt64
  sourceIps : Finset String
  targetIps : Finset String
  alertIds : List String
  alertCount : ℕ
  tacticsSeen : List String
  techniques : Finset String
  killChainMax : UInt8
  stage : CampaignStage
  severity : CampaignSeverity
  description : String
  deriving DecidableEq

def killChainToStage : UInt8 → CampaignStage
  | 1 => .reconnaissance
  | 3 => .initialAccess
  | 4 => .execution
  | 5 => .persistence
  | 6 => .privilegeEscalation
  | 10 => .lateralMovement
  | 12 => .commandAndControl
  | 13 => .exfiltration
  | 14 => .impact
  | _ => .unknown

namespace Campaign

def computeSeverity (c : Campaign) : CampaignSeverity :=
  if 13 ≤ c.killChainMax then .critical
  else if 50 < c.alertCount ∨ 10 ≤ c.killChainMax then .critical
  else if 20 < c.alertCount ∨ 7 ≤ c.killChainMax then .high
  else if 5 < c.alertCount ∨ 4 ≤ c.killChainMax then .medium
  else .low

def new (id : String) (alert : GraphAlert) (tag : AttackTag) (now : UInt64) : Campaign where
  id := id
  firstSeen := now
  lastSeen := now
  sourceIps := if alert.srcIp.getD "" = "" then ∅ else {alert.srcIp.getD ""}
  targetIps := if alert.dstIp.getD "" = "" then ∅ else {alert.dstIp.getD ""}
  alertIds := [alert.id]
  alertCount := 1
  tacticsSeen := tag.tactics
  techniques := (tag.techniques.map (·.id)).toFinset
  killChainMax := tag.killChainPhase.getD 0
  stage := killChainToStage (tag.killChainPhase.getD 0)
  severity := .low
  description := "Campaign started with: " ++ alert.ruleName

def addTechnique (c : Campaign) (t : Technique) : Campaign :=
  { c with
    tacticsSeen := if t.tactic.name ∈ c.tacticsSeen then c.tacticsSeen else c.tacticsSeen ++ [t.tactic.name]
    techniques := insert t.id c.techniques }

def raisePhase (c : Campaign) (phase : UInt8) : Campaign :=
  if c.killChainMax < phase then { c with killChainMax := phase, stage := killChainToStage phase } else c

/-- The first part of `absorb`: the alert itself. -/
def enter (c : Campaign) (alert : GraphAlert) (now : UInt64) : Campaign :=
  { c with
    lastSeen := now
    alertIds := c.alertIds ++ [alert.id]
    alertCount := c.alertCount + 1
    sourceIps := c.sourceIps ∪ alert.srcIp.toFinset
    targetIps := c.targetIps ∪ alert.dstIp.toFinset }

def absorb (c : Campaign) (alert : GraphAlert) (tag : AttackTag) (now : UInt64) : Campaign :=
  let c := tag.techniques.foldl addTechnique (c.enter alert now)
  let c := (tag.killChainPhase.map c.raisePhase).getD c
  { c with severity := c.computeSeverity }

end Campaign

/-! ## The graph -/

structure AlertNode where
  alertId : String
  ts : UInt64
  srcIp : Option String
  dstIp : Option String
  rule : String
  techniqueIds : List String
  killChain : Option UInt8

def AlertNode.ofAlert (alert : GraphAlert) (tag : AttackTag) : AlertNode where
  alertId := alert.id
  ts := alert.timestamp.toUInt64
  srcIp := alert.srcIp
  dstIp := alert.dstIp
  rule := alert.ruleName
  techniqueIds := tag.techniques.map (·.id)
  killChain := tag.killChainPhase

structure AttackGraph where
  campaigns : TreeMap String Campaign
  ipToCampaign : TreeMap String String
  nodes : TreeMap String AlertNode
  /-- In seconds. -/
  campaignWindow : UInt64

/-- What becomes of an alert: with the campaign that it joins or founds, `ingest` returns its id. -/
inductive Outcome
  | joined (cid : String)
  | founded (cid : String)
  | ignored
  /-- The first eight bytes of the alert's id are no text. -/
  | panicked
  deriving DecidableEq

/-- The result of `ingest`. -/
def Outcome.cid : Outcome → Option String
  | joined cid | founded cid => some cid
  | ignored | panicked => none

/-- `a.saturating_sub(b)`. -/
def saturatingSub (a b : UInt64) : UInt64 := if b ≤ a then a - b else 0

/-- The id of the campaign that an alert founds. -/
def campaignId (alertId : String) : Option String :=
  (Text.takeBytes alertId.toList (min 8 (Text.byteLength alertId.toList))).map fun s => "CAM-" ++ String.ofList s

namespace AttackGraph

def new (campaignWindow : UInt64) : AttackGraph := ⟨∅, ∅, ∅, campaignWindow⟩

variable (g : AttackGraph) (alert : GraphAlert) (tag : AttackTag)

/-- The campaign of the alert's source address, if it was active within the window. -/
def joins (now : UInt64) : Option (String × Campaign) := do
  let ip ← alert.srcIp
  let cid ← g.ipToCampaign[ip]?
  let campaign ← g.campaigns[cid]?
  if saturatingSub now campaign.lastSeen ≤ g.campaignWindow then some (cid, campaign) else none

def newCampaign (now : UInt64) : AttackGraph × Outcome :=
  if tag.techniques = [] then (g, .ignored)
  else
    match campaignId alert.id with
    | none => (g, .panicked)
    | some id =>
      ({ g with
        ipToCampaign := (alert.srcIp.map fun src => g.ipToCampaign.insert src id).getD g.ipToCampaign
        campaigns := g.campaigns.insert id (.new id alert tag now) }, .founded id)

def addNode : AttackGraph := { g with nodes := g.nodes.insert alert.id (.ofAlert alert tag) }

/-- `now` is the time of the look at the campaign, `later` the time that is recorded. -/
def ingest (now later : UInt64) : AttackGraph × Outcome :=
  let g := g.addNode alert tag
  match g.joins alert now with
  | some (cid, campaign) =>
    ({ g with campaigns := g.campaigns.insert cid (campaign.absorb alert tag later) }, .joined cid)
  | none => g.newCampaign alert tag later

def evictExpired (now : UInt64) : AttackGraph :=
  let cutoff := saturatingSub now (g.campaignWindow * 2)
  { g with
    campaigns := g.campaigns.filter fun _ c => cutoff ≤ c.lastSeen
    nodes := g.nodes.filter fun _ n => cutoff ≤ n.ts }

end AttackGraph

inductive Input
  | ingest (alert : GraphAlert) (tag : AttackTag) (now later : UInt64)
  | evictExpired (now : UInt64)

namespace AttackGraph

def step (g : AttackGraph) : Input → AttackGraph × Outcome
  | .ingest alert tag now later => g.ingest alert tag now later
  | .evictExpired now => (g.evictExpired now, .ignored)

def after (window : UInt64) (inputs : List Input) : AttackGraph := Mealy.after step (new window) inputs

/-- The outcomes of the calls. -/
def outcomes (window : UInt64) (inputs : List Input) : List Outcome := Mealy.outputs step (new window) inputs

/-- The alert founds the campaign `cid`. -/
def Founds (g : AttackGraph) (alert : GraphAlert) (tag : AttackTag) (now : UInt64) (cid : String) : Prop :=
  g.joins alert now = none ∧ tag.techniques ≠ [] ∧ campaignId alert.id = some cid

variable {g : AttackGraph} {alert : GraphAlert} {tag : AttackTag} {now later : UInt64}

@[simp] theorem joins_addNode : (g.addNode alert tag).joins alert now = g.joins alert now := rfl

theorem campaigns_of_joins {cid : String} {c : Campaign} (h : g.joins alert now = some (cid, c)) :
    g.campaigns[cid]? = some c := by
  simp only [joins, Option.bind_eq_bind, Option.bind_eq_some_iff] at h
  obtain ⟨ip, -, cid', -, c', hc, h⟩ := h
  split_ifs at h
  cases h
  exact hc

/-- What a call of `ingest` can do. -/
theorem ingest_cases (g : AttackGraph) (alert : GraphAlert) (tag : AttackTag) (now later : UInt64) :
    (∃ cid c, g.joins alert now = some (cid, c) ∧ (g.ingest alert tag now later).2 = .joined cid ∧
      (g.ingest alert tag now later).1.campaigns = g.campaigns.insert cid (c.absorb alert tag later)) ∨
    (∃ cid, g.Founds alert tag now cid ∧ (g.ingest alert tag now later).2 = .founded cid ∧
      (g.ingest alert tag now later).1.campaigns = g.campaigns.insert cid (.new cid alert tag later)) ∨
    ((∀ cid, ¬ g.Founds alert tag now cid) ∧ (g.ingest alert tag now later).2.cid = none ∧
      (g.ingest alert tag now later).1.campaigns = g.campaigns) := by
  unfold ingest
  simp only [joins_addNode]
  cases hjoins : g.joins alert now with
  | some x => exact Or.inl ⟨x.1, x.2, rfl, rfl, rfl⟩
  | none =>
    simp only [newCampaign]
    by_cases htech : tag.techniques = []
    · rw [if_pos htech]
      exact Or.inr (Or.inr ⟨fun cid h => h.2.1 htech, rfl, rfl⟩)
    · rw [if_neg htech]
      cases hid : campaignId alert.id with
      | none => exact Or.inr (Or.inr ⟨fun cid h => by simp [Founds, hid] at h, rfl, rfl⟩)
      | some cid => exact Or.inr (Or.inl ⟨cid, ⟨hjoins, htech, hid⟩, rfl, rfl⟩)

/-- An eviction leaves campaigns as they are, or takes them away. -/
theorem campaigns_evictExpired {cid : String} {c : Campaign} (h : (g.evictExpired now).campaigns[cid]? = some c) :
    g.campaigns[cid]? = some c := by
  rw [evictExpired, TreeMap.getElem?_filter'] at h
  exact (Option.filter_eq_some_iff.1 h).1

end AttackGraph

/-! ## What a campaign has absorbed -/

/-- The alerts of the campaigns, with their tags. -/
abbrev Members := String → List (GraphAlert × AttackTag)

/-- The alert of a call becomes the first, or another, member of its campaign. -/
def Members.record (m : Members) : Input → Outcome → Members
  | .ingest alert tag _ _, .founded cid => Function.update m cid [(alert, tag)]
  | .ingest alert tag _ _, .joined cid => Function.update m cid (m cid ++ [(alert, tag)])
  | _, _ => m

def members (window : UInt64) (inputs : List Input) : Members :=
  (inputs.zip (AttackGraph.outcomes window inputs)).foldl (fun m call => m.record call.1 call.2) fun _ => []

/-- The highest phase of the alerts; an alert without one counts as 0. -/
def maxPhase (ms : List (GraphAlert × AttackTag)) : ℕ :=
  (ms.map fun m => (m.2.killChainPhase.getD 0).toNat).foldl max 0

/-- The campaign says of itself what its alerts are. -/
structure Campaign.Coherent (c : Campaign) (ms : List (GraphAlert × AttackTag)) : Prop where
  severity : c.severity = c.computeSeverity
  stage : c.stage = killChainToStage c.killChainMax
  alertCount : c.alertCount = c.alertIds.length
  tacticsSeen : c.tacticsSeen.Nodup
  killChainMax : c.killChainMax.toNat = maxPhase ms
  alertIds : c.alertIds = ms.map (·.1.id)

/-- Every campaign of the graph is coherent. -/
def Coherent (window : UInt64) (inputs : List Input) : Prop :=
  ∀ cid (c : Campaign), (AttackGraph.after window inputs).campaigns[cid]? = some c →
    c.Coherent (members window inputs cid)

/-- A campaign that the call founds is of a phase below 4, and its tactics are distinct. -/
def FoundsQuietly (g : AttackGraph) : Input → Prop
  | .ingest alert tag now _ =>
    ∀ cid, g.Founds alert tag now cid → tag.killChainPhase.getD 0 < 4 ∧ tag.tactics.Nodup
  | .evictExpired _ => True

namespace Campaign

variable {c : Campaign} {alert : GraphAlert} {tag : AttackTag} {now : UInt64} {ms : List (GraphAlert × AttackTag)}

theorem maxPhase_concat : maxPhase (ms ++ [(alert, tag)]) = max (maxPhase ms) (tag.killChainPhase.getD 0).toNat := by
  simp [maxPhase]

/-! ### A new campaign -/

theorem computeSeverity_new_iff (id : String) :
    (new id alert tag now).computeSeverity = .low ↔ tag.killChainPhase.getD 0 < 4 := by
  simp only [computeSeverity, new, UInt8.le_iff_toNat_le, UInt8.lt_iff_toNat_lt]
  split_ifs <;> simp_all <;> omega

theorem coherent_new_iff (id : String) :
    (new id alert tag now).Coherent [(alert, tag)] ↔ tag.killChainPhase.getD 0 < 4 ∧ tag.tactics.Nodup := by
  constructor
  · intro h
    exact ⟨(computeSeverity_new_iff id).1 h.severity.symm, h.tacticsSeen⟩
  · rintro ⟨hphase, hnodup⟩
    refine ⟨((computeSeverity_new_iff id).2 hphase).symm, rfl, rfl, hnodup, ?_, rfl⟩
    simp [new, maxPhase]

/-! ### An absorbed alert -/

theorem foldl_addTechnique (ts : List Technique) :
    (ts.foldl addTechnique c).alertIds = c.alertIds ∧ (ts.foldl addTechnique c).alertCount = c.alertCount ∧
    (ts.foldl addTechnique c).killChainMax = c.killChainMax ∧ (ts.foldl addTechnique c).stage = c.stage := by
  induction ts generalizing c with
  | nil => exact ⟨rfl, rfl, rfl, rfl⟩
  | cons t ts ih => exact ih

/-- A tactic is entered once. -/
theorem nodup_foldl_addTechnique (ts : List Technique) (h : c.tacticsSeen.Nodup) :
    (ts.foldl addTechnique c).tacticsSeen.Nodup := by
  induction ts generalizing c with
  | nil => exact h
  | cons t ts ih =>
    refine ih ?_
    simp only [addTechnique]
    split_ifs with hmem
    · exact h
    · exact List.nodup_append.2 ⟨h, List.nodup_singleton _, by simpa using fun x hx => ne_of_mem_of_not_mem hx hmem⟩

theorem getD_raisePhase (phase : Option UInt8) :
    ((phase.map c.raisePhase).getD c).killChainMax.toNat = max c.killChainMax.toNat (phase.getD 0).toNat ∧
    ((phase.map c.raisePhase).getD c).alertIds = c.alertIds ∧
    ((phase.map c.raisePhase).getD c).alertCount = c.alertCount ∧
    ((phase.map c.raisePhase).getD c).tacticsSeen = c.tacticsSeen ∧
    (c.stage = killChainToStage c.killChainMax → ((phase.map c.raisePhase).getD c).stage =
      killChainToStage ((phase.map c.raisePhase).getD c).killChainMax) := by
  cases phase with
  | none => exact ⟨by simp, rfl, rfl, rfl, fun h => h⟩
  | some phase =>
    simp only [Option.map_some, Option.getD_some, raisePhase]
    split_ifs with hlt
    · rw [UInt8.lt_iff_toNat_lt] at hlt
      exact ⟨(max_eq_right hlt.le).symm, rfl, rfl, rfl, fun _ => rfl⟩
    · rw [UInt8.lt_iff_toNat_lt, Nat.not_lt] at hlt
      exact ⟨(max_eq_left hlt).symm, rfl, rfl, rfl, fun h => h⟩

theorem alertIds_absorb : (c.absorb alert tag now).alertIds = c.alertIds ++ [alert.id] :=
  (getD_raisePhase tag.killChainPhase).2.1.trans (foldl_addTechnique tag.techniques).1

/-- **An absorbed alert** keeps a campaign coherent. -/
theorem Coherent.absorb (h : c.Coherent ms) : (c.absorb alert tag now).Coherent (ms ++ [(alert, tag)]) := by
  obtain ⟨-, hcount, hmax, hstage⟩ := foldl_addTechnique (c := c.enter alert now) tag.techniques
  have hnodup := nodup_foldl_addTechnique (c := c.enter alert now) tag.techniques h.tacticsSeen
  obtain ⟨hmax', -, hcount', htactics', hstage'⟩ :=
    getD_raisePhase (c := tag.techniques.foldl addTechnique (c.enter alert now)) tag.killChainPhase
  refine ⟨rfl, ?_, ?_, ?_, ?_, ?_⟩
  · refine hstage' ?_
    rw [hstage, hmax]
    exact h.stage
  · rw [alertIds_absorb, List.length_append, List.length_singleton, ← h.alertCount]
    exact hcount'.trans hcount
  · exact htactics' ▸ hnodup
  · rw [maxPhase_concat, ← h.killChainMax]
    exact hmax'.trans (by rw [hmax, enter])
  · rw [alertIds_absorb, h.alertIds]
    simp

end Campaign

/-! ## Runs -/

section Runs

open AttackGraph

variable {window : UInt64} {inputs : List Input}

theorem after_concat (i : Input) :
    after window (inputs ++ [i]) = (step (after window inputs) i).1 :=
  Mealy.after_concat _ _ _ _

theorem members_concat (i : Input) :
    members window (inputs ++ [i]) = (members window inputs).record i (step (after window inputs) i).2 := by
  rw [members, outcomes, Mealy.outputs_concat, List.zip_append (Mealy.length_outputs _ _ _).symm, List.foldl_append]
  rfl

theorem coherent_nil : Coherent window [] := by
  intro cid c h
  simp [after, Mealy.after, AttackGraph.new] at h

/-- A campaign under another id is not touched. -/
theorem coherent_insert_iff {cid : String} {c : Campaign} {ms : List (GraphAlert × AttackTag)}
    {campaigns : TreeMap String Campaign} {m : Members}
    (h : ∀ k (d : Campaign), campaigns[k]? = some d → d.Coherent (m k)) :
    (∀ k (d : Campaign), (campaigns.insert cid c)[k]? = some d → d.Coherent (Function.update m cid ms k)) ↔
      c.Coherent ms := by
  constructor
  · intro hall
    simpa using hall cid c TreeMap.getElem?_insert_self
  · intro hc k d hd
    rw [TreeMap.getElem?_insert] at hd
    split_ifs at hd with hk
    · cases hd
      rw [← Std.compare_eq_iff_eq.1 hk, Function.update_self]
      exact hc
    · rw [Function.update_of_ne fun heq => hk (Std.compare_eq_iff_eq.2 heq.symm)]
      exact h k d hd

theorem coherent_step_iff (i : Input) (h : Coherent window inputs) :
    Coherent window (inputs ++ [i]) ↔ FoundsQuietly (after window inputs) i := by
  unfold Coherent
  rw [after_concat, members_concat]
  cases i with
  | evictExpired now => exact iff_of_true (fun cid c hc => h cid c (campaigns_evictExpired hc)) trivial
  | ingest alert tag now later =>
    rcases ingest_cases (after window inputs) alert tag now later with
      ⟨cid, c, hjoins, hout, hcampaigns⟩ | ⟨cid, hfounds, hout, hcampaigns⟩ | ⟨hnot, hout, hcampaigns⟩
    · simp only [step, hout, hcampaigns, Members.record]
      rw [coherent_insert_iff h]
      exact iff_of_true (h cid c (campaigns_of_joins hjoins)).absorb fun cid' hf => by simp [hf.1] at hjoins
    · simp only [step, hout, hcampaigns, Members.record]
      rw [coherent_insert_iff h, Campaign.coherent_new_iff]
      refine ⟨fun hquiet cid' hf => hquiet, fun hquiet => hquiet cid hfounds⟩
    · refine iff_of_true (fun k d hd => ?_) fun cid hf => absurd hf (hnot cid)
      simp only [step, hcampaigns] at hd
      have hrecord : (members window inputs).record (.ingest alert tag now later)
          (step (after window inputs) (.ingest alert tag now later)).2 = members window inputs := by
        simp only [step]
        revert hout
        cases ((after window inputs).ingest alert tag now later).2 <;> intro hout <;> first | rfl | cases hout
      rw [hrecord]
      exact h k d hd

/-- **Campaigns are coherent** at every point of a run exactly if every campaign is founded by an alert of a phase below
4 and of distinct tactics. -/
theorem campaigns_coherent_iff (window : UInt64) (inputs : List Input) :
    (∀ p, p <+: inputs → Coherent window p) ↔
      ∀ p i, p ++ [i] <+: inputs → FoundsQuietly (after window p) i :=
  List.forall_prefix_iff coherent_nil (fun _ i h => coherent_step_iff i h) inputs

/-- A campaign that starts with an exfiltration is of low severity. -/
theorem exfiltration_low : ¬ ∀ (window : UInt64) (inputs p : List Input), p <+: inputs → Coherent window p := by
  intro h
  have hc := h 3600 [.ingest ⟨"a1", 0, "exfil", some "10.0.0.5", none⟩ ⟨[⟨"T1041", .exfiltration⟩], some 13⟩ 0 0] _
    List.prefix_rfl "CAM-a1" _ TreeMap.getElem?_insert_self
  exact absurd hc.severity (by decide +kernel)

end Runs

end ThorFirewall.Graph
