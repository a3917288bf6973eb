import Mathlib
import ThorFirewall.Control.Signing

/-!
# Who gets a resolution directive (`grpc.rs`)

Every agent has a stream of resolution directives, filtered from one broadcast: a directive passes when the agent id
occurs in the resolution id, or when the resolution id is empty. So a directive built for one agent also reaches every
agent whose id is a part of the resolution id (`delivered_to_addressee_iff`). Where that does not happen, the stream
of an agent is exactly the directives built for it, signed (`stream_eq_addressed`).
-/

namespace ThorFirewall.Control

structure QuarantineResolution where
  resolutionId : String
  alertId : String
  targetPidOrIp : String
  action : Int32
  reason : String
  operatorId : String
  timestamp : Int64
  signature : Bytes
  applyWhitelist : Bool
  whitelistTtlS : Int64
  deriving DecidableEq

/-- The errors of a broadcast receiver. -/
inductive RecvError
  | closed
  | lagged (n : ℕ)

/-- `str::contains`. -/
def Occurs (part text : String) : Prop := part.toList <:+: text.toList

instance (part text : String) : Decidable (Occurs part text) := inferInstanceAs (Decidable (_ <:+: _))

/-- The signed fields, as `process_resolution` takes them. -/
def QuarantineResolution.directive (r : QuarantineResolution) : Resolution :=
  { resolutionId := r.resolutionId, alertId := r.alertId, target := r.targetPidOrIp, action := r.action,
    operatorId := r.operatorId, signature := r.signature }

/-- Sign the directive if there is a key. -/
def signResolution (signingKey : Option Ed25519) (r : QuarantineResolution) : QuarantineResolution :=
  match signingKey with
  | some key => { r with signature := key.toBytes (key.sign (resolutionData r.directive)) }
  | none => r

section Stream

variable (signingKey : Option Ed25519) (agentId : String)

/-- What the stream of an agent makes of one result of the broadcast receiver. -/
def filterResolution : Except RecvError QuarantineResolution → Option QuarantineResolution
  | .ok r => if Occurs agentId r.resolutionId ∨ r.resolutionId = "" then some (signResolution signingKey r) else none
  | .error (.lagged _) => none
  | .error _ => none

/-- The stream of an agent. -/
def streamResolutionCommands (results : List (Except RecvError QuarantineResolution)) : List QuarantineResolution :=
  results.filterMap (filterResolution signingKey agentId)

end Stream

/-! ## Directives and their addressees -/

/-- A directive whose resolution id was built for the agent `addressee`: it contains its id. -/
structure Addressed where
  resolution : QuarantineResolution
  addressee : String
  built : Occurs addressee resolution.resolutionId

/-- No other agent of the fleet is named by the resolution id, which is not empty if there are others. -/
def Addressed.Unambiguous (a : Addressed) (fleet : Set String) : Prop :=
  ∀ agentId ∈ fleet, agentId ≠ a.addressee →
    ¬ Occurs agentId a.resolution.resolutionId ∧ a.resolution.resolutionId ≠ ""

theorem filterResolution_isSome_iff (signingKey : Option Ed25519) (agentId : String) (r : QuarantineResolution) :
    (filterResolution signingKey agentId (.ok r)).isSome ↔ Occurs agentId r.resolutionId ∨ r.resolutionId = "" := by
  simp only [filterResolution]
  split_ifs with h <;> simp [h]

/-- A directive is delivered to its addressee. -/
theorem filterResolution_addressee (signingKey : Option Ed25519) (a : Addressed) :
    filterResolution signingKey a.addressee (.ok a.resolution) = some (signResolution signingKey a.resolution) :=
  if_pos (Or.inl a.built)

/-- A directive is delivered to no other agent of the fleet exactly when its resolution id is unambiguous. -/
theorem delivered_to_addressee_iff (signingKey : Option Ed25519) (fleet : Set String) (a : Addressed) :
    (∀ agentId ∈ fleet, (filterResolution signingKey agentId (.ok a.resolution)).isSome → agentId = a.addressee) ↔
      a.Unambiguous fleet := by
  simp only [filterResolution_isSome_iff]
  constructor
  · intro h agentId hf hne
    exact ⟨fun ho => hne (h agentId hf (Or.inl ho)), fun he => hne (h agentId hf (Or.inr he))⟩
  · intro h agentId hf hd
    by_contra hne
    obtain ⟨h1, h2⟩ := h agentId hf hne
    exact hd.elim h1 h2

/-- What an agent is to get of a result of its receiver. -/
def builtFor (agentId : String) : Except RecvError Addressed → Option Addressed
  | .ok a => if a.addressee = agentId then some a else none
  | .error _ => none

/-- **The stream of an agent**: if all directives are unambiguous it is what was built for the agent, signed and in
order. -/
theorem stream_eq_addressed (signingKey : Option Ed25519) {fleet : Set String} {agentId : String}
    (hf : agentId ∈ fleet) (results : List (Except RecvError Addressed))
    (h : ∀ a, .ok a ∈ results → a.Unambiguous fleet) :
    streamResolutionCommands signingKey agentId (results.map fun x => x.map (·.resolution)) =
      (results.filterMap (builtFor agentId)).map fun a => signResolution signingKey a.resolution := by
  induction results with
  | nil => rfl
  | cons x results ih =>
    replace ih := ih fun a ha => h a (List.mem_cons_of_mem _ ha)
    rcases x with (_ | _) | a
    · exact ih
    · exact ih
    have hraw : (Except.ok a : Except RecvError Addressed).map (·.resolution) = .ok a.resolution := rfl
    unfold streamResolutionCommands at ih ⊢
    rw [List.map_cons, hraw]
    by_cases ha : a.addressee = agentId
    · have hd := filterResolution_addressee signingKey a
      have hb : builtFor agentId (.ok a) = some a := if_pos ha
      rw [ha] at hd
      rw [List.filterMap_cons_some hd, List.filterMap_cons_some hb, List.map_cons, ih]
    · obtain ⟨h1, h2⟩ := h a List.mem_cons_self agentId hf fun he => ha he.symm
      have hd : filterResolution signingKey agentId (.ok a.resolution) = none := if_neg fun hc => hc.elim h1 h2
      have hb : builtFor agentId (.ok a) = none := if_neg ha
      rw [List.filterMap_cons_none hd, List.filterMap_cons_none hb, ih]

/-- A directive for `agent-10` also reaches `agent-1`. -/
theorem delivered_to_other : ¬ ∀ (signingKey : Option Ed25519) (fleet : Set String) (a : Addressed),
    ∀ agentId ∈ fleet, (filterResolution signingKey agentId (.ok a.resolution)).isSome → agentId = a.addressee := by
  intro h
  let r : QuarantineResolution := ⟨"agent-10/7f3c", "alert-1", "pid:1234", 0, "", "admin", 0, [], false, 0⟩
  let a : Addressed := ⟨r, "agent-10", by decide +kernel⟩
  have heq := h none {"agent-1", "agent-10"} a "agent-1" (Or.inl rfl) (by decide +kernel)
  exact absurd heq (by decide)

end ThorFirewall.Control
