import ThorFirewall.Micro.EventForwarder

/-!
# The decisions of the micro-agents (`thor-agent-net`, `thor-agent-srv`, `thor-agent-web`)

Each agent turns a score into an action and says who decided: the agent itself (`"autonomous"`), the SOC inbox
(`"escalated"`), or nobody (`"logged"`). The thresholds come from the agent's policy. Scores are of any type with an
order that can be tested; the text of a score is a parameter.

- `Net.makeDecision_autonomous`, `Srv.makeDecision_action`, `Web.makeDecision_autonomous`: when an agent acts by itself;
- `decisions_respect_thresholds`: the three together.
-/

namespace ThorFirewall.Micro

/-- The action, who decided, and why. -/
structure DecisionResult where
  action : String
  decision : String
  reason : String
  deriving DecidableEq

variable {F : Type} [LE F] [DecidableLE F]

/-! ## The network agent -/

/-- What the decision reads of the policy. -/
structure NetworkAgentPolicy (F : Type) where
  autoBlockThreshold : F
  autoRatelimitThreshold : F

namespace Net

variable [OfScientific F] (fmt : F → String)

def xaiSummary (topFeatures : List (String × F)) : String :=
  if topFeatures = [] then "Heuristic detection"
  else String.intercalate ", " ((topFeatures.take 3).map fun feature => feature.1 ++ "=" ++ fmt feature.2)

def makeDecision (score : F) (policy : NetworkAgentPolicy F) (topFeatures : List (String × F))
    (isC2 ppsExceeded : Bool) : DecisionResult :=
  if isC2 ∨ policy.autoBlockThreshold ≤ score then
    { action := "XDP_DROP", decision := "autonomous",
      reason := "confidence=" ++ fmt score ++ " >= threshold=" ++ fmt policy.autoBlockThreshold ++ ", signals=[" ++
        xaiSummary fmt topFeatures ++ "]" }
  else if ppsExceeded ∧ policy.autoRatelimitThreshold ≤ score then
    { action := "RATE_LIMIT", decision := "autonomous", reason := "pps_exceeded, confidence=" ++ fmt score }
  else if 0.50 ≤ score then
    { action := "PENDING_REVIEW", decision := "escalated",
      reason := "confidence=" ++ fmt score ++ " < threshold=" ++ fmt policy.autoBlockThreshold ++
        ", escalated to SOC inbox" }
  else
    { action := "ALLOW", decision := "logged", reason := "score=" ++ fmt score ++ " below alert threshold" }

section

variable (score : F) (policy : NetworkAgentPolicy F) (topFeatures : List (String × F)) (isC2 ppsExceeded : Bool)

theorem makeDecision_xdpDrop :
    (makeDecision fmt score policy topFeatures isC2 ppsExceeded).action = "XDP_DROP" ↔
      isC2 ∨ policy.autoBlockThreshold ≤ score := by
  unfold makeDecision
  split_ifs with hblock hlimit <;> simp [hblock]

theorem makeDecision_rateLimit :
    (makeDecision fmt score policy topFeatures isC2 ppsExceeded).action = "RATE_LIMIT" ↔
      ¬ (isC2 ∨ policy.autoBlockThreshold ≤ score) ∧ ppsExceeded ∧ policy.autoRatelimitThreshold ≤ score := by
  unfold makeDecision
  split_ifs with hblock hlimit <;> simp_all

theorem makeDecision_autonomous :
    (makeDecision fmt score policy topFeatures isC2 ppsExceeded).decision = "autonomous" ↔
      (makeDecision fmt score policy topFeatures isC2 ppsExceeded).action ∈ ["XDP_DROP", "RATE_LIMIT"] := by
  unfold makeDecision
  split_ifs <;> simp

theorem makeDecision_escalated :
    (makeDecision fmt score policy topFeatures isC2 ppsExceeded).decision = "escalated" ↔
      0.50 ≤ score ∧ ¬ (isC2 ∨ policy.autoBlockThreshold ≤ score) ∧
        ¬ (ppsExceeded ∧ policy.autoRatelimitThreshold ≤ score) := by
  unfold makeDecision
  split_ifs with hblock hlimit halert <;> simp_all

end

end Net

/-! ## The server agent -/

/-- What the decision reads of the policy, and the threshold for quarantines. -/
structure SrvAgentPolicy (F : Type) where
  autoKillThreshold : F
  autoQuarantineThreshold : F
  alertThreshold : F

namespace Srv

/-- The action that an incident calls for. -/
def proposedAction : IncidentType → String
  | .processHollowing | .privilegeEscalation | .cryptoMiner | .reverseShell => "PROCESS_KILL"
  | .fileIntegrityViolation | .rootkitIndicator => "FILE_QUARANTINE"
  | _ => "ALERT"

variable (fmt : F → String)

def makeDecision (score : F) (incident : IncidentType) (policy : SrvAgentPolicy F) : DecisionResult :=
  if policy.autoKillThreshold ≤ score then
    { action := proposedAction incident, decision := "autonomous",
      reason := "confidence=" ++ fmt score ++ " >= threshold=" ++ fmt policy.autoKillThreshold }
  else if policy.alertThreshold ≤ score then
    { action := "PENDING_REVIEW", decision := "escalated",
      reason := "confidence=" ++ fmt score ++ " < threshold=" ++ fmt policy.autoKillThreshold ++ ", escalated to SOC" }
  else
    { action := "ALERT", decision := "logged", reason := "score=" ++ fmt score ++ " — logged for monitoring" }

section

variable (score : F) (incident : IncidentType) (policy : SrvAgentPolicy F)

theorem makeDecision_processKill :
    (makeDecision fmt score incident policy).action = "PROCESS_KILL" ↔
      policy.autoKillThreshold ≤ score ∧ proposedAction incident = "PROCESS_KILL" := by
  unfold makeDecision
  split_ifs with hkill <;> simp [hkill]

theorem makeDecision_autonomous :
    (makeDecision fmt score incident policy).decision = "autonomous" ↔ policy.autoKillThreshold ≤ score := by
  unfold makeDecision
  split_ifs with hkill <;> simp [hkill]

theorem makeDecision_escalated :
    (makeDecision fmt score incident policy).decision = "escalated" ↔
      policy.alertThreshold ≤ score ∧ ¬ policy.autoKillThreshold ≤ score := by
  unfold makeDecision
  split_ifs <;> simp [*]

end

end Srv

/-! ## The web agent -/

/-- What the decision reads of the policy. -/
structure WebAgentPolicy (F : Type) where
  autoBlockThreshold : F
  alertThreshold : F

namespace Web

/-- The action, and who decided. -/
def makeDecision (score : F) (policy : WebAgentPolicy F) (rateLimited : Bool) : String × String :=
  if rateLimited then ("RATE_LIMIT", "autonomous")
  else if policy.autoBlockThreshold ≤ score then ("WAF_BLOCK", "autonomous")
  else if policy.alertThreshold ≤ score then ("PENDING_REVIEW", "escalated")
  else ("ALLOW", "logged")

variable (score : F) (policy : WebAgentPolicy F) (rateLimited : Bool)

theorem makeDecision_wafBlock :
    (makeDecision score policy rateLimited).1 = "WAF_BLOCK" ↔ ¬ rateLimited ∧ policy.autoBlockThreshold ≤ score := by
  unfold makeDecision
  split_ifs <;> simp [*]

theorem makeDecision_rateLimit : (makeDecision score policy rateLimited).1 = "RATE_LIMIT" ↔ rateLimited := by
  unfold makeDecision
  split_ifs <;> simp [*]

theorem makeDecision_autonomous :
    (makeDecision score policy rateLimited).2 = "autonomous" ↔
      (makeDecision score policy rateLimited).1 ∈ ["WAF_BLOCK", "RATE_LIMIT"] := by
  unfold makeDecision
  split_ifs <;> simp

theorem makeDecision_escalated :
    (makeDecision score policy rateLimited).2 = "escalated" ↔
      ¬ rateLimited ∧ policy.alertThreshold ≤ score ∧ ¬ policy.autoBlockThreshold ≤ score := by
  unfold makeDecision
  split_ifs <;> simp [*]

end Web

/-! ## The three agents -/

/-- A command-and-control domain is dropped whatever the score. -/
theorem c2_dropped_below_threshold : ¬ ∀ (fmt : ℚ → String) (score : ℚ) (policy : NetworkAgentPolicy ℚ)
    (topFeatures : List (String × ℚ)) (isC2 ppsExceeded : Bool),
    (Net.makeDecision fmt score policy topFeatures isC2 ppsExceeded).action = "XDP_DROP" →
      policy.autoBlockThreshold ≤ score := by
  intro h
  have := h (fun _ => "") 0 ⟨9 / 10, 3 / 4⟩ [] true false (by decide)
  norm_num at this

/-- **Thresholds.** The network agent drops traffic only at its block threshold or for a command-and-control domain, and
limits rates only at the threshold for that and above the packet rate. The server agent kills processes only at its kill
threshold. The web agent blocks only at its block threshold. What is between the alert threshold (for the network agent,
0.50) and the action threshold is escalated, unless one of the side signals decides. -/
theorem decisions_respect_thresholds [OfScientific F] (fmt : F → String) (score : F) :
    (∀ policy topFeatures isC2 ppsExceeded,
      let result := Net.makeDecision fmt score policy topFeatures isC2 ppsExceeded
      (result.action = "XDP_DROP" ↔ isC2 ∨ policy.autoBlockThreshold ≤ score) ∧
      (result.action = "RATE_LIMIT" → ppsExceeded ∧ policy.autoRatelimitThreshold ≤ score) ∧
      (result.decision = "autonomous" → result.action ∈ ["XDP_DROP", "RATE_LIMIT"]) ∧
      (0.50 ≤ score → ¬ policy.autoBlockThreshold ≤ score → ¬ isC2 →
        ¬ (ppsExceeded ∧ policy.autoRatelimitThreshold ≤ score) → result.decision = "escalated")) ∧
    (∀ incident policy,
      let result := Srv.makeDecision fmt score incident policy
      (result.action = "PROCESS_KILL" → policy.autoKillThreshold ≤ score) ∧
      (policy.alertThreshold ≤ score → ¬ policy.autoKillThreshold ≤ score →
        (Srv.proposedAction incident = "FILE_QUARANTINE" → ¬ policy.autoQuarantineThreshold ≤ score) →
        result.decision = "escalated")) ∧
    (∀ policy rateLimited,
      let result := Web.makeDecision score policy rateLimited
      (result.1 = "WAF_BLOCK" → policy.autoBlockThreshold ≤ score) ∧
      (result.1 = "RATE_LIMIT" → rateLimited) ∧
      (result.2 = "autonomous" → result.1 ∈ ["WAF_BLOCK", "RATE_LIMIT"]) ∧
      (policy.alertThreshold ≤ score → ¬ policy.autoBlockThreshold ≤ score → ¬ rateLimited →
        result.2 = "escalated")) := by
  refine ⟨fun policy topFeatures isC2 ppsExceeded => ⟨?_, ?_, ?_, ?_⟩, fun incident policy => ⟨?_, ?_⟩,
    fun policy rateLimited => ⟨?_, ?_, ?_, ?_⟩⟩
  · exact Net.makeDecision_xdpDrop fmt score policy topFeatures isC2 ppsExceeded
  · intro h
    exact ((Net.makeDecision_rateLimit fmt score policy topFeatures isC2 ppsExceeded).1 h).2
  · exact (Net.makeDecision_autonomous fmt score policy topFeatures isC2 ppsExceeded).1
  · intro halert hblock hc2 hlimit
    exact (Net.makeDecision_escalated fmt score policy topFeatures isC2 ppsExceeded).2
      ⟨halert, not_or.2 ⟨hc2, hblock⟩, hlimit⟩
  · intro h
    exact ((Srv.makeDecision_processKill fmt score incident policy).1 h).1
  · intro halert hkill _
    exact (Srv.makeDecision_escalated fmt score incident policy).2 ⟨halert, hkill⟩
  · intro h
    exact ((Web.makeDecision_wafBlock score policy rateLimited).1 h).2
  · exact (Web.makeDecision_rateLimit score policy rateLimited).1
  · exact (Web.makeDecision_autonomous score policy rateLimited).1
  · intro halert hblock hlimited
    exact (Web.makeDecision_escalated score policy rateLimited).2 ⟨hlimited, halert, hblock⟩

end ThorFirewall.Micro
