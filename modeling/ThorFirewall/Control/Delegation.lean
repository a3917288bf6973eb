import Mathlib
import ThorFirewall.Lib.Text

/-!
# Delegated commands (`delegation.rs`)

An operator's role, as its token names it, may execute some commands on some groups of agents. Both the role and the
command are read from texts, with a default for the texts that are not known: a manager of no groups, and the command
that reads the status.

- `canExecute_groupManager`: what a manager of groups may execute;
- `fromStr_of_unknown`: an unknown action is authorised as `get_status`;
- `approved_cases`: what an approval says about the role, the action and the group.
-/

namespace ThorFirewall.Delegation

/-! ## Commands -/

inductive CommandAction
  | quarantineProcess
  | releaseProcess
  | blockIp
  | unblockIp
  | updatePolicy
  | deletePolicy
  | getStatus
  | viewAlerts
  | submitFeedback
  | systemShutdown
  | rotateSigningKey
  | manageOperators
  deriving DecidableEq, Repr

def CommandAction.fromStr : String → CommandAction
  | "quarantine_process" => .quarantineProcess
  | "release_process" => .releaseProcess
  | "block_ip" => .blockIp
  | "unblock_ip" => .unblockIp
  | "update_policy" => .updatePolicy
  | "delete_policy" => .deletePolicy
  | "get_status" => .getStatus
  | "view_alerts" => .viewAlerts
  | "submit_feedback" => .submitFeedback
  | "system_shutdown" => .systemShutdown
  | "rotate_signing_key" => .rotateSigningKey
  | "manage_operators" => .manageOperators
  | _ => .getStatus

/-! ## Roles -/

inductive OperatorRole
  | superAdmin
  | socAdmin
  | socAnalyst
  | agentGroupManager (groupIds : List String)
  deriving DecidableEq, Repr

/-- `group:`. -/
def groupPrefix : List Char := ['g', 'r', 'o', 'u', 'p', ':']

/-- The groups that a role text lists, none if it is not such a list. -/
def groupsOf (other : String) : List String :=
  if groupPrefix.isPrefixOf other.toList then ((other.toList.drop groupPrefix.length).splitOn ',').map String.ofList
  else []

def OperatorRole.fromStr : String → OperatorRole
  | "super_admin" => .superAdmin
  | "soc_admin" => .socAdmin
  | "soc_analyst" => .socAnalyst
  | other => .agentGroupManager (groupsOf other)

def OperatorRole.canExecute (role : OperatorRole) (action : CommandAction) (agentGroup : Option String) : Bool :=
  match role with
  | .superAdmin => true
  | .socAdmin =>
    match action with
    | .systemShutdown | .rotateSigningKey => false
    | _ => true
  | .socAnalyst =>
    match action with
    | .getStatus | .submitFeedback | .viewAlerts => true
    | _ => false
  | .agentGroupManager groupIds =>
    let inGroup := (agentGroup.map fun g => groupIds.any (· == g)).getD false
    inGroup &&
      match action with
      | .quarantineProcess | .releaseProcess | .blockIp | .updatePolicy | .getStatus => true
      | _ => false

/-! ## Validation -/

inductive DelegationResult
  | approved (operatorId action agentId : String)
  | denied (reason : String)
  deriving DecidableEq, Repr

def DelegationResult.isApproved : DelegationResult → Bool
  | .approved _ _ _ => true
  | .denied _ => false

def DelegationResult.denialReason : DelegationResult → Option String
  | .denied reason => some reason
  | .approved _ _ _ => none

def validate (operatorId operatorRole action targetAgentId : String) (targetAgentGroup : Option String) :
    DelegationResult :=
  let role := OperatorRole.fromStr operatorRole
  let cmd := CommandAction.fromStr action
  if role.canExecute cmd targetAgentGroup then .approved operatorId action targetAgentId
  else .denied ("Role '" ++ operatorRole ++ "' is not authorized to execute '" ++ action ++ "' on agent '" ++
    targetAgentId ++ "'")

/-! ## Known texts -/

/-- The names that `CommandAction::from_str` lists. -/
def commandNames : List String :=
  ["quarantine_process", "release_process", "block_ip", "unblock_ip", "update_policy", "delete_policy", "get_status",
    "view_alerts", "submit_feedback", "system_shutdown", "rotate_signing_key", "manage_operators"]

/-- The commands of an analyst. -/
def readOnlyNames : List String := ["get_status", "view_alerts", "submit_feedback"]

/-- The names of the three fixed roles. -/
def fixedRoles : List String := ["super_admin", "soc_admin", "soc_analyst"]

theorem fromStr_of_unknown {action : String} (h : action ∉ commandNames) :
    CommandAction.fromStr action = .getStatus := by
  simp only [commandNames, List.mem_cons, List.not_mem_nil, or_false, not_or] at h
  unfold CommandAction.fromStr
  split <;> simp_all

theorem fromStr_of_not_fixed {role : String} (h : role ∉ fixedRoles) :
    OperatorRole.fromStr role = .agentGroupManager (groupsOf role) := by
  simp only [fixedRoles, List.mem_cons, List.not_mem_nil, or_false, not_or] at h
  unfold OperatorRole.fromStr
  split <;> simp_all

/-- The commands that read are those of these names, and those of unknown ones. -/
theorem readOnly_of_analyst {action : String} {agentGroup : Option String}
    (h : OperatorRole.socAnalyst.canExecute (.fromStr action) agentGroup = true) :
    action ∈ readOnlyNames ∨ action ∉ commandNames := by
  by_cases hknown : action ∈ commandNames
  · left
    simp only [commandNames, List.mem_cons, List.not_mem_nil, or_false] at hknown
    rcases hknown with rfl | rfl | rfl | rfl | rfl | rfl | rfl | rfl | rfl | rfl | rfl | rfl <;>
      cases h <;> decide
  · exact Or.inr hknown

/-! ## Groups -/

/-- A role text lists these groups: `group:g1,...,gk`. -/
def ListsGroups (role : String) (groups : List String) : Prop :=
  groups ≠ [] ∧ (∀ g ∈ groups, ',' ∉ g.toList) ∧
    role.toList = groupPrefix ++ [','].intercalate (groups.map String.toList)

theorem listsGroups_of_mem {role g : String} (h : g ∈ groupsOf role) : ListsGroups role (groupsOf role) := by
  unfold groupsOf at h ⊢
  split_ifs at h ⊢ with hpre
  · obtain ⟨rest, hrest⟩ := List.isPrefixOf_iff_prefix.1 hpre
    rw [← hrest, List.drop_left] at h ⊢
    refine ⟨by simp, ?_, ?_⟩
    · rintro _ hg
      obtain ⟨l, hl, rfl⟩ := List.mem_map.1 hg
      rw [String.toList_ofList]
      exact Text.not_mem_of_mem_splitOn hl
    · rw [List.map_map, show String.toList ∘ String.ofList = id from funext fun l => String.toList_ofList, List.map_id,
        List.intercalate_splitOn]
      exact hrest.symm
  · cases h

/-- What a manager of groups may execute, and where. -/
theorem canExecute_groupManager {groupIds : List String} {action : CommandAction} {agentGroup : Option String}
    (h : (OperatorRole.agentGroupManager groupIds).canExecute action agentGroup = true) :
    (∃ g ∈ groupIds, agentGroup = some g) ∧
      action ∈ [.quarantineProcess, .releaseProcess, .blockIp, .updatePolicy, .getStatus] := by
  simp only [OperatorRole.canExecute, Bool.and_eq_true] at h
  obtain ⟨hgroup, haction⟩ := h
  constructor
  · cases agentGroup with
    | none => cases hgroup
    | some g =>
      simp only [Option.map_some, Option.getD_some, List.any_eq_true, beq_iff_eq] at hgroup
      obtain ⟨gid, hmem, rfl⟩ := hgroup
      exact ⟨gid, hmem, rfl⟩
  · revert haction
    cases action <;> decide

/-! ## Approvals -/

theorem isApproved_iff {operatorId operatorRole action targetAgentId : String} {targetAgentGroup : Option String} :
    (validate operatorId operatorRole action targetAgentId targetAgentGroup).isApproved = true ↔
      (OperatorRole.fromStr operatorRole).canExecute (.fromStr action) targetAgentGroup = true := by
  simp only [validate]
  split_ifs with h <;> simp [DelegationResult.isApproved, h]

/-- **What an approval says.** The action is known, or it is approved as `get_status` is; a shutdown or a new signing
key takes a super admin; an analyst reads; and a role that is not one of the three lists the group of the target. -/
theorem approved_cases (operatorId operatorRole action targetAgentId : String) (targetAgentGroup : Option String)
    (h : (validate operatorId operatorRole action targetAgentId targetAgentGroup).isApproved = true) :
    (action ∈ commandNames ∨
      (validate operatorId operatorRole "get_status" targetAgentId targetAgentGroup).isApproved = true) ∧
    (action ∈ ["system_shutdown", "rotate_signing_key"] → operatorRole = "super_admin") ∧
    (operatorRole = "soc_analyst" → action ∈ readOnlyNames ∨ action ∉ commandNames) ∧
    (operatorRole ∉ fixedRoles → ∃ groups, ListsGroups operatorRole groups ∧
      ∃ g ∈ groups, targetAgentGroup = some g) := by
  simp only [isApproved_iff] at h ⊢
  refine ⟨?_, fun haction => ?_, ?_, fun hrole => ?_⟩
  · by_cases hknown : action ∈ commandNames
    · exact Or.inl hknown
    · right
      rwa [fromStr_of_unknown hknown] at h
  · by_contra hsuper
    by_cases hfixed : operatorRole ∈ fixedRoles
    · simp only [fixedRoles, List.mem_cons, List.not_mem_nil, or_false] at hfixed haction
      obtain rfl | rfl | rfl := hfixed
      · exact hsuper rfl
      all_goals
        obtain rfl | rfl := haction <;> cases h
    · rw [fromStr_of_not_fixed hfixed] at h
      have hcommand := (canExecute_groupManager h).2
      simp only [List.mem_cons, List.not_mem_nil, or_false] at haction
      obtain rfl | rfl := haction <;> revert hcommand <;> decide
  · rintro rfl
    exact readOnly_of_analyst h
  · rw [fromStr_of_not_fixed hrole] at h
    obtain ⟨⟨g, hmem, hgroup⟩, -⟩ := canExecute_groupManager h
    exact ⟨_, listsGroups_of_mem hmem, g, hmem, hgroup⟩

theorem approved_cases_group :
    (validate "gm1" "group:group-a" "block_ip" "agent-1" (some "group-a")).isApproved = true ∧
      ∃ groups, ListsGroups "group:group-a" groups ∧ ∃ g ∈ groups, some "group-a" = some g := by
  have happroved : (validate "gm1" "group:group-a" "block_ip" "agent-1" (some "group-a")).isApproved = true := by
    decide +kernel
  exact ⟨happroved, (approved_cases _ _ _ _ _ happroved).2.2.2 (by decide)⟩

/-- An analyst is approved for an action nobody knows. -/
theorem unknown_action_approved : ¬ ∀ (operatorId operatorRole action targetAgentId : String)
    (targetAgentGroup : Option String),
    (validate operatorId operatorRole action targetAgentId targetAgentGroup).isApproved = true →
    action ∈ commandNames ∧
    (action ∈ ["system_shutdown", "rotate_signing_key", "manage_operators"] → operatorRole = "super_admin") ∧
    (operatorRole = "soc_analyst" → action ∈ readOnlyNames) ∧
    (operatorRole ∉ fixedRoles → ∃ groups, ListsGroups operatorRole groups ∧
      ∃ g ∈ groups, targetAgentGroup = some g) := by
  intro h
  have hall := h "analyst1" "soc_analyst" "quarantine_proces" "agent-1" none (by decide +kernel)
  exact absurd hall.1 (by decide)

end ThorFirewall.Delegation
