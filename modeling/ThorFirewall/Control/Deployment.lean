import Mathlib
import ThorFirewall.Control.PhasedGate

/-!
# What a rollout leaves behind

Two things a complete rollout should mean, over all runs of the canary rollout controller.

* The policy a rollback reverts to has been deployed to everyone. `begin_rollout` saves whatever policy was under way,
  so this holds exactly in the runs that begin a rollout only when none has begun or the last one is complete
  (`rollback_target_iff`).
* In phase Full every registered agent runs the new policy. The set of agents is computed when the phase is reached,
  so this holds exactly in the runs that register no new agent in phase Full (`full_covers_iff`).
-/

namespace ThorFirewall.CanaryRollout

open Controller

variable {t₀ : ℕ} {run : List Event}

/-! ## The rollback target -/

/-- The policy was under rollout at a moment of the run when the phase was Full. -/
def Deployed (t₀ : ℕ) (run : List Event) (p : PolicyVersion) : Prop :=
  ∃ pre, pre <+: run ∧ (after t₀ pre).newPolicy = some p ∧ (after t₀ pre).currentPhase = .full

/-- The policy a rollback would revert to, if there is one, has been deployed. -/
def StableDeployed (t₀ : ℕ) (run : List Event) : Prop :=
  ∀ p, (after t₀ run).stablePolicy = some p → Deployed t₀ run p

/-- The phase was Full at a moment of the rollout that is under way. -/
def ReachedFull (t₀ : ℕ) (run : List Event) : Prop :=
  ∃ pre mid, pre ++ mid = run ∧ (∀ e ∈ mid, e.2.isBegin = false) ∧ (after t₀ pre).currentPhase = .full

/-- A `begin_rollout` is made when no rollout has begun or the last one is complete. -/
def Ready (t₀ : ℕ) (pre : List Event) (e : Event) : Prop :=
  e.2.isBegin = true → (after t₀ pre).currentPhase = .idle ∨ (after t₀ pre).currentPhase = .full

theorem Deployed.append {p : PolicyVersion} (h : Deployed t₀ run p) (e : Event) : Deployed t₀ (run ++ [e]) p := by
  obtain ⟨pre, hp, hpolicy, hfull⟩ := h
  exact ⟨pre, hp.trans (List.prefix_append _ _), hpolicy, hfull⟩

/-- The policies of a step that begins no rollout. -/
theorem step_policies {c : Controller} {e : Event} (hb : e.2.isBegin = false) :
    (step c e).1.newPolicy = c.newPolicy ∧ (step c e).1.stablePolicy = c.stablePolicy := by
  generalize hc' : (step c e).1 = c'
  have hs := step_cases c e
  rw [hc'] at hs
  cases hs with
  | quiet _ _ _ hq =>
    rw [hq]
    exact ⟨rfl, rfl⟩
  | begins p he => simp [he, Call.isBegin] at hb
  | rollback => exact ⟨rfl, rfl⟩
  | advance => exact ⟨rfl, rfl⟩

theorem step_begin {c : Controller} {e : Event} (hb : e.2.isBegin = true) :
    ∃ p, (step c e).1 = c.beginRollout e.1 p := by
  obtain ⟨now, call⟩ := e
  cases call <;> simp [Call.isBegin] at hb
  exact ⟨_, rfl⟩

/-- A complete rollout stays complete until the next one. -/
theorem step_full {c : Controller} {e : Event} (h : c.currentPhase = .full) (hb : e.2.isBegin = false) :
    (step c e).1.currentPhase = .full := by
  rcases step_moves hb with hs | hs | ⟨⟨q, hq⟩, -⟩
  · rw [hs, h]
  · rw [h] at hs
    cases hs
  · rw [h] at hq
    cases hq

theorem reachedFull_iff : ReachedFull t₀ run ↔ (after t₀ run).currentPhase = .full := by
  constructor
  · rintro ⟨pre, mid, rfl, hb, hfull⟩
    induction mid using List.reverseRecOn with
    | nil => simpa using hfull
    | append_singleton mid e ih =>
      rw [← List.append_assoc, after_concat]
      exact step_full (ih fun e' he' => hb e' (by simp [he'])) (hb e (by simp))
  · intro h
    exact ⟨run, [], by simp, by simp, h⟩

/-- No policy is under way exactly before the first rollout. -/
theorem newPolicy_eq_none_iff (t₀ : ℕ) (run : List Event) :
    (after t₀ run).newPolicy = none ↔ (after t₀ run).currentPhase = .idle := by
  refine Mealy.after_inv (P := fun c : Controller => c.newPolicy = none ↔ c.currentPhase = .idle) (by simp [new]) ?_ run
  intro c e h
  cases hb : e.2.isBegin with
  | true =>
    obtain ⟨p, hp⟩ := @step_begin c e hb
    simp [hp, beginRollout, applyCanaryPhase]
  | false =>
    rw [(step_policies hb).1, h]
    rcases @step_moves c e hb with hs | hs | ⟨⟨q, hq⟩, reason, hs⟩
    · rw [hs]
    · constructor <;> intro hi
      · rw [hi] at hs
        cases hs
      · rw [hi, advances_iff] at hs
        obtain ⟨f, hf⟩ := hs
        cases hp : c.currentPhase <;> simp [hp, nextPhase] at hf
    · constructor <;> intro hi
      · rw [hi] at hq
        cases hq
      · rw [hi] at hs
        cases hs

/-- One more event: only a `begin_rollout` can break it. -/
theorem StableDeployed.concat {e : Event} (h : StableDeployed t₀ run) (he : Ready t₀ run e) :
    StableDeployed t₀ (run ++ [e]) := by
  intro p hp
  cases hb : e.2.isBegin with
  | true =>
    obtain ⟨q, hq⟩ := @step_begin (after t₀ run) e hb
    have hnew : (after t₀ run).newPolicy = some p := by
      rw [after_concat, hq] at hp
      exact hp
    rcases he hb with hidle | hfull
    · rw [(newPolicy_eq_none_iff t₀ run).2 hidle] at hnew
      cases hnew
    · exact ⟨run, List.prefix_append _ _, hnew, hfull⟩
  | false =>
    rw [after_concat, (step_policies hb).2] at hp
    exact (h p hp).append e

theorem stableDeployed_of_ready (h : ∀ pre e, pre ++ [e] <+: run → Ready t₀ pre e) : StableDeployed t₀ run := by
  induction run using List.reverseRecOn with
  | nil =>
    intro p hp
    cases hp
  | append_singleton run e ih =>
    exact (ih fun pre e' hp => h pre e' (hp.trans (List.prefix_append _ _))).concat (h run e List.prefix_rfl)

/-- **The rollback target.** At every moment of a run it has been deployed, and no `begin_rollout` makes a policy the
target whose own rollout has not reached Full, exactly when every `begin_rollout` of the run finds the phase Idle or
Full. -/
theorem rollback_target_iff (t₀ : ℕ) (run : List Event) :
    ((∀ pre, pre <+: run → StableDeployed t₀ pre) ∧
      ∀ pre e, pre ++ [e] <+: run → e.2.isBegin = true →
        ∀ p, (after t₀ (pre ++ [e])).stablePolicy = some p → ReachedFull t₀ pre) ↔
    ∀ pre e, pre ++ [e] <+: run → e.2.isBegin = true →
      (after t₀ pre).currentPhase = .idle ∨ (after t₀ pre).currentPhase = .full := by
  have hstable : ∀ pre e, e.2.isBegin = true → (after t₀ (pre ++ [e])).stablePolicy = (after t₀ pre).newPolicy := by
    intro pre e hb
    obtain ⟨p, hp⟩ := @step_begin (after t₀ pre) e hb
    rw [after_concat, hp]
    rfl
  constructor
  · rintro ⟨-, h⟩ pre e hp hb
    cases hnew : (after t₀ pre).newPolicy with
    | none => exact Or.inl ((newPolicy_eq_none_iff t₀ pre).1 hnew)
    | some p => exact Or.inr (reachedFull_iff.1 (h pre e hp hb p (by rw [hstable pre e hb, hnew])))
  · intro h
    refine ⟨fun pre hp => stableDeployed_of_ready fun pre' e hp' => h pre' e (hp'.trans hp), ?_⟩
    intro pre e hp hb p hstab
    rw [hstable pre e hb] at hstab
    rcases h pre e hp hb with hidle | hfull
    · rw [(newPolicy_eq_none_iff t₀ pre).2 hidle] at hstab
      cases hstab
    · exact reachedFull_iff.2 hfull

/-- The policy rolled back in the run below. -/
def badPolicy : PolicyVersion := ⟨2, "SIGMA", "rule-2", "rule content v2"⟩

/-- One agent, twenty false positives, a rollback, and the next rollout. -/
def rolledBackRun : List Event :=
  ([(0, .registerAgent "agent-0"), (1, .beginRollout badPolicy)] : List Event) ++
    (List.replicate 20 (2, .recordAlertOutcome "agent-0" true) : List Event) ++
    ([(3, .tick), (4, .beginRollout ⟨3, "SIGMA", "rule-3", "rule content v3"⟩)] : List Event)

/-- The policy that was rolled back becomes the policy to revert to. -/
theorem rollback_target_rolled_back : Timed 0 rolledBackRun ∧
    (after 0 rolledBackRun).stablePolicy = some badPolicy ∧ ¬ StableDeployed 0 rolledBackRun := by
  have hstable : (after 0 rolledBackRun).stablePolicy = some badPolicy := by decide +kernel
  refine ⟨by decide +kernel, hstable, fun h => ?_⟩
  obtain ⟨pre, hp, -, hfull⟩ := h badPolicy hstable
  have hnever : ∀ pre ∈ rolledBackRun.inits, (after 0 pre).currentPhase ≠ .full := by decide +kernel
  exact hnever pre ((List.mem_inits _ _).2 hp) hfull

/-! ## Everyone -/

/-- In phase Full every registered agent runs the new policy. -/
def FullCovers (c : Controller) : Prop := c.currentPhase = .full → ∀ a ∈ c.allAgents, c.isCanaryAgent a = true

theorem pool_full (c : Controller) : c.pool (targetCount c.allAgents.length 1) = c.allAgents.toFinset := by
  simp [pool]

/-- Every agent with the new policy is registered. -/
theorem InPool.registered {c : Controller} (h : InPool c) {a : AgentId} (ha : a ∈ c.canaryAgents) :
    a ∈ c.allAgents := by
  have hpool : a ∈ (c.allAgents.take (share c.currentPhase c.allAgents.length)).toFinset := h ha
  exact List.mem_of_mem_take (List.mem_toFinset.1 hpool)

/-- A registration in phase Full has to be of a registered agent. -/
theorem fullCovers_register {c : Controller} (hp : InPool c) (h : FullCovers c) (a : AgentId) :
    FullCovers (c.registerAgent a) ↔ (c.currentPhase = .full → a ∈ c.allAgents) := by
  by_cases ha : a ∈ c.allAgents
  · have hsame : (c.registerAgent a).allAgents = c.allAgents := by simp [registerAgent, ha]
    refine iff_of_true (fun hfull b hb => ?_) fun _ => ha
    rw [hsame] at hb
    exact h hfull b hb
  · have happend : (c.registerAgent a).allAgents = c.allAgents ++ [a] := by simp [registerAgent, ha]
    constructor
    · intro hcov hfull
      have hcanary := hcov hfull a (by simp [happend])
      exact hp.registered (of_decide_eq_true hcanary)
    · intro hno hfull
      exact absurd (hno hfull) ha

/-- Every other call keeps the phase Full complete. -/
theorem FullCovers.step {c : Controller} (h : FullCovers c) {e : Event} (he : ∀ a, e.2 ≠ .registerAgent a) :
    FullCovers (CanaryRollout.step c e).1 := by
  obtain ⟨now, call⟩ := e
  cases call with
  | registerAgent a => exact absurd rfl (he a)
  | beginRollout p =>
    intro hfull
    cases hfull
  | recordAlertOutcome a b =>
    change FullCovers (c.recordAlertOutcome a b)
    rw [record_eq]
    exact h
  | tick =>
    change FullCovers (c.tick now).1
    cases hn : nextPhase c.currentPhase with
    | none =>
      rw [tick_of_last hn]
      exact h
    | some p =>
      obtain ⟨next, fraction⟩ := p
      rw [tick_of_next hn]
      split_ifs with hfpr
      · intro hfull
        cases hfull
      · exact h
      · exact h
      · intro hfull a ha
        change next = .full at hfull
        have hone : fraction = 1 := by
          rw [hfull] at hn
          cases hp : c.currentPhase <;> simp_all [nextPhase]
        have hmem : a ∈ c.allAgents.toFinset := List.mem_toFinset.2 ha
        rw [← pool_full c, ← hone] at hmem
        exact decide_eq_true hmem

/-- **Everyone.** In every state of a run phase Full covers every registered agent, exactly when every registration
made in phase Full is of an agent that is registered already. -/
theorem full_covers_iff (t₀ : ℕ) (run : List Event) :
    (∀ pre, pre <+: run → FullCovers (after t₀ pre)) ↔
      ∀ pre e, pre ++ [e] <+: run → ∀ a, e.2 = .registerAgent a →
        (after t₀ pre).currentPhase = .full → a ∈ (after t₀ pre).allAgents := by
  refine List.forall_prefix_iff ?_ ?_ run
  · intro hfull
    cases hfull
  · intro pre e h
    rw [after_concat]
    by_cases he : ∃ a, e.2 = .registerAgent a
    · obtain ⟨a, ha⟩ := he
      have hstep : (step (after t₀ pre) e).1 = (after t₀ pre).registerAgent a := by simp [step, ha]
      rw [hstep, fullCovers_register (inPool_after t₀ pre) h]
      simp [ha]
    · refine iff_of_true (h.step fun a ha => he ⟨a, ha⟩) fun a ha => absurd ⟨a, ha⟩ he

/-- A complete rollout and one more agent. -/
theorem full_not_covered : Timed 0 (completeRollout ++ [(1000 * 10 ^ 9, .registerAgent "c")]) ∧
    ¬ FullCovers (after 0 (completeRollout ++ [(1000 * 10 ^ 9, .registerAgent "c")])) := by
  refine ⟨by decide +kernel, fun h => ?_⟩
  have hfull : (after 0 (completeRollout ++ [(1000 * 10 ^ 9, .registerAgent "c")])).currentPhase = .full := by
    decide +kernel
  have hc := h hfull "c" (by decide +kernel)
  revert hc
  decide +kernel

end ThorFirewall.CanaryRollout
