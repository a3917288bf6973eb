import Mathlib
import ThorFirewall.Control.CanaryRollout

/-!
# The gate between the phases of a rollout

What every run of the canary rollout controller keeps, whoever registers and whatever is recorded in between: the
phases follow one another, each advance waits for the observation window and for a low rate of false positives, the
set of agents with the new policy only grows, and a rollback empties it (`phased_gate`).

Two invariants carry it: `InPool` of the controller, and `Since`, that no phase change is later than the time the
controller remembers.
-/

namespace ThorFirewall.CanaryRollout

open Controller

/-! ## Phases -/

/-- One phase along Canary, Early, Rollout, Full. -/
inductive Advances : RolloutPhase → RolloutPhase → Prop
  | early : Advances .canary .early
  | rollout : Advances .early .rollout
  | full : Advances .rollout .full

theorem advances_iff {p q : RolloutPhase} : Advances p q ↔ ∃ f, nextPhase p = some (q, f) := by
  constructor
  · rintro ⟨⟩ <;> exact ⟨_, rfl⟩
  · rintro ⟨f, h⟩
    cases p <;> simp [nextPhase] at h
    all_goals
      obtain ⟨rfl, -⟩ := h
      constructor

theorem not_advances_self {p : RolloutPhase} : ¬ Advances p p := fun h => by cases h

theorem not_advances_canary {p : RolloutPhase} : ¬ Advances p .canary := fun h => by cases h

theorem not_advances_rolledBack {p : RolloutPhase} {reason : String} : ¬ Advances p (.rolledBack reason) :=
  fun h => by cases h

/-- The event is a `begin_rollout`, or the phase is another one after it. -/
def PhaseChange (t₀ : ℕ) (pre : List Event) (e : Event) : Prop :=
  e.2.isBegin = true ∨ (after t₀ (pre ++ [e])).currentPhase ≠ (after t₀ pre).currentPhase

/-- **The gate**, over all the moments of a run. -/
structure Gated (t₀ : ℕ) (run : List Event) : Prop where
  /-- A rollout begins in phase Canary. -/
  starts : ∀ pre t p, pre ++ [(t, .beginRollout p)] <+: run →
    (after t₀ (pre ++ [(t, .beginRollout p)])).currentPhase = .canary
  /-- Until the next one the phase stays, advances by one, or turns from one that could advance to a rollback. -/
  moves : ∀ pre e, pre ++ [e] <+: run → e.2.isBegin = false →
    (after t₀ (pre ++ [e])).currentPhase = (after t₀ pre).currentPhase ∨
      Advances (after t₀ pre).currentPhase (after t₀ (pre ++ [e])).currentPhase ∨
      (∃ q, Advances (after t₀ pre).currentPhase q) ∧
        ∃ reason, (after t₀ (pre ++ [e])).currentPhase = .rolledBack reason
  /-- An advance is made by a tick, at a rate of at most 5%, 300 s after every phase change before it. -/
  waits : ∀ pre e, pre ++ [e] <+: run → Advances (after t₀ pre).currentPhase (after t₀ (pre ++ [e])).currentPhase →
    e.2 = .tick ∧ (after t₀ pre).calculateCanaryFpr ≤ 5 / 100 ∧
      ∀ pre' e', pre' ++ [e'] <+: pre → PhaseChange t₀ pre' e' → e'.1 + 300 * 10 ^ 9 ≤ e.1
  /-- Within a rollout, and as long as it is not rolled back, no agent loses the new policy. -/
  grows : ∀ pre mid, pre ++ mid <+: run → (∀ e ∈ mid, e.2.isBegin = false) →
    (∀ reason, (after t₀ (pre ++ mid)).currentPhase ≠ .rolledBack reason) →
    (after t₀ pre).canaryAgents ⊆ (after t₀ (pre ++ mid)).canaryAgents
  /-- From a rollback to the next rollout no agent has the new policy. -/
  emptied : ∀ pre mid reason, pre ++ mid <+: run → (∀ e ∈ mid, e.2.isBegin = false) →
    (after t₀ pre).currentPhase = .rolledBack reason →
    (after t₀ (pre ++ mid)).currentPhase = .rolledBack reason ∧ (after t₀ (pre ++ mid)).canaryAgents = ∅

/-! ## One step -/

section Step

variable {c : Controller} {e : Event}

/-- The phase of a step that begins no rollout. -/
theorem step_moves (hb : e.2.isBegin = false) : (step c e).1.currentPhase = c.currentPhase ∨
    Advances c.currentPhase (step c e).1.currentPhase ∨
    (∃ q, Advances c.currentPhase q) ∧ ∃ reason, (step c e).1.currentPhase = .rolledBack reason := by
  generalize hc' : (step c e).1 = c'
  have hs := step_cases c e
  rw [hc'] at hs
  cases hs with
  | quiet _ _ _ hq => exact Or.inl (by rw [hq])
  | begins p he => simp [he, Call.isBegin] at hb
  | rollback reason _ hactive =>
    obtain ⟨⟨q, f⟩, hq⟩ := Option.isSome_iff_exists.1 hactive
    exact Or.inr (Or.inr ⟨⟨q, advances_iff.2 ⟨f, hq⟩⟩, reason, rfl⟩)
  | advance next f _ hnext => exact Or.inr (Or.inl (advances_iff.2 ⟨f, hnext⟩))

/-- A step that advances is a tick past the observation window. -/
theorem step_waits (h : Advances c.currentPhase (step c e).1.currentPhase) :
    e.2 = .tick ∧ c.calculateCanaryFpr ≤ fprRollbackThreshold ∧ c.phaseStartedAt + observationWindow ≤ e.1 := by
  generalize hc' : (step c e).1 = c' at h
  have hs := step_cases c e
  rw [hc'] at hs
  cases hs with
  | quiet _ _ _ hq =>
    rw [hq] at h
    exact absurd h not_advances_self
  | begins p => exact absurd h not_advances_canary
  | rollback reason => exact absurd h not_advances_rolledBack
  | advance next f he _ hfpr hwait => exact ⟨he, hfpr, hwait⟩

/-- A step that begins no rollout and does not roll back takes the new policy from no agent. -/
theorem step_grows (hp : InPool c) (hb : e.2.isBegin = false)
    (hr : ∀ reason, (step c e).1.currentPhase ≠ .rolledBack reason) : c.canaryAgents ⊆ (step c e).1.canaryAgents := by
  generalize hc' : (step c e).1 = c' at hr
  have hs := step_cases c e
  rw [hc'] at hs
  cases hs with
  | quiet _ _ _ hq => rw [hq]
  | begins p he => simp [he, Call.isBegin] at hb
  | rollback reason => exact absurd rfl (hr reason)
  | advance next f _ hnext _ _ hne =>
    refine hp.trans (pool_subset List.prefix_rfl ?_)
    rw [← share_next hnext]
    exact share_le_next hne hnext

/-- A rollback lasts until the next rollout. -/
theorem step_rolledBack {reason : String} (h : c.currentPhase = .rolledBack reason) (hb : e.2.isBegin = false) :
    (step c e).1.currentPhase = .rolledBack reason := by
  rcases step_moves hb with hs | hs | ⟨⟨q, hq⟩, -⟩
  · rw [hs, h]
  · rw [h] at hs
    cases hs
  · rw [h] at hq
    cases hq

end Step

/-! ## Runs -/

section Runs

variable {t₀ : ℕ}

theorem Timed.of_prefix {run pre : List Event} (h : Timed t₀ run) (hp : pre <+: run) : Timed t₀ pre :=
  h.sublist ((hp.sublist.map Prod.fst).cons_cons t₀)

/-- The last event is the latest. -/
theorem Timed.le_last {run : List Event} {e : Event} (h : Timed t₀ (run ++ [e])) : ∀ e' ∈ run, e'.1 ≤ e.1 := by
  intro e' he'
  rw [Timed, List.map_append, ← List.cons_append] at h
  exact (List.pairwise_append.1 h).2.2 _ (List.mem_cons_of_mem _ (List.mem_map_of_mem he')) _ (by simp)

/-- The events of the prefixes of a longer run. -/
theorem concat_prefix_concat {run pre : List Event} {e e' : Event} (h : pre ++ [e'] <+: run ++ [e]) :
    pre ++ [e'] <+: run ∨ pre = run ∧ e' = e := by
  rcases List.prefix_concat_iff.1 h with heq | hp
  · obtain ⟨hpre, he⟩ := List.append_inj' heq rfl
    exact Or.inr ⟨hpre, by simpa using he⟩
  · exact Or.inl hp

/-- While the phase can still advance, no phase change is later than the time the controller remembers. -/
def Since (t₀ : ℕ) (run : List Event) : Prop :=
  (∃ q, Advances (after t₀ run).currentPhase q) →
    ∀ pre e, pre ++ [e] <+: run → PhaseChange t₀ pre e → e.1 ≤ (after t₀ run).phaseStartedAt

/-- If the last step sets the time, every change is in time. -/
theorem Since.of_now {run : List Event} {e : Event} (h : Timed t₀ (run ++ [e]))
    (hnow : (after t₀ (run ++ [e])).phaseStartedAt = e.1) : Since t₀ (run ++ [e]) := by
  intro _ pre e' hp _
  rw [hnow]
  rcases concat_prefix_concat hp with hp | ⟨-, rfl⟩
  · exact h.le_last e' (hp.subset (by simp))
  · exact le_rfl

theorem since_after {run : List Event} (h : Timed t₀ run) : Since t₀ run := by
  induction run using List.reverseRecOn with
  | nil =>
    intro _ pre e hp
    simp at hp
  | append_singleton run e ih =>
    have hs := step_cases (after t₀ run) e
    generalize hc' : (step (after t₀ run) e).1 = c' at hs
    have hafter : after t₀ (run ++ [e]) = c' := by rw [after_concat, hc']
    cases hs with
    | quiet _ hb _ hq =>
      intro hactive pre e' hp hchange
      rw [hafter, hq] at hactive ⊢
      rcases concat_prefix_concat hp with hp | ⟨rfl, rfl⟩
      · exact ih (h.of_prefix (List.prefix_append _ _)) hactive pre e' hp hchange
      · -- a quiet step is no phase change
        rcases hchange with hbegin | hne
        · rw [hb] at hbegin
          cases hbegin
        · exact absurd (by rw [hafter, hq]) hne
    | begins p => exact Since.of_now h (by rw [hafter]; rfl)
    | rollback reason =>
      rintro ⟨q, hq⟩
      rw [hafter] at hq
      cases hq
    | advance next f => exact Since.of_now h (by rw [hafter]; rfl)

/-- From a rollback to the next rollout. -/
theorem rolledBack_stays {pre mid : List Event} {reason : String} (hb : ∀ e ∈ mid, e.2.isBegin = false)
    (h : (after t₀ pre).currentPhase = .rolledBack reason) :
    (after t₀ (pre ++ mid)).currentPhase = .rolledBack reason := by
  induction mid using List.reverseRecOn with
  | nil => simpa using h
  | append_singleton mid e ih =>
    rw [← List.append_assoc, after_concat]
    exact step_rolledBack (ih fun e' he' => hb e' (by simp [he'])) (hb e (by simp))

/-- The agents with the new policy, within a rollout. -/
theorem canary_grows {pre mid : List Event} (hb : ∀ e ∈ mid, e.2.isBegin = false)
    (hr : ∀ reason, (after t₀ (pre ++ mid)).currentPhase ≠ .rolledBack reason) :
    (after t₀ pre).canaryAgents ⊆ (after t₀ (pre ++ mid)).canaryAgents := by
  induction mid using List.reverseRecOn with
  | nil => simp
  | append_singleton mid e ih =>
    have hbm : ∀ e' ∈ mid, e'.2.isBegin = false := fun e' he' => hb e' (by simp [he'])
    have hbe : e.2.isBegin = false := hb e (by simp)
    rw [← List.append_assoc, after_concat] at hr ⊢
    refine (ih hbm fun reason hm => ?_).trans (step_grows (inPool_after t₀ _) hbe hr)
    exact hr reason (step_rolledBack hm hbe)

/-- A rolled back policy runs on no agent. -/
theorem canary_eq_empty {c : Controller} {reason : String} (hp : InPool c) (h : c.currentPhase = .rolledBack reason) :
    c.canaryAgents = ∅ := by
  rw [InPool, h] at hp
  simpa [share, pool] using hp

end Runs

/-- **The phased gate.** Every run of the controller with a clock that does not go back is gated. -/
theorem phased_gate (t₀ : ℕ) (run : List Event) (h : Timed t₀ run) : Gated t₀ run where
  starts pre t p _ := by simp [step, beginRollout, applyCanaryPhase]
  moves pre e _ hb := by
    rw [after_concat]
    exact step_moves hb
  waits pre e hp hadv := by
    rw [after_concat] at hadv
    obtain ⟨he, hfpr, hwait⟩ := step_waits hadv
    refine ⟨he, hfpr, fun pre' e' hp' hchange => ?_⟩
    have hpre : pre <+: run := (List.prefix_append pre [e]).trans hp
    have hsince : e'.1 ≤ (after t₀ pre).phaseStartedAt := since_after (h.of_prefix hpre) ⟨_, hadv⟩ pre' e' hp' hchange
    exact (Nat.add_le_add_right hsince _).trans hwait
  grows _ _ _ hb hr := canary_grows hb hr
  emptied pre mid reason _ hb hr := by
    have hstay := rolledBack_stays hb hr
    exact ⟨hstay, canary_eq_empty (inPool_after t₀ _) hstay⟩

/-- Two agents, one of them registered in the middle, and a rollout that is complete after a quarter of an hour. -/
def completeRollout : List Event :=
  [(0, .registerAgent "a"), (1, .beginRollout ⟨2, "SIGMA", "rule-2", "rule content v2"⟩), (2, .registerAgent "b"),
    (300 * 10 ^ 9 + 1, .tick), (600 * 10 ^ 9 + 1, .tick), (900 * 10 ^ 9 + 1, .tick)]

theorem phased_gate_complete :
    (after 0 completeRollout).currentPhase = .full ∧ Gated 0 completeRollout :=
  ⟨by decide +kernel, phased_gate 0 completeRollout (by decide)⟩

end ThorFirewall.CanaryRollout
