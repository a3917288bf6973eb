import Mathlib
import ThorFirewall.Lib.Mealy

/-!
# The canary rollout controller (`canary_rollout.rs`)

A new policy is deployed to 1%, 10%, 50% and 100% of the agents, one phase after the other; too many false positives
among the agents that run it roll it back. This module is the controller: its state, its calls and its runs.

Numbers are exact: the rates and the shares of the agents are rationals (`tick64`, in `Dilution`, is `tick` in double
precision, which may differ only where the mean of the rates is 5% but for an error of rounding). Times are readings of
a monotonic clock in nanoseconds, and a run is a list of calls with their times.

* `step_cases`: a call leaves the rollout alone, begins one, rolls it back or advances it by one phase, and when;
* `InPool`: the agents that run the new policy are among the first of the registered ones, as many as the phase
  allows; every run keeps it (`inPool_after`).
-/

namespace ThorFirewall.CanaryRollout

abbrev AgentId := String

/-- `FPR_ROLLBACK_THRESHOLD`. -/
def fprRollbackThreshold : ℚ := 5 / 100

/-- `OBSERVATION_WINDOW`, 300 s. -/
def observationWindow : ℕ := 300 * 10 ^ 9

/-- `MIN_SAMPLE_SIZE`. -/
def minSampleSize : ℕ := 20

inductive RolloutPhase
  | idle
  | canary
  | early
  | rollout
  | full
  | rolledBack (reason : String)
  deriving DecidableEq, Repr

structure PolicyVersion where
  version : UInt64
  policyType : String
  ruleId : String
  content : String
  deriving DecidableEq, Repr

/-! ## Metrics -/

/-- The last 200 alert outcomes of an agent, the oldest first; `true` is a false positive. -/
structure AgentMetrics where
  alertOutcomes : List Bool
  deriving DecidableEq, Repr

namespace AgentMetrics

def new : AgentMetrics := { alertOutcomes := [] }

def record (m : AgentMetrics) (isFalsePositive : Bool) : AgentMetrics :=
  let kept := if 200 ≤ m.alertOutcomes.length then m.alertOutcomes.tail else m.alertOutcomes
  { alertOutcomes := kept ++ [isFalsePositive] }

def fpr (m : AgentMetrics) : ℚ :=
  if m.alertOutcomes.length < minSampleSize then 0
  else (m.alertOutcomes.filter (· = true)).length / m.alertOutcomes.length

end AgentMetrics

/-- A non-negative number rounded to a whole one, a tie to the even one. -/
def roundHalfEven (q : ℚ) : ℕ :=
  let n := ⌊q⌋₊
  if q - n < 1 / 2 then n else if 1 / 2 < q - n then n + 1 else n + n % 2

/-- `{:.1}`: one digit behind the point. -/
def fixed1 (q : ℚ) : String :=
  let tenths := roundHalfEven (q * 10)
  toString (tenths / 10) ++ "." ++ toString (tenths % 10)

/-! ## The controller -/

structure Controller where
  currentPhase : RolloutPhase
  /-- The policy being rolled out. -/
  newPolicy : Option PolicyVersion
  /-- The policy a rollback reverts to. -/
  stablePolicy : Option PolicyVersion
  /-- The agents that run the new policy. -/
  canaryAgents : Finset AgentId
  agentMetrics : AgentId → Option AgentMetrics
  allAgents : List AgentId
  phaseStartedAt : ℕ

namespace Controller

def new (now : ℕ) : Controller :=
  { currentPhase := .idle, newPolicy := none, stablePolicy := none, canaryAgents := ∅, agentMetrics := fun _ => none,
    allAgents := [], phaseStartedAt := now }

def isCanaryAgent (c : Controller) (agentId : AgentId) : Bool := agentId ∈ c.canaryAgents

def registerAgent (c : Controller) (agentId : AgentId) : Controller :=
  { c with
    allAgents := if agentId ∈ c.allAgents then c.allAgents else c.allAgents ++ [agentId]
    agentMetrics := Function.update c.agentMetrics agentId (some ((c.agentMetrics agentId).getD .new)) }

def recordAlertOutcome (c : Controller) (agentId : AgentId) (isFalsePositive : Bool) : Controller :=
  match c.agentMetrics agentId with
  | some m => { c with agentMetrics := Function.update c.agentMetrics agentId (some (m.record isFalsePositive)) }
  | none => c

/-- The first `count` of the registered agents. -/
def pool (c : Controller) (count : ℕ) : Finset AgentId := (c.allAgents.take count).toFinset

/-- 1% of `n` agents, rounded down, and at least one. -/
def canaryCount (n : ℕ) : ℕ := ⌊max ((n : ℚ) * (1 / 100)) 1⌋₊

/-- A share of `n` agents, rounded up. -/
def targetCount (n : ℕ) (fraction : ℚ) : ℕ := ⌈(n : ℚ) * fraction⌉₊

def applyCanaryPhase (c : Controller) : Controller :=
  { c with canaryAgents := c.pool (canaryCount c.allAgents.length) }

def beginRollout (c : Controller) (now : ℕ) (newPolicy : PolicyVersion) : Controller :=
  applyCanaryPhase { c with
    stablePolicy := c.newPolicy, newPolicy := some newPolicy, currentPhase := .canary, phaseStartedAt := now }

/-- The false positive rate an agent contributes, none if it has no metrics. -/
def agentFpr (c : Controller) (agentId : AgentId) : ℚ :=
  match c.agentMetrics agentId with
  | some m => m.fpr
  | none => 0

def calculateCanaryFpr (c : Controller) : ℚ :=
  if c.canaryAgents = ∅ then 0 else (∑ agentId ∈ c.canaryAgents, c.agentFpr agentId) / c.canaryAgents.card

/-- The phase that follows, and its share of the agents. -/
def nextPhase : RolloutPhase → Option (RolloutPhase × ℚ)
  | .canary => some (.early, 10 / 100)
  | .early => some (.rollout, 50 / 100)
  | .rollout => some (.full, 1)
  | _ => none

def advancePhase (c : Controller) (now : ℕ) : Controller × RolloutPhase :=
  let n := c.allAgents.length
  if n = 0 then (c, .idle) else
    match nextPhase c.currentPhase with
    | none => (c, c.currentPhase)
    | some (next, fraction) =>
      ({ c with canaryAgents := c.pool (targetCount n fraction), currentPhase := next, phaseStartedAt := now }, next)

def rollback (c : Controller) (reason : String) : Controller × RolloutPhase :=
  ({ c with canaryAgents := ∅, currentPhase := .rolledBack reason }, .rolledBack reason)

def rollbackReason (fpr : ℚ) : String :=
  "FPR " ++ fixed1 (fpr * 100) ++ "% > threshold " ++ fixed1 (fprRollbackThreshold * 100) ++ "%"

def tick (c : Controller) (now : ℕ) : Controller × RolloutPhase :=
  let phase := c.currentPhase
  let elapsed := now - c.phaseStartedAt
  match phase with
  | .idle | .full | .rolledBack _ => (c, phase)
  | _ =>
    let fpr := c.calculateCanaryFpr
    if fprRollbackThreshold < fpr then c.rollback (rollbackReason fpr)
    else if elapsed < observationWindow then (c, phase)
    else c.advancePhase now

end Controller

open Controller

/-! ## Runs -/

inductive Call
  | registerAgent (agentId : AgentId)
  | beginRollout (newPolicy : PolicyVersion)
  | recordAlertOutcome (agentId : AgentId) (isFalsePositive : Bool)
  | tick
  deriving DecidableEq, Repr

def Call.isBegin : Call → Bool
  | .beginRollout _ => true
  | _ => false

def Call.isOutcome : Call → Bool
  | .recordAlertOutcome _ _ => true
  | _ => false

/-- A call and the time of it. -/
abbrev Event := ℕ × Call

/-- One call, with the phase a tick returns. -/
def step (c : Controller) (e : Event) : Controller × Option RolloutPhase :=
  match e.2 with
  | .registerAgent agentId => (c.registerAgent agentId, none)
  | .beginRollout newPolicy => (c.beginRollout e.1 newPolicy, none)
  | .recordAlertOutcome agentId isFalsePositive => (c.recordAlertOutcome agentId isFalsePositive, none)
  | .tick => ((c.tick e.1).1, some (c.tick e.1).2)

/-- The controller made at `t₀`, after a run. -/
def after (t₀ : ℕ) (run : List Event) : Controller := Mealy.after step (.new t₀) run

/-- The clock does not go back. -/
def Timed (t₀ : ℕ) (run : List Event) : Prop := (t₀ :: run.map Prod.fst).Pairwise (· ≤ ·)

instance (t₀ : ℕ) (run : List Event) : Decidable (Timed t₀ run) := inferInstanceAs (Decidable (List.Pairwise _ _))

@[simp] theorem after_concat (t₀ : ℕ) (run : List Event) (e : Event) :
    after t₀ (run ++ [e]) = (step (after t₀ run) e).1 :=
  Mealy.after_concat step _ run e

/-! ## Shares of the agents -/

section Shares

variable {n m : ℕ} {p next : RolloutPhase} {fraction : ℚ}

/-- How many of `n` agents may run the new policy in a phase. -/
def share : RolloutPhase → ℕ → ℕ
  | .idle, _ | .rolledBack _, _ => 0
  | .canary, n => canaryCount n
  | .early, n => targetCount n (10 / 100)
  | .rollout, n => targetCount n (50 / 100)
  | .full, n => targetCount n 1

theorem share_next (h : nextPhase p = some (next, fraction)) (n : ℕ) : share next n = targetCount n fraction := by
  cases p <;> simp only [nextPhase, Option.some.injEq, Prod.mk.injEq, reduceCtorEq] at h
  all_goals
    obtain ⟨rfl, rfl⟩ := h
    rfl

@[simp] theorem targetCount_one (n : ℕ) : targetCount n 1 = n := by simp [targetCount]

theorem canaryCount_mono (h : n ≤ m) : canaryCount n ≤ canaryCount m := by
  have hq : (n : ℚ) ≤ m := by exact_mod_cast h
  refine Nat.floor_mono (max_le_max ?_ le_rfl)
  linarith

theorem targetCount_mono (h : n ≤ m) {f : ℚ} (hf : 0 ≤ f) : targetCount n f ≤ targetCount m f := by
  have hq : (n : ℚ) ≤ m := by exact_mod_cast h
  exact Nat.ceil_mono (mul_le_mul_of_nonneg_right hq hf)

/-- Agents that register later never shrink a share. -/
theorem share_mono (p : RolloutPhase) (h : n ≤ m) : share p n ≤ share p m := by
  cases p with
  | idle | rolledBack => exact le_rfl
  | canary => exact canaryCount_mono h
  | early | rollout | full => exact targetCount_mono h (by norm_num)

/-- One agent or 1% rounded down is at most 10% rounded up. -/
theorem canaryCount_le (hn : 0 < n) : canaryCount n ≤ targetCount n (10 / 100) := by
  have hq : (0 : ℚ) < n := by exact_mod_cast hn
  have hceil : (n : ℚ) * (10 / 100) ≤ targetCount n (10 / 100) := Nat.le_ceil _
  have hone : (1 : ℚ) ≤ targetCount n (10 / 100) := by exact_mod_cast Nat.one_le_ceil_iff.2 (by positivity)
  have hmax : max ((n : ℚ) * (1 / 100)) 1 ≤ targetCount n (10 / 100) := max_le (by linarith) hone
  exact_mod_cast (Nat.floor_le (by positivity)).trans hmax

/-- Each phase has at least the share of the one before. -/
theorem share_le_next (hn : 0 < n) (h : nextPhase p = some (next, fraction)) : share p n ≤ share next n := by
  cases p <;> simp only [nextPhase, Option.some.injEq, Prod.mk.injEq, reduceCtorEq] at h
  all_goals obtain ⟨rfl, rfl⟩ := h
  case canary => exact canaryCount_le hn
  all_goals
    refine Nat.ceil_mono (mul_le_mul_of_nonneg_left ?_ n.cast_nonneg)
    norm_num

end Shares

/-! ## What a step can do -/

section Steps

variable {c : Controller} {now : ℕ} {e : Event}

/-- The controller after a tick that is allowed to advance. -/
def Controller.advanced (c : Controller) (now : ℕ) (next : RolloutPhase) (fraction : ℚ) : Controller :=
  { c with
    canaryAgents := c.pool (targetCount c.allAgents.length fraction), currentPhase := next, phaseStartedAt := now }

/-- **What a call can do to the controller.** -/
inductive Stepped (c : Controller) (e : Event) : Controller → Prop
  /-- An outcome, a registration or a tick that decides nothing. -/
  | quiet (c' : Controller) (hbegin : e.2.isBegin = false) (hpre : c.allAgents <+: c'.allAgents)
      (hc : c' = { c with agentMetrics := c'.agentMetrics, allAgents := c'.allAgents }) : Stepped c e c'
  | begins (p : PolicyVersion) (he : e.2 = .beginRollout p) : Stepped c e (c.beginRollout e.1 p)
  | rollback (reason : String) (he : e.2 = .tick) (hactive : (nextPhase c.currentPhase).isSome)
      (hfpr : fprRollbackThreshold < c.calculateCanaryFpr) : Stepped c e (c.rollback reason).1
  | advance (next : RolloutPhase) (fraction : ℚ) (he : e.2 = .tick)
      (hnext : nextPhase c.currentPhase = some (next, fraction))
      (hfpr : c.calculateCanaryFpr ≤ fprRollbackThreshold) (hwait : c.phaseStartedAt + observationWindow ≤ e.1)
      (hne : 0 < c.allAgents.length) : Stepped c e (c.advanced e.1 next fraction)

/-- A tick in a phase that is followed by another. -/
theorem tick_of_next {next : RolloutPhase} {fraction : ℚ} (h : nextPhase c.currentPhase = some (next, fraction)) :
    c.tick now =
      if fprRollbackThreshold < c.calculateCanaryFpr then c.rollback (rollbackReason c.calculateCanaryFpr)
      else if now - c.phaseStartedAt < observationWindow then (c, c.currentPhase)
      else if c.allAgents.length = 0 then (c, .idle)
      else (c.advanced now next fraction, next) := by
  unfold tick advancePhase
  cases hp : c.currentPhase <;> rw [hp] at h <;> simp_all [nextPhase, advanced]

/-- A tick in a phase that is the last one. -/
theorem tick_of_last (h : nextPhase c.currentPhase = none) : c.tick now = (c, c.currentPhase) := by
  unfold tick
  cases hp : c.currentPhase <;> rw [hp] at h <;> simp_all [nextPhase]

theorem record_eq (c : Controller) (a : AgentId) (b : Bool) :
    c.recordAlertOutcome a b = { c with agentMetrics := (c.recordAlertOutcome a b).agentMetrics } := by
  unfold recordAlertOutcome
  cases c.agentMetrics a <;> rfl

/-- Registration only appends. -/
theorem allAgents_prefix_register (c : Controller) (a : AgentId) : c.allAgents <+: (c.registerAgent a).allAgents := by
  unfold registerAgent
  split_ifs
  · exact List.prefix_rfl
  · exact List.prefix_append _ _

theorem step_cases (c : Controller) (e : Event) : Stepped c e (step c e).1 := by
  obtain ⟨now, call⟩ := e
  cases call with
  | registerAgent a => exact .quiet _ rfl (allAgents_prefix_register c a) rfl
  | beginRollout p => exact .begins p rfl
  | recordAlertOutcome a b =>
    change Stepped c _ (c.recordAlertOutcome a b)
    rw [record_eq]
    exact .quiet _ rfl List.prefix_rfl rfl
  | tick =>
    change Stepped c _ (c.tick now).1
    cases hn : nextPhase c.currentPhase with
    | none =>
      rw [tick_of_last hn]
      exact .quiet c rfl List.prefix_rfl rfl
    | some p =>
      obtain ⟨next, fraction⟩ := p
      rw [tick_of_next hn]
      split_ifs with hfpr hwait hempty
      · exact .rollback _ rfl (by rw [hn]; rfl) hfpr
      · exact .quiet c rfl List.prefix_rfl rfl
      · exact .quiet c rfl List.prefix_rfl rfl
      · refine .advance next fraction rfl hn (not_lt.1 hfpr) ?_ (Nat.pos_of_ne_zero hempty)
        have hpos : 0 < observationWindow := by decide
        omega

end Steps

/-! ## The agents that run the new policy -/

section Pool

variable {c : Controller}

theorem pool_subset {c c' : Controller} {k k' : ℕ} (hp : c.allAgents <+: c'.allAgents) (hk : k ≤ k') :
    c.pool k ⊆ c'.pool k' := by
  intro a ha
  simp only [pool, List.mem_toFinset] at ha ⊢
  have hpre : c.allAgents.take k <+: c'.allAgents.take k' :=
    (hp.take k).trans (List.take_prefix_take_left hk)
  exact hpre.subset ha

/-- They are among the first of the registered agents, as many as the phase allows. -/
def InPool (c : Controller) : Prop := c.canaryAgents ⊆ c.pool (share c.currentPhase c.allAgents.length)

/-- One step. -/
theorem InPool.step (h : InPool c) (e : Event) : InPool (CanaryRollout.step c e).1 := by
  generalize hc' : (CanaryRollout.step c e).1 = c'
  have hs := step_cases c e
  rw [hc'] at hs
  cases hs with
  | quiet _ _ hpre hq =>
    rw [hq]
    exact h.trans (pool_subset hpre (share_mono _ hpre.length_le))
  | begins p => exact Finset.Subset.refl _
  | rollback => exact Finset.empty_subset _
  | advance next fraction _ hnext => exact pool_subset List.prefix_rfl (share_next hnext _).ge

/-- **Every run.** -/
theorem inPool_after (t₀ : ℕ) (run : List Event) : InPool (after t₀ run) :=
  Mealy.after_inv (P := InPool) (Finset.empty_subset _) (fun _ e h => h.step e) run

end Pool

end ThorFirewall.CanaryRollout
