import Mathlib
import ThorFirewall.Control.CanaryRollout
import ThorFirewall.Lib.FloatRounding

/-!
# The false positive rate of a rollout (`canary_rollout.rs`)

`calculate_canary_fpr` is the mean of the agents' rates, and an agent with too few samples has rate zero. The rate of
the outcomes themselves, those of the agents with enough samples taken together, is `pooledFpr`. Here the controller
calculates in double precision, in the order in which it walks the map of its agents.

- `calculateCanaryFpr_eq`: the exact mean over all agents with the new policy, in terms of those with enough samples;
- `abs_calculateCanaryFpr64_sub_le`: how far the mean of the controller is off;
- `rollback_on_pooled`: but for this error, a rate above the threshold is acted on exactly if the agents with too few
  samples are fewer than the excess of the others outweighs;
- `tick64_iff_tick`: off this error, the controller rolls back where it does with exact numbers;
- `order_decides`: within it, the order of the walk may decide.
-/

namespace ThorFirewall.CanaryRollout

open Controller FloatRounding

namespace Controller

/-- The outcomes held for an agent. -/
def outcomes (c : Controller) (agentId : AgentId) : List Bool :=
  ((c.agentMetrics agentId).map fun m => m.alertOutcomes).getD []

/-- The false positives among them. -/
def falsePositives (c : Controller) (agentId : AgentId) : ℕ := ((c.outcomes agentId).filter (· = true)).length

/-- The agents with the new policy that have enough samples. -/
def sampled (c : Controller) : Finset AgentId :=
  c.canaryAgents.filter fun agentId => minSampleSize ≤ (c.outcomes agentId).length

/-- The agents with the new policy that do not. -/
def silent (c : Controller) : Finset AgentId := c.canaryAgents \ c.sampled

/-- The false positive rate over all outcomes of the agents with enough samples. -/
def pooledFpr (c : Controller) : ℚ :=
  (∑ agentId ∈ c.sampled, (c.falsePositives agentId : ℚ)) / ∑ agentId ∈ c.sampled, ((c.outcomes agentId).length : ℚ)

/-- By how much the rate of an agent exceeds the threshold. -/
def excess (c : Controller) (agentId : AgentId) : ℚ :=
  (c.falsePositives agentId : ℚ) / (c.outcomes agentId).length - fprRollbackThreshold

/-! ### Double precision -/

end Controller

/-- `FPR_ROLLBACK_THRESHOLD` as it is read. -/
def threshold64 : ℚ := binary64.round fprRollbackThreshold

/-- `AgentMetrics::fpr`. Counts are exact. -/
def AgentMetrics.fpr64 (m : AgentMetrics) : ℚ :=
  if m.alertOutcomes.length < minSampleSize then 0
  else binary64.round ((m.alertOutcomes.filter (· = true)).length / m.alertOutcomes.length)

namespace Controller

/-- An order in which the agents with the new policy are walked. -/
def Walk (c : Controller) (agents : List AgentId) : Prop := agents.Nodup ∧ agents.toFinset = c.canaryAgents

def calculateCanaryFpr64 (c : Controller) (agents : List AgentId) : ℚ :=
  if agents = [] then 0
  else binary64.round (binary64.sum ((agents.filterMap c.agentMetrics).map AgentMetrics.fpr64) / agents.length)

def rollbackReason64 (fpr : ℚ) : String :=
  "FPR " ++ fixed1 (binary64.round (fpr * 100)) ++ "% > threshold " ++
    fixed1 (binary64.round (threshold64 * 100)) ++ "%"

/-- `tick` with the rate of the walk. -/
def tick64 (c : Controller) (agents : List AgentId) (now : ℕ) : Controller × RolloutPhase :=
  let phase := c.currentPhase
  let elapsed := now - c.phaseStartedAt
  match phase with
  | .idle | .full | .rolledBack _ => (c, phase)
  | _ =>
    let fpr := c.calculateCanaryFpr64 agents
    if threshold64 < fpr then c.rollback (rollbackReason64 fpr)
    else if elapsed < observationWindow then (c, phase)
    else c.advancePhase now

/-- What rounding can make of the excess of all agents. -/
def margin (c : Controller) : ℚ := (c.canaryAgents.card : ℚ) ^ 2 / 2 ^ 49

/-- A phase in which the rates are watched. -/
def Watching (c : Controller) : Prop :=
  c.currentPhase = .canary ∨ c.currentPhase = .early ∨ c.currentPhase = .rollout

end Controller

variable {c : Controller}

/-! ## The mean of the rates -/

theorem agentFpr_eq (c : Controller) (agentId : AgentId) : c.agentFpr agentId =
    if minSampleSize ≤ (c.outcomes agentId).length then
      (c.falsePositives agentId : ℚ) / (c.outcomes agentId).length else 0 := by
  have hpos : ¬ minSampleSize ≤ 0 := by decide
  unfold agentFpr falsePositives outcomes
  cases c.agentMetrics agentId with
  | none => simp [hpos]
  | some m =>
    simp only [AgentMetrics.fpr, Option.map_some, Option.getD_some, ← not_lt]
    split_ifs <;> rfl

theorem card_canaryAgents (c : Controller) : c.canaryAgents.card = c.silent.card + c.sampled.card :=
  (Finset.card_sdiff_add_card_eq_card (Finset.filter_subset _ _)).symm

/-- The silent agents count in the mean. -/
theorem calculateCanaryFpr_eq (hne : c.sampled.Nonempty) : c.calculateCanaryFpr =
    (∑ agentId ∈ c.sampled, (c.falsePositives agentId : ℚ) / (c.outcomes agentId).length) /
      (c.silent.card + c.sampled.card) := by
  have hcanary : c.canaryAgents ≠ ∅ := (hne.mono (Finset.filter_subset _ _)).ne_empty
  have hsum : ∑ agentId ∈ c.canaryAgents, c.agentFpr agentId =
      ∑ agentId ∈ c.sampled, (c.falsePositives agentId : ℚ) / (c.outcomes agentId).length := by
    rw [sampled, Finset.sum_filter]
    exact Finset.sum_congr rfl fun agentId _ => agentFpr_eq c agentId
  rw [calculateCanaryFpr, if_neg hcanary, hsum, card_canaryAgents]
  push_cast
  rfl

/-- By how much the mean is above the threshold. -/
theorem excess_eq (hne : c.sampled.Nonempty) :
    ∑ agentId ∈ c.sampled, c.excess agentId - c.silent.card * fprRollbackThreshold =
      c.canaryAgents.card * (c.calculateCanaryFpr - fprRollbackThreshold) := by
  have hpos : (0 : ℚ) < c.silent.card + c.sampled.card := by
    have hcard : (0 : ℚ) < c.sampled.card := by exact_mod_cast hne.card_pos
    positivity
  have hexcess : ∑ agentId ∈ c.sampled, c.excess agentId =
      (∑ agentId ∈ c.sampled, (c.falsePositives agentId : ℚ) / (c.outcomes agentId).length) -
        c.sampled.card * fprRollbackThreshold := by
    simp only [excess, Finset.sum_sub_distrib, Finset.sum_const, nsmul_eq_mul]
  rw [calculateCanaryFpr_eq hne, hexcess, card_canaryAgents, mul_sub]
  push_cast
  rw [mul_div_cancel₀ _ hpos.ne']
  ring

/-! ## Rounding -/

section Rounding

variable {agents : List AgentId}

theorem binary64_le {y : ℚ} (hy : 1 / 100 ≤ y) : (2 : ℚ) ^ ((binary64.fractionBits : ℤ) + binary64.minExp) ≤ y := by
  have hsmall : (2 : ℚ) ^ ((binary64.fractionBits : ℤ) + binary64.minExp) ≤ 2 ^ (-7 : ℤ) :=
    zpow_le_zpow_right₀ one_le_two (by decide)
  refine (hsmall.trans ?_).trans hy
  norm_num

theorem abs_threshold64_sub_le : |threshold64 - fprRollbackThreshold| ≤ 1 / 2 ^ 53 := by
  have h : |threshold64 - fprRollbackThreshold| ≤ fprRollbackThreshold / 2 ^ (52 + 1) :=
    Format.abs_round_sub_le_of_le (by norm_num [fprRollbackThreshold]) le_rfl
      (binary64_le (by norm_num [fprRollbackThreshold]))
  refine h.trans ?_
  norm_num [fprRollbackThreshold]

theorem AgentMetrics.fpr_mem (m : AgentMetrics) : 0 ≤ m.fpr ∧ m.fpr ≤ 1 := by
  unfold AgentMetrics.fpr
  split_ifs with hfew
  · exact ⟨le_rfl, zero_le_one⟩
  · refine ⟨by positivity, div_le_one_of_le₀ ?_ (Nat.cast_nonneg _)⟩
    exact_mod_cast List.length_filter_le _ _

theorem AgentMetrics.abs_fpr64_sub_le (m : AgentMetrics) : |m.fpr64 - m.fpr| ≤ 1 / 2 ^ 53 := by
  obtain ⟨hlow, hhigh⟩ := m.fpr_mem
  unfold AgentMetrics.fpr64 AgentMetrics.fpr at *
  split_ifs at * with hfew
  · norm_num
  · exact Format.abs_round_sub_le_of_le hlow hhigh (binary64_le (by norm_num))

theorem AgentMetrics.fpr64_nonneg (m : AgentMetrics) : 0 ≤ m.fpr64 := by
  unfold AgentMetrics.fpr64
  split_ifs with hfew
  · exact le_rfl
  · exact Format.round_nonneg (by positivity)

theorem agentFpr_mem (c : Controller) (agentId : AgentId) : 0 ≤ c.agentFpr agentId ∧ c.agentFpr agentId ≤ 1 := by
  unfold agentFpr
  cases c.agentMetrics agentId with
  | none => exact ⟨le_rfl, zero_le_one⟩
  | some m => exact m.fpr_mem

/-- The rates of the walk and the exact ones of all agents. -/
theorem abs_sum_rates_sub_le (c : Controller) (agents : List AgentId) :
    |((agents.filterMap c.agentMetrics).map AgentMetrics.fpr64).sum - (agents.map c.agentFpr).sum| ≤
      agents.length * (1 / 2 ^ 53) := by
  induction agents with
  | nil => simp
  | cons agentId agents ih =>
    have hunit : (0 : ℚ) ≤ 1 / 2 ^ 53 := by positivity
    rw [List.filterMap_cons, List.map_cons, List.sum_cons, List.length_cons, agentFpr]
    push_cast
    obtain ⟨hlow, hhigh⟩ := abs_le.1 ih
    cases c.agentMetrics agentId with
    | none =>
      dsimp only
      rw [abs_le]
      constructor <;> linarith
    | some m =>
      obtain ⟨hlow', hhigh'⟩ := abs_le.1 m.abs_fpr64_sub_le
      dsimp only
      rw [List.map_cons, List.sum_cons, abs_le]
      constructor <;> linarith

theorem sum_rates_eq (hwalk : c.Walk agents) (hne : agents ≠ []) :
    (agents.map c.agentFpr).sum = agents.length * c.calculateCanaryFpr := by
  have hcanary : c.canaryAgents ≠ ∅ := by
    rw [← hwalk.2]
    exact fun h => hne (List.toFinset_eq_empty_iff agents |>.1 h)
  have hpos : (0 : ℚ) < agents.length := by exact_mod_cast List.length_pos_of_ne_nil hne
  rw [calculateCanaryFpr, if_neg hcanary, ← hwalk.2, List.sum_toFinset _ hwalk.1, List.toFinset_card_of_nodup hwalk.1,
    mul_div_cancel₀ _ hpos.ne']

theorem sum_agentFpr_mem (c : Controller) (agents : List AgentId) :
    0 ≤ (agents.map c.agentFpr).sum ∧ (agents.map c.agentFpr).sum ≤ agents.length := by
  induction agents with
  | nil => simp
  | cons agentId agents ih =>
    obtain ⟨hlow, hhigh⟩ := agentFpr_mem c agentId
    rw [List.map_cons, List.sum_cons, List.length_cons]
    push_cast
    constructor <;> linarith [ih.1, ih.2]

/-- **How far the controller's mean is off.** -/
theorem abs_calculateCanaryFpr64_sub_le (hwalk : c.Walk agents) (hne : agents ≠ [])
    (hlength : agents.length ≤ 2 ^ 51) :
    |c.calculateCanaryFpr64 agents - c.calculateCanaryFpr| ≤ (agents.length + 2) / 2 ^ 51 := by
  have hone : (1 : ℚ) ≤ agents.length := by exact_mod_cast List.length_pos_of_ne_nil hne
  have hmany : (agents.length : ℚ) ≤ 2 ^ 51 := by exact_mod_cast hlength
  have hexact := sum_agentFpr_mem c agents
  rw [sum_rates_eq hwalk hne] at hexact
  obtain ⟨hlow, hhigh⟩ := abs_le.1 (sum_rates_eq hwalk hne ▸ abs_sum_rates_sub_le c agents)
  rw [calculateCanaryFpr64, if_neg hne]
  have hfew : (((agents.filterMap c.agentMetrics).map AgentMetrics.fpr64).length : ℚ) ≤ agents.length := by
    rw [List.length_map]
    exact_mod_cast List.length_filterMap_le _ _
  have hrates : ∀ q ∈ (agents.filterMap c.agentMetrics).map AgentMetrics.fpr64, 0 ≤ q := by
    intro q hq
    obtain ⟨m, -, rfl⟩ := List.mem_map.1 hq
    exact m.fpr64_nonneg
  generalize (agents.filterMap c.agentMetrics).map AgentMetrics.fpr64 = rates at *
  generalize (agents.length : ℚ) = n at *
  have hpos : 0 < n := zero_lt_one.trans_le hone
  have hunit : rates.length * (4 * n / 2 ^ (52 + 1)) ≤ n * (4 * n / 2 ^ 53) :=
    mul_le_mul_of_nonneg_right hfew (by positivity)
  have hunit' : n * (4 * n / 2 ^ 53) ≤ n := by
    refine mul_le_of_le_one_right hpos.le ?_
    rw [div_le_one (by positivity)]
    linarith only [hmany]
  -- the sum, and then its quotient
  have htotal : |binary64.sum rates - rates.sum| ≤ rates.length * (4 * n / 2 ^ (52 + 1)) :=
    Format.abs_sum_sub_le (binary64_le (by linarith only [hone])) hrates
      (show rates.sum + rates.length * (4 * n / 2 ^ (52 + 1)) ≤ 4 * n by
        linarith only [hunit, hunit', hhigh, hexact.2, hone])
  obtain ⟨hlow', hhigh'⟩ := abs_le.1 htotal
  have hmean : |binary64.sum rates / n - c.calculateCanaryFpr| ≤ (4 * n + 1) / 2 ^ 53 := by
    have hsplit : binary64.sum rates / n - c.calculateCanaryFpr =
        (binary64.sum rates - n * c.calculateCanaryFpr) / n := by
      rw [sub_div, mul_div_cancel_left₀ _ hpos.ne']
    rw [hsplit, abs_div, abs_of_pos hpos, div_le_iff₀ hpos, abs_le]
    constructor
    · linarith only [hlow', hlow, hunit]
    · linarith only [hhigh', hhigh, hunit]
  have hzero : 0 ≤ binary64.sum rates / n := div_nonneg (Format.sum_nonneg hrates) hpos.le
  have hfour : binary64.sum rates / n ≤ 4 := by
    rw [div_le_iff₀ hpos]
    linarith only [hhigh', hhigh, hunit, hunit', hexact.2, hone]
  have hround : |binary64.round (binary64.sum rates / n) - binary64.sum rates / n| ≤ 4 / 2 ^ (52 + 1) :=
    Format.abs_round_sub_le_of_le hzero hfour (binary64_le (by norm_num))
  obtain ⟨hlow₁, hhigh₁⟩ := abs_le.1 hmean
  obtain ⟨hlow₂, hhigh₂⟩ := abs_le.1 hround
  rw [abs_le]
  constructor
  · linarith only [hlow₁, hlow₂, hone]
  · linarith only [hhigh₁, hhigh₂, hone]

end Rounding

/-! ## Rollbacks -/

theorem Controller.Watching.next (h : c.Watching) : ∃ p fraction,
    nextPhase c.currentPhase = some (p, fraction) ∧ ∀ reason, p ≠ .rolledBack reason := by
  obtain h | h | h := h <;> rw [h] <;> exact ⟨_, _, rfl, by simp⟩

theorem tick64_of_next {p : RolloutPhase} {fraction : ℚ} (h : nextPhase c.currentPhase = some (p, fraction))
    (agents : List AgentId) (now : ℕ) : c.tick64 agents now =
      if threshold64 < c.calculateCanaryFpr64 agents then c.rollback (rollbackReason64 (c.calculateCanaryFpr64 agents))
      else if now - c.phaseStartedAt < observationWindow then (c, c.currentPhase)
      else c.advancePhase now := by
  unfold tick64
  cases hphase : c.currentPhase with
  | idle | full | rolledBack => rw [hphase] at h; cases h
  | canary | early | rollout => rfl

/-- A tick rolls back exactly if the mean of the walk is above the threshold. -/
theorem tick64_rolledBack_iff (h : c.Watching) (agents : List AgentId) (now : ℕ) :
    (∃ reason, (c.tick64 agents now).2 = .rolledBack reason) ↔ threshold64 < c.calculateCanaryFpr64 agents := by
  obtain ⟨p, fraction, hnext, hp⟩ := h.next
  have hphase : ∀ reason, c.currentPhase ≠ .rolledBack reason := by
    obtain h | h | h := h <;> simp [h]
  rw [tick64_of_next hnext]
  split_ifs with hfpr hwait
  · exact iff_of_true ⟨_, rfl⟩ hfpr
  · exact iff_of_false (fun ⟨reason, hr⟩ => hphase reason hr) hfpr
  · refine iff_of_false (fun ⟨reason, hr⟩ => ?_) hfpr
    rw [advancePhase, hnext] at hr
    dsimp only at hr
    split_ifs at hr
    exact hp reason hr

/-- Off the margin of rounding the tick does what the exact mean tells. -/
theorem tick64_of_excess {agents : List AgentId} (now : ℕ) (h : c.Watching) (hne : c.sampled.Nonempty)
    (hwalk : c.Walk agents) :
    (c.silent.card * fprRollbackThreshold + c.margin < ∑ agentId ∈ c.sampled, c.excess agentId →
      ∃ reason, (c.tick64 agents now).2 = .rolledBack reason) ∧
    ((∃ reason, (c.tick64 agents now).2 = .rolledBack reason) →
      c.silent.card * fprRollbackThreshold ≤ ∑ agentId ∈ c.sampled, c.excess agentId + c.margin) := by
  have hexcess := excess_eq hne
  have hcanary : c.canaryAgents.Nonempty := hne.mono (Finset.filter_subset _ _)
  have hnil : agents ≠ [] := by
    rintro rfl
    exact hcanary.ne_empty hwalk.2.symm
  have hcard : (c.canaryAgents.card : ℚ) = agents.length := by
    rw [← hwalk.2, List.toFinset_card_of_nodup hwalk.1]
  have hone : (1 : ℚ) ≤ agents.length := by exact_mod_cast List.length_pos_of_ne_nil hnil
  have hmean := sum_agentFpr_mem c agents
  rw [sum_rates_eq hwalk hnil] at hmean
  obtain ⟨hlow, hhigh⟩ := abs_le.1 abs_threshold64_sub_le
  have hthreshold : fprRollbackThreshold = 5 / 100 := rfl
  rw [tick64_rolledBack_iff h, margin]
  rw [hcard] at hexcess ⊢
  by_cases hlength : agents.length ≤ 2 ^ 51
  · obtain ⟨hlow', hhigh'⟩ := abs_le.1 (abs_calculateCanaryFpr64_sub_le hwalk hnil hlength)
    generalize (agents.length : ℚ) = n at *
    have hpos : 0 < n := zero_lt_one.trans_le hone
    have hsquare : n ^ 2 / 2 ^ 49 = n * (n / 2 ^ 49) := by ring
    constructor
    · intro hover
      have hmul : n * (n / 2 ^ 49) < n * (c.calculateCanaryFpr - fprRollbackThreshold) := by
        rw [← hexcess, ← hsquare]
        linarith only [hover]
      have hgap := lt_of_mul_lt_mul_left hmul hpos.le
      linarith only [hgap, hlow', hhigh, hone]
    · intro hover
      by_contra hunder
      have hmul : n * (c.calculateCanaryFpr - fprRollbackThreshold) < n * (-(n / 2 ^ 49)) := by
        rw [← hexcess, mul_neg, ← hsquare]
        linarith only [hunder]
      have hgap := lt_of_mul_lt_mul_left hmul hpos.le
      linarith only [hgap, hover, hhigh', hlow, hone]
  · -- of so many agents the margin is more than the excess can be
    have hmany : (2 : ℚ) ^ 51 < agents.length := by exact_mod_cast Nat.lt_of_not_le hlength
    generalize (agents.length : ℚ) = n at *
    have hpos : 0 < n := zero_lt_one.trans_le hone
    have hwide : n < n ^ 2 / 2 ^ 49 := by
      rw [lt_div_iff₀ (by positivity), pow_two]
      exact mul_lt_mul_of_pos_left (by linarith only [hmany]) hpos
    have hexact : n * (c.calculateCanaryFpr - fprRollbackThreshold) = n * c.calculateCanaryFpr - n * (5 / 100) := by
      rw [hthreshold, mul_sub]
    constructor
    · intro hover
      linarith only [hover, hexcess, hexact, hmean.2, hwide, hpos]
    · intro _
      linarith only [hexcess, hexact, hmean.1, hwide, hpos]

/-- A tick with exact numbers rolls back exactly if the mean is above the threshold. -/
theorem tick_rolledBack_iff (h : c.Watching) (now : ℕ) :
    (∃ reason, (c.tick now).2 = .rolledBack reason) ↔ fprRollbackThreshold < c.calculateCanaryFpr := by
  obtain ⟨p, fraction, hnext, hp⟩ := h.next
  have hphase : ∀ reason, c.currentPhase ≠ .rolledBack reason := by
    obtain h | h | h := h <;> simp [h]
  rw [tick_of_next hnext]
  split_ifs with hfpr hwait hnone
  · exact iff_of_true ⟨_, rfl⟩ hfpr
  · exact iff_of_false (fun ⟨reason, hr⟩ => hphase reason hr) hfpr
  · exact iff_of_false (fun ⟨reason, hr⟩ => by cases hr) hfpr
  · exact iff_of_false (fun ⟨reason, hr⟩ => hp reason hr) hfpr

/-- **Off the margin** the exact numbers of the controller's model decide as those in double precision. -/
theorem tick64_iff_tick {agents : List AgentId} (now : ℕ) (h : c.Watching) (hne : c.sampled.Nonempty)
    (hwalk : c.Walk agents)
    (hoff : c.margin < |∑ agentId ∈ c.sampled, c.excess agentId - c.silent.card * fprRollbackThreshold|) :
    (∃ reason, (c.tick64 agents now).2 = .rolledBack reason) ↔ ∃ reason, (c.tick now).2 = .rolledBack reason := by
  obtain ⟨hover, hunder⟩ := tick64_of_excess now h hne hwalk
  have hpos : (0 : ℚ) < c.canaryAgents.card := by
    exact_mod_cast (hne.mono (Finset.filter_subset _ _)).card_pos
  have hmargin : 0 ≤ c.margin := by
    unfold margin
    positivity
  rw [tick_rolledBack_iff h, ← sub_pos, ← mul_pos_iff_of_pos_left hpos, ← excess_eq hne]
  rcases lt_abs.1 hoff with hoff | hoff
  · exact iff_of_true (hover (by linarith)) (by linarith)
  · exact iff_of_false (fun hback => by linarith [hunder hback]) (by linarith)

/-- **When a high rate is acted on**, in whatever order the agents are walked. A tick rolls back whenever the rate over
all outcomes exceeds the threshold, if in that case the silent agents, at 5% each, weigh less than the excess of the
sampled agents over 5%, but for the error of rounding; and only if, up to this error, they do not weigh more. -/
theorem rollback_on_pooled {agents : List AgentId} (now : ℕ) (h : c.Watching) (hne : c.sampled.Nonempty)
    (hwalk : c.Walk agents) :
    ((fprRollbackThreshold < c.pooledFpr →
      c.silent.card * fprRollbackThreshold + c.margin < ∑ agentId ∈ c.sampled, c.excess agentId) →
        fprRollbackThreshold < c.pooledFpr → ∃ reason, (c.tick64 agents now).2 = .rolledBack reason) ∧
    ((fprRollbackThreshold < c.pooledFpr → ∃ reason, (c.tick64 agents now).2 = .rolledBack reason) →
      fprRollbackThreshold < c.pooledFpr →
        c.silent.card * fprRollbackThreshold ≤ ∑ agentId ∈ c.sampled, c.excess agentId + c.margin) :=
  ⟨fun hexcess hfpr => (tick64_of_excess now h hne hwalk).1 (hexcess hfpr),
    fun hback hfpr => (tick64_of_excess now h hne hwalk).2 (hback hfpr)⟩

/-- Without silent agents and with equally many samples of each agent the excess is that of the pooled rate. -/
theorem excess_of_uniform {m : ℕ} (hm : 0 < m) (hne : c.sampled.Nonempty)
    (hall : ∀ agentId ∈ c.sampled, (c.outcomes agentId).length = m) (hfpr : fprRollbackThreshold < c.pooledFpr) :
    0 < ∑ agentId ∈ c.sampled, c.excess agentId := by
  have hm0 : (0 : ℚ) < m := by exact_mod_cast hm
  have hcard : (0 : ℚ) < c.sampled.card := by exact_mod_cast hne.card_pos
  have hlen : ∑ agentId ∈ c.sampled, ((c.outcomes agentId).length : ℚ) = c.sampled.card * m := by
    rw [Finset.sum_congr rfl fun agentId ha => by rw [hall agentId ha], Finset.sum_const, nsmul_eq_mul]
  have hsum : ∑ agentId ∈ c.sampled, c.excess agentId =
      (∑ agentId ∈ c.sampled, (c.falsePositives agentId : ℚ)) / m - c.sampled.card * fprRollbackThreshold := by
    rw [Finset.sum_congr rfl fun agentId ha => by rw [excess, hall agentId ha], Finset.sum_sub_distrib,
      Finset.sum_const, nsmul_eq_mul, Finset.sum_div]
  rw [pooledFpr, hlen, lt_div_iff₀ (by positivity)] at hfpr
  rw [hsum, sub_pos, lt_div_iff₀ hm0]
  linarith

/-- One agent, all of whose outcomes are false positives, as in the tests. -/
def allFalsePositives : List Event :=
  (0, .registerAgent "agent-0") :: (1, .beginRollout ⟨2, "SIGMA", "rule-2", "rule content v2"⟩) ::
    List.replicate 25 (2, .recordAlertOutcome "agent-0" true)

theorem rollback_on_pooled_storm : (after 0 allFalsePositives).currentPhase = .canary ∧
    ∃ reason, ((after 0 allFalsePositives).tick64 ["agent-0"] 3).2 = .rolledBack reason := by
  have hphase : (after 0 allFalsePositives).currentPhase = .canary := by decide +kernel
  have hwalk : (after 0 allFalsePositives).Walk ["agent-0"] := ⟨by decide, by decide +kernel⟩
  refine ⟨hphase, (rollback_on_pooled 3 (Or.inl hphase) ?_ hwalk).1 (fun _ => ?_) ?_⟩ <;> decide +kernel

/-- Three of five agents have the policy; one has twenty outcomes and two false positives, the others none. -/
def diluted : List Event :=
  ([(0, .registerAgent "agent-0"), (0, .registerAgent "agent-1"), (0, .registerAgent "agent-2"),
    (0, .registerAgent "agent-3"), (0, .registerAgent "agent-4"),
    (1, .beginRollout ⟨2, "SIGMA", "rule-2", "rule content v2"⟩), (300 * 10 ^ 9 + 1, .tick),
    (600 * 10 ^ 9 + 1, .tick)] : List Event) ++
  (List.replicate 2 (600 * 10 ^ 9 + 2, .recordAlertOutcome "agent-0" true) : List Event) ++
  (List.replicate 18 (600 * 10 ^ 9 + 2, .recordAlertOutcome "agent-0" false) : List Event)

/-- A tenth of all outcomes are false positives, and the rollout goes on. -/
theorem rollback_diluted : ¬ ∀ (c : Controller) (agents : List AgentId) (now : ℕ), c.Watching → c.sampled.Nonempty →
    c.Walk agents → fprRollbackThreshold < c.pooledFpr → ∃ reason, (c.tick64 agents now).2 = .rolledBack reason := by
  intro h
  have hphase : (after 0 diluted).Watching := Or.inr (Or.inr (by decide +kernel))
  have hsampled : (after 0 diluted).sampled.Nonempty := by decide +kernel
  have hwalk : (after 0 diluted).Walk ["agent-0", "agent-1", "agent-2"] := ⟨by decide, by decide +kernel⟩
  have hback := h (after 0 diluted) _ (600 * 10 ^ 9 + 3) hphase hsampled hwalk (by decide +kernel)
  have hexcess := (tick64_of_excess (600 * 10 ^ 9 + 3) hphase hsampled hwalk).2 hback
  exact absurd hexcess (by decide +kernel)

/-! ## Within the margin -/

/-- Three agents with 1 false positive of 20 outcomes, 2 of 100 and 16 of 200: the mean of the rates is 5%. -/
def balanced : Controller :=
  { Controller.new 0 with
    currentPhase := .rollout
    canaryAgents := {"agent-0", "agent-1", "agent-2"}
    agentMetrics := fun agentId =>
      if agentId = "agent-0" then some ⟨List.replicate 1 true ++ List.replicate 19 false⟩
      else if agentId = "agent-1" then some ⟨List.replicate 2 true ++ List.replicate 98 false⟩
      else if agentId = "agent-2" then some ⟨List.replicate 16 true ++ List.replicate 184 false⟩
      else none }

/-- **The order of the walk decides**: one order rolls the policy back, the other does not. -/
theorem order_decides : balanced.Watching ∧ fprRollbackThreshold < balanced.pooledFpr ∧
    balanced.Walk ["agent-0", "agent-1", "agent-2"] ∧ balanced.Walk ["agent-0", "agent-2", "agent-1"] ∧
    (∃ reason, (balanced.tick64 ["agent-0", "agent-1", "agent-2"] 0).2 = .rolledBack reason) ∧
    ¬ ∃ reason, (balanced.tick64 ["agent-0", "agent-2", "agent-1"] 0).2 = .rolledBack reason := by
  have hphase : balanced.Watching := Or.inr (Or.inr rfl)
  rw [tick64_rolledBack_iff hphase, tick64_rolledBack_iff hphase]
  refine ⟨hphase, by decide +kernel, ⟨by decide, by decide +kernel⟩, ⟨by decide, by decide +kernel⟩, by decide +kernel,
    by decide +kernel⟩

end ThorFirewall.CanaryRollout
