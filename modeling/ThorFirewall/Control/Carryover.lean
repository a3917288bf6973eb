import Mathlib
import ThorFirewall.Control.PhasedGate

/-!
# Outcomes that outlive a rollout

`begin_rollout` keeps the alert outcomes recorded before it, so a policy is judged by outcomes that are not its own.
Two runs that differ only in outcomes recorded before the last `begin_rollout` return the same phases afterwards if the
metrics of the first half of the agents agree (`phases_eq_of_metrics`); and a run whose later phases depend on its own
outcomes only is one that begins its last rollout without any agent (`judged_alone_iff`).

Rates and their mean are exact here. In binary64 the mean may depend on the order in which the agents are walked.
-/

namespace ThorFirewall.CanaryRollout

open Controller

variable {t₀ t : ℕ} {p : PolicyVersion} {h h' : List Event}

/-! ## Two runs -/

/-- The events other than alert outcomes. -/
def withoutOutcomes (run : List Event) : List Event := run.filter fun e => !e.2.isOutcome

/-- What comes after the last `begin_rollout`: alert outcomes and ticks. -/
def Monitoring (later : List Event) : Prop := ∀ e ∈ later, e.2.isOutcome = true ∨ e.2 = .tick

/-- What the calls after a `begin_rollout` return. -/
def phases (t₀ : ℕ) (h : List Event) (t : ℕ) (p : PolicyVersion) (later : List Event) : List (Option RolloutPhase) :=
  Mealy.outputs step (after t₀ (h ++ [(t, .beginRollout p)])) later

/-- The agents whose metrics a tick can look at: the share of phase Rollout. -/
def watched (c : Controller) : Finset AgentId := c.pool (share .rollout c.allAgents.length)

/-- Two controllers that agree on all a tick looks at. -/
structure Alike (c c' : Controller) : Prop where
  phase : c.currentPhase = c'.currentPhase
  started : c.phaseStartedAt = c'.phaseStartedAt
  agents : c.allAgents = c'.allAgents
  canary : c.canaryAgents = c'.canaryAgents
  inPool : InPool c
  metrics : ∀ a ∈ watched c, c.agentMetrics a = c'.agentMetrics a

section Alike

variable {c c' : Controller}

/-- Before phase Full, the agents with the new policy are watched. -/
theorem InPool.subset_watched (hp : InPool c) (hn : (nextPhase c.currentPhase).isSome) :
    c.canaryAgents ⊆ watched c := by
  rcases Nat.eq_zero_or_pos c.allAgents.length with hz | hpos
  · have hnil : c.allAgents = [] := List.length_eq_zero_iff.1 hz
    refine hp.trans ?_
    simp [pool, hnil]
  · refine hp.trans (pool_subset List.prefix_rfl ?_)
    have hearly : share .early c.allAgents.length ≤ share .rollout c.allAgents.length := share_le_next hpos rfl
    cases hphase : c.currentPhase <;> simp [hphase, nextPhase] at hn
    · exact (share_le_next hpos rfl).trans hearly
    · exact hearly
    · exact le_rfl

theorem Alike.fpr_eq (ha : Alike c c') (hn : (nextPhase c.currentPhase).isSome) :
    c.calculateCanaryFpr = c'.calculateCanaryFpr := by
  have hsum : ∀ a ∈ c.canaryAgents, c.agentFpr a = c'.agentFpr a := by
    intro a hmem
    simp only [agentFpr, ha.metrics a (ha.inPool.subset_watched hn hmem)]
  simp only [calculateCanaryFpr, ← ha.canary, Finset.sum_congr rfl hsum]

/-- A tick returns the same and keeps them alike. -/
theorem Alike.tick (ha : Alike c c') (now : ℕ) :
    (c.tick now).2 = (c'.tick now).2 ∧ Alike (c.tick now).1 (c'.tick now).1 := by
  cases hn : nextPhase c.currentPhase with
  | none =>
    rw [tick_of_last hn, tick_of_last (ha.phase ▸ hn)]
    exact ⟨ha.phase, ha⟩
  | some q =>
    obtain ⟨next, fraction⟩ := q
    have hnext' : nextPhase c'.currentPhase = some (next, fraction) := ha.phase ▸ hn
    have hpool : c.pool (targetCount c.allAgents.length fraction) =
        c'.pool (targetCount c'.allAgents.length fraction) := by simp only [pool, ha.agents]
    rw [tick_of_next hn, tick_of_next hnext', ← ha.fpr_eq (by rw [hn]; rfl), ← ha.started, ← ha.agents, ← ha.phase]
    split_ifs
    · exact ⟨rfl, rfl, ha.started, ha.agents, rfl, Finset.empty_subset _, ha.metrics⟩
    · exact ⟨rfl, ha⟩
    · exact ⟨rfl, ha⟩
    · exact ⟨rfl, rfl, rfl, ha.agents, hpool, pool_subset List.prefix_rfl (share_next hn _).ge, ha.metrics⟩

theorem Alike.record (ha : Alike c c') (a : AgentId) (b : Bool) :
    Alike (c.recordAlertOutcome a b) (c'.recordAlertOutcome a b) := by
  rw [record_eq c, record_eq c']
  refine ⟨ha.phase, ha.started, ha.agents, ha.canary, ha.inPool, fun x hx => ?_⟩
  have hsame := ha.metrics x hx
  by_cases hxa : x = a
  · subst hxa
    unfold recordAlertOutcome
    rw [← hsame]
    cases hm : c.agentMetrics x with
    | none => simpa [hm] using hsame
    | some m => simp
  · unfold recordAlertOutcome
    cases c.agentMetrics a <;> cases c'.agentMetrics a <;> simp [hxa, hsame]

/-- **Every monitoring run** returns the same from controllers that are alike. -/
theorem Alike.outputs_eq (ha : Alike c c') {later : List Event} (hl : Monitoring later) :
    Mealy.outputs step c later = Mealy.outputs step c' later := by
  refine Mealy.outputs_eq_of_sim later ha fun c c' e he ha => ?_
  obtain ⟨now, call⟩ := e
  rcases hl _ he with hout | htick
  · cases call <;> simp [Call.isOutcome] at hout
    exact ⟨rfl, ha.record _ _⟩
  · cases htick
    obtain ⟨hphase, hnext⟩ := ha.tick now
    exact ⟨congrArg some hphase, hnext⟩

end Alike

/-! ## Registered agents -/

/-- The registered agents after one more event. -/
def registered (agents : List AgentId) (e : Event) : List AgentId :=
  match e.2 with
  | .registerAgent a => if a ∈ agents then agents else agents ++ [a]
  | _ => agents

theorem tick_metrics (c : Controller) (now : ℕ) :
    (c.tick now).1.agentMetrics = c.agentMetrics ∧ (c.tick now).1.allAgents = c.allAgents := by
  cases hn : nextPhase c.currentPhase with
  | none =>
    rw [tick_of_last hn]
    exact ⟨rfl, rfl⟩
  | some q =>
    rw [tick_of_next hn]
    split_ifs <;> exact ⟨rfl, rfl⟩

theorem step_allAgents (c : Controller) (e : Event) : (step c e).1.allAgents = registered c.allAgents e := by
  obtain ⟨now, call⟩ := e
  cases call with
  | registerAgent a => rfl
  | beginRollout p => rfl
  | recordAlertOutcome a b =>
    show (c.recordAlertOutcome a b).allAgents = c.allAgents
    rw [record_eq]
  | tick => exact (tick_metrics c now).2

/-- The registered agents do not depend on the outcomes. -/
theorem allAgents_withoutOutcomes (t₀ : ℕ) (run : List Event) :
    (after t₀ (withoutOutcomes run)).allAgents = (after t₀ run).allAgents := by
  induction run using List.reverseRecOn with
  | nil => rfl
  | append_singleton run e ih =>
    rw [after_concat, step_allAgents, ← ih]
    cases ho : e.2.isOutcome with
    | true =>
      have hsame : ∀ agents, registered agents e = agents := by
        intro agents
        obtain ⟨now, call⟩ := e
        cases call <;> simp [Call.isOutcome] at ho
        rfl
      simp [withoutOutcomes, ho, hsame]
    | false =>
      have hkept : withoutOutcomes (run ++ [e]) = withoutOutcomes run ++ [e] := by simp [withoutOutcomes, ho]
      rw [hkept, after_concat, step_allAgents]

theorem allAgents_eq (hs : withoutOutcomes h = withoutOutcomes h') :
    (after t₀ h).allAgents = (after t₀ h').allAgents := by
  rw [← allAgents_withoutOutcomes t₀ h, hs, allAgents_withoutOutcomes t₀ h']

/-- **Agreeing metrics.** If the metrics of the watched agents agree when the rollout begins, the outcomes before it
make no difference. -/
theorem phases_eq_of_metrics (hs : withoutOutcomes h = withoutOutcomes h')
    (hm : ∀ a ∈ watched (after t₀ h), (after t₀ h).agentMetrics a = (after t₀ h').agentMetrics a)
    {later : List Event} (hl : Monitoring later) : phases t₀ h t p later = phases t₀ h' t p later := by
  refine Alike.outputs_eq ?_ hl
  have hagents : (after t₀ h).allAgents = (after t₀ h').allAgents := allAgents_eq hs
  rw [after_concat, after_concat]
  refine ⟨rfl, rfl, hagents, ?_, (inPool_after t₀ h).step _, hm⟩
  show pool _ _ = pool _ _
  simp only [pool, hagents]

/-! ## Outcomes that matter -/

/-- In a run without outcomes the metrics of the registered agents are empty. -/
theorem metrics_withoutOutcomes (t₀ : ℕ) (run : List Event) (ho : ∀ e ∈ run, e.2.isOutcome = false) (a : AgentId) :
    (after t₀ run).agentMetrics a = if a ∈ (after t₀ run).allAgents then some .new else none := by
  induction run using List.reverseRecOn with
  | nil => rfl
  | append_singleton run e ih =>
    have ih := ih fun e' he' => ho e' (by simp [he'])
    have he := ho e (by simp)
    rw [after_concat]
    generalize after t₀ run = c at ih
    obtain ⟨now, call⟩ := e
    cases call with
    | registerAgent b =>
      by_cases hab : a = b
      · subst hab
        by_cases hmem : a ∈ c.allAgents <;> simp [step, registerAgent, ih, hmem]
      · by_cases hmem : b ∈ c.allAgents <;> simp [step, registerAgent, ih, hmem, hab]
    | beginRollout p => exact ih
    | recordAlertOutcome b o => cases he
    | tick =>
      show (c.tick now).1.agentMetrics a = if a ∈ (c.tick now).1.allAgents then some .new else none
      rw [(tick_metrics c now).1, (tick_metrics c now).2]
      exact ih

/-- Twenty false positives for every agent of a list. -/
def storm (t : ℕ) (agents : List AgentId) : List Event :=
  agents.flatMap fun a => List.replicate 20 (t, .recordAlertOutcome a true)

theorem mem_storm {t : ℕ} {agents : List AgentId} {e : Event} (he : e ∈ storm t agents) :
    e.2.isOutcome = true ∧ e.1 = t := by
  simp only [storm, List.mem_flatMap, List.mem_replicate] at he
  obtain ⟨a, -, -, rfl⟩ := he
  exact ⟨rfl, rfl⟩

/-- A storm in front of a rollout is nothing but outcomes. -/
theorem withoutOutcomes_storm (run : List Event) (t : ℕ) (agents : List AgentId) :
    withoutOutcomes (withoutOutcomes run ++ storm t agents) = withoutOutcomes run := by
  have hnone : (storm t agents).filter (fun e => !e.2.isOutcome) = [] :=
    List.filter_eq_nil_iff.2 fun e he => by simp [(mem_storm he).1]
  simp [withoutOutcomes, hnone]

/-- The outcome an event records for an agent. -/
def outcomeOf (a : AgentId) (e : Event) : Option Bool :=
  match e.2 with
  | .recordAlertOutcome b o => if b = a then some o else none
  | _ => none

theorem metrics_record (c : Controller) (a b : AgentId) (o : Bool) :
    (c.recordAlertOutcome b o).agentMetrics a =
      (c.agentMetrics a).map fun m => if b = a then m.record o else m := by
  unfold recordAlertOutcome
  by_cases hab : b = a
  · subst hab
    cases hm : c.agentMetrics b <;> simp [hm]
  · cases hm : c.agentMetrics b <;> simp [hab, Ne.symm hab]

/-- The metrics of an agent after a list of outcomes. -/
theorem metrics_outcomes (a : AgentId) (es : List Event) (ho : ∀ e ∈ es, e.2.isOutcome = true) (c : Controller) :
    (Mealy.after step c es).agentMetrics a =
      (c.agentMetrics a).map fun m => (es.filterMap (outcomeOf a)).foldl AgentMetrics.record m := by
  induction es generalizing c with
  | nil => simp [Mealy.after]
  | cons e es ih =>
    have he := ho e (by simp)
    rw [Mealy.after, ih fun e' he' => ho e' (by simp [he'])]
    obtain ⟨now, call⟩ := e
    cases call <;> simp [Call.isOutcome] at he
    rename_i b o
    show ((c.recordAlertOutcome b o).agentMetrics a).map _ = _
    rw [metrics_record, Option.map_map]
    congr 1
    funext m
    by_cases hab : b = a <;> simp [outcomeOf, hab]

theorem outcomes_storm (a : AgentId) (t : ℕ) (agents : List AgentId) :
    (storm t agents).filterMap (outcomeOf a) = List.replicate (20 * agents.count a) true := by
  induction agents with
  | nil => rfl
  | cons b agents ih =>
    have hcons : storm t (b :: agents) = List.replicate 20 (t, .recordAlertOutcome b true) ++ storm t agents := rfl
    rw [hcons, List.filterMap_append, ih]
    by_cases hab : b = a
    · have hb : outcomeOf a (t, .recordAlertOutcome b true) = some true := by simp [outcomeOf, hab]
      rw [List.filterMap_replicate_of_some hb, List.replicate_append_replicate, hab, List.count_cons_self]
      congr 1
      omega
    · simp [outcomeOf, hab]

theorem tail_replicate_concat {n : ℕ} (hn : 0 < n) : (List.replicate n true).tail ++ [true] = List.replicate n true := by
  obtain ⟨n, rfl⟩ := Nat.exists_eq_add_one.2 hn
  rw [List.tail_replicate, Nat.add_sub_cancel, ← List.replicate_succ']

/-- Recording false positives only. -/
theorem record_replicate (j k : ℕ) (hj : j ≤ 200) :
    (List.replicate k true).foldl AgentMetrics.record ⟨List.replicate j true⟩ =
      ⟨List.replicate (min (j + k) 200) true⟩ := by
  induction k generalizing j with
  | zero => simp [hj]
  | succ k ih =>
    have hone : AgentMetrics.record ⟨List.replicate j true⟩ true = ⟨List.replicate (min (j + 1) 200) true⟩ := by
      rcases Nat.lt_or_ge j 200 with hlt | hge
      · have hmin : min (j + 1) 200 = j + 1 := by omega
        simp [AgentMetrics.record, hmin, List.replicate_succ', Nat.not_le.2 hlt]
      · have hmin : min (j + 1) 200 = j := by omega
        simp only [AgentMetrics.record, List.length_replicate, if_pos hge, hmin]
        rw [tail_replicate_concat (by omega)]
    rw [List.replicate_succ, List.foldl_cons, hone, ih _ (by omega)]
    congr 2
    omega

theorem fpr_replicate {k : ℕ} (hk : 20 ≤ k) : AgentMetrics.fpr ⟨List.replicate k true⟩ = 1 := by
  have hpos : (k : ℚ) ≠ 0 := by
    have : 0 < k := by omega
    exact_mod_cast this.ne'
  simp [AgentMetrics.fpr, minSampleSize, Nat.not_lt.2 hk, hpos]

/-- The agents of the first phase. -/
theorem canary_begin (c : Controller) (now : ℕ) (p : PolicyVersion) :
    (c.beginRollout now p).canaryAgents = c.pool (canaryCount c.allAgents.length) := rfl

theorem pool_canary_nonempty {c : Controller} (hne : c.allAgents ≠ []) :
    (c.pool (canaryCount c.allAgents.length)).Nonempty := by
  obtain ⟨a, l, hl⟩ := List.exists_cons_of_ne_nil hne
  have hone : 1 ≤ canaryCount c.allAgents.length := Nat.le_floor (by simp)
  obtain ⟨k, hk⟩ := Nat.exists_eq_add_of_le' hone
  refine ⟨a, ?_⟩
  rw [hk]
  simp [pool, hl]

/-- If every agent of the first phase contributes the same rate, that is the rate. -/
theorem fpr_begin_of_const {c : Controller} {now : ℕ} {p : PolicyVersion} {q : ℚ} (hne : c.allAgents ≠ [])
    (hq : ∀ a ∈ c.allAgents, c.agentFpr a = q) : (c.beginRollout now p).calculateCanaryFpr = q := by
  have hpool := pool_canary_nonempty hne
  have hsum : ∑ a ∈ c.pool (canaryCount c.allAgents.length), (c.beginRollout now p).agentFpr a =
      (c.pool (canaryCount c.allAgents.length)).card * q := by
    rw [← nsmul_eq_mul, ← Finset.sum_const]
    refine Finset.sum_congr rfl fun a ha => hq a ?_
    exact List.mem_of_mem_take (List.mem_toFinset.1 ha)
  have hcard : ((c.pool (canaryCount c.allAgents.length)).card : ℚ) ≠ 0 := by
    exact_mod_cast hpool.card_pos.ne'
  rw [calculateCanaryFpr, canary_begin, if_neg hpool.ne_empty, hsum]
  field_simp

/-- A tick right after the `begin_rollout` decides by the rate alone. -/
theorem phases_tick (t₀ : ℕ) (h : List Event) (t : ℕ) (p : PolicyVersion) :
    phases t₀ h t p [(t, .tick)] =
      [some (if fprRollbackThreshold < ((after t₀ h).beginRollout t p).calculateCanaryFpr
        then .rolledBack (rollbackReason ((after t₀ h).beginRollout t p).calculateCanaryFpr) else .canary)] := by
  have hafter : after t₀ (h ++ [(t, .beginRollout p)]) = (after t₀ h).beginRollout t p := after_concat ..
  have hnow : t - ((after t₀ h).beginRollout t p).phaseStartedAt < observationWindow := by
    show t - t < observationWindow
    simp [observationWindow]
  rw [phases, hafter]
  simp only [Mealy.outputs, step]
  rw [tick_of_next (rfl : nextPhase .canary = _), if_pos hnow]
  split_ifs <;> rfl

/-! ## Judged by its own outcomes -/

/-- The phases after the `begin_rollout` do not depend on the outcomes recorded before it. -/
def JudgedAlone (t₀ : ℕ) (h : List Event) (t : ℕ) (p : PolicyVersion) : Prop :=
  ∀ h' later, Timed t₀ (h ++ (t, .beginRollout p) :: later) → Timed t₀ (h' ++ (t, .beginRollout p) :: later) →
    withoutOutcomes h = withoutOutcomes h' → Monitoring later → phases t₀ h t p later = phases t₀ h' t p later

/-- Events at time `t` behind some of the events of a run that reaches `t`. -/
theorem Timed.append_const {run : List Event} {e : Event} (hT : Timed t₀ (run ++ [e])) {sub rest : List Event}
    (hsub : sub.Sublist run) (hrest : ∀ e' ∈ rest, e'.1 = e.1) : Timed t₀ (sub ++ rest) := by
  have hle : ∀ x ∈ t₀ :: sub.map Prod.fst, x ≤ e.1 := by
    intro x hx
    rw [Timed, List.map_append, ← List.cons_append] at hT
    refine (List.pairwise_append.1 hT).2.2 x ?_ e.1 (by simp)
    exact ((hsub.map Prod.fst).cons_cons t₀).subset hx
  have htimes : ∀ x ∈ rest.map Prod.fst, x = e.1 := by simpa using hrest
  rw [Timed, List.map_append, ← List.cons_append, List.pairwise_append]
  refine ⟨(hT.of_prefix (List.prefix_append _ _)).sublist ((hsub.map Prod.fst).cons_cons t₀), ?_, ?_⟩
  · refine List.Pairwise.imp_of_mem (fun hx hy _ => ?_) (List.pairwise_of_forall fun _ _ => trivial)
    rw [htimes _ hx, htimes _ hy]
  · intro x hx y hy
    rw [htimes y hy]
    exact hle x hx

/-- Without outcomes the rate is zero. -/
theorem fpr_withoutOutcomes (hne : (after t₀ h).allAgents ≠ []) :
    ((after t₀ (withoutOutcomes h)).beginRollout t p).calculateCanaryFpr = 0 := by
  refine fpr_begin_of_const (by rwa [allAgents_withoutOutcomes]) fun a ha => ?_
  have hm := metrics_withoutOutcomes t₀ (withoutOutcomes h) (by simp [withoutOutcomes]) a
  rw [if_pos ha] at hm
  simp [agentFpr, hm, AgentMetrics.fpr, AgentMetrics.new, minSampleSize]

/-- With a storm it is one. -/
theorem fpr_storm (hne : (after t₀ h).allAgents ≠ []) :
    ((after t₀ (withoutOutcomes h ++ storm t (after t₀ h).allAgents)).beginRollout t p).calculateCanaryFpr = 1 := by
  have hagents : (after t₀ (withoutOutcomes h ++ storm t (after t₀ h).allAgents)).allAgents =
      (after t₀ h).allAgents := allAgents_eq (withoutOutcomes_storm h t _)
  refine fpr_begin_of_const (by rwa [hagents]) fun a ha => ?_
  rw [hagents] at ha
  have hm := metrics_withoutOutcomes t₀ (withoutOutcomes h) (by simp [withoutOutcomes]) a
  rw [allAgents_withoutOutcomes, if_pos ha] at hm
  have hcount : 0 < (after t₀ h).allAgents.count a := List.count_pos_iff.2 ha
  have hmetrics : (after t₀ (withoutOutcomes h ++ storm t (after t₀ h).allAgents)).agentMetrics a =
      some ⟨List.replicate (min (0 + 20 * (after t₀ h).allAgents.count a) 200) true⟩ := by
    have hrun : after t₀ (withoutOutcomes h ++ storm t (after t₀ h).allAgents) =
        Mealy.after step (after t₀ (withoutOutcomes h)) (storm t (after t₀ h).allAgents) := Mealy.after_append ..
    rw [hrun, metrics_outcomes a _ fun e he => (mem_storm he).1, hm, Option.map_some, outcomes_storm]
    exact congrArg some (record_replicate 0 _ (Nat.zero_le _))
  rw [agentFpr, hmetrics]
  exact fpr_replicate (by omega)

/-- The outcomes before a rollout can be changed so that the first tick decides otherwise. -/
theorem not_judgedAlone (hT : Timed t₀ (h ++ [(t, .beginRollout p)])) (hne : (after t₀ h).allAgents ≠ []) :
    ¬ JudgedAlone t₀ h t p := by
  intro hj
  have hconst : ∀ e ∈ [(t, .beginRollout p), (t, .tick)], (e : Event).1 = t := by simp
  have hlate : Monitoring [(t, .tick)] := by simp [Monitoring]
  have hown := hT.append_const (List.Sublist.refl h) hconst
  rcases lt_or_ge fprRollbackThreshold ((after t₀ h).beginRollout t p).calculateCanaryFpr with hhigh | hlow
  · -- rolled back with these outcomes, not without any
    have hsame := hj (withoutOutcomes h) [(t, .tick)] hown
      (hT.append_const List.filter_sublist hconst) (by simp [withoutOutcomes]) hlate
    rw [phases_tick, phases_tick, fpr_withoutOutcomes hne, if_pos hhigh, if_neg (by norm_num [fprRollbackThreshold])]
      at hsame
    simp at hsame
  · -- not rolled back with these outcomes, but with a storm
    have htimed : Timed t₀ ((withoutOutcomes h ++ storm t (after t₀ h).allAgents) ++
        [(t, .beginRollout p), (t, .tick)]) := by
      rw [List.append_assoc]
      refine hT.append_const List.filter_sublist fun e he => ?_
      rcases List.mem_append.1 he with hs | hl
      · exact (mem_storm hs).2
      · exact hconst e hl
    have hsame := hj _ [(t, .tick)] hown htimed (withoutOutcomes_storm h t _).symm hlate
    rw [phases_tick, phases_tick, fpr_storm hne, if_neg (not_lt.2 hlow), if_pos (by norm_num [fprRollbackThreshold])]
      at hsame
    simp at hsame

/-- **Whose outcomes.** The outcomes recorded before the last `begin_rollout` never matter exactly when no agent is
registered by then; and two runs that differ in them only return the same phases afterwards when the metrics of the
watched agents agree. -/
theorem judged_alone_iff (t₀ : ℕ) (h : List Event) (t : ℕ) (p : PolicyVersion)
    (hT : Timed t₀ (h ++ [(t, .beginRollout p)])) :
    (JudgedAlone t₀ h t p ↔ (after t₀ h).allAgents = []) ∧
      ∀ h' later, withoutOutcomes h = withoutOutcomes h' → Monitoring later →
        (∀ a ∈ watched (after t₀ h), (after t₀ h).agentMetrics a = (after t₀ h').agentMetrics a) →
        phases t₀ h t p later = phases t₀ h' t p later := by
  refine ⟨⟨fun hj => ?_, fun hnil h' later _ _ hs hl => ?_⟩, fun h' later hs hl hm => phases_eq_of_metrics hs hm hl⟩
  · by_contra hne
    exact not_judgedAlone hT hne hj
  · refine phases_eq_of_metrics hs (fun a ha => ?_) hl
    simp [watched, pool, hnil] at ha

/-- An agent with twenty false positives under the policy before. -/
def stormy : List Event :=
  (0, .registerAgent "agent-0") :: (1, .beginRollout ⟨1, "SIGMA", "rule-1", "rule content v1"⟩) ::
    List.replicate 20 (2, .recordAlertOutcome "agent-0" true)

theorem judged_alone_unregistered :
    JudgedAlone 0 [] 3 ⟨2, "SIGMA", "rule-2", "rule content v2"⟩ ∧
      ¬ JudgedAlone 0 stormy 3 ⟨2, "SIGMA", "rule-2", "rule content v2"⟩ := by
  refine ⟨((judged_alone_iff 0 [] 3 _ (by decide)).1).2 rfl, fun hj => ?_⟩
  have hnil := ((judged_alone_iff 0 stormy 3 _ (by decide)).1).1 hj
  revert hnil
  decide +kernel

/-- The policy after it is rolled back without an outcome of its own. -/
theorem judged_by_others : ¬ ∀ (t₀ : ℕ) (h h' : List Event) (t : ℕ) (p : PolicyVersion) (later : List Event),
    Timed t₀ (h ++ (t, .beginRollout p) :: later) → Timed t₀ (h' ++ (t, .beginRollout p) :: later) →
    withoutOutcomes h = withoutOutcomes h' → Monitoring later → phases t₀ h t p later = phases t₀ h' t p later := by
  intro hall
  have hsame := hall 0 stormy (stormy.take 2) 3 ⟨2, "SIGMA", "rule-2", "rule content v2"⟩ [(3, .tick)]
    (by decide +kernel) (by decide +kernel) (by decide +kernel) (by simp [Monitoring])
  revert hsame
  decide +kernel

end ThorFirewall.CanaryRollout
