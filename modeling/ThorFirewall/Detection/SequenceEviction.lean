import Mathlib
import ThorFirewall.Detection.SequenceCompleteness

/-!
# Evictions and alerts

A run is compared with the run of its events alone (`withoutEvictions`). Two states are alike when they agree but for
expired entries (`Alike`): `process_rule` tests the entry it finds, so they raise the same alerts and stay alike. An
eviction of expired entries gives a state that is alike; the ceiling of the inline eviction does so for the windows
within it (`invisible_of_spares`). A rule with a longer window that some events can complete loses an alert: its first
event is evicted before the others (`evicted_visible`).
-/

namespace ThorFirewall.Detection

variable {r : SequenceRule} {rules : List SequenceRule} {x : String} {acts : List Action} {c : Cell} {now : ℕ}
  {s s' : SequenceDetector} {event : EnrichedEvent}

/-! ## A run and its events -/

def Action.isEvent : Action → Bool
  | process _ _ _ => true
  | cleanup _ => false
  | inlineEvict _ => false

/-- The event of an action, without the eviction that it may begin with. -/
def Action.calm : Action → Option Action
  | process event now _ => some (process event now false)
  | cleanup _ => none
  | inlineEvict _ => none

/-- The events of a run, with no eviction. -/
def withoutEvictions (acts : List Action) : List Action := acts.filterMap Action.calm

/-- The alerts that the events of a run return. -/
def eventAlerts (rules : List SequenceRule) (acts : List Action) : List (List (SequenceRule × Alert)) :=
  ((acts.zip (alerts rules acts)).filter (·.1.isEvent)).map (·.2)

/-- The events return what they return with no eviction. -/
def Invisible (rules : List SequenceRule) (acts : List Action) : Prop :=
  eventAlerts rules acts = alerts rules (withoutEvictions acts)

theorem after_concat (rules : List SequenceRule) (acts : List Action) (a : Action) :
    after rules (acts ++ [a]) = (step rules (after rules acts) a).1 := Mealy.after_concat _ _ _ _

theorem alerts_concat (rules : List SequenceRule) (acts : List Action) (a : Action) :
    alerts rules (acts ++ [a]) = alerts rules acts ++ [(step rules (after rules acts) a).2] :=
  Mealy.outputs_concat _ _ _ _

theorem eventAlerts_concat (rules : List SequenceRule) (acts : List Action) (a : Action) :
    eventAlerts rules (acts ++ [a]) =
      eventAlerts rules acts ++ if a.isEvent then [(step rules (after rules acts) a).2] else [] := by
  have hlen : acts.length = (alerts rules acts).length := (Mealy.length_outputs _ _ _).symm
  rw [eventAlerts, alerts_concat, List.zip_append hlen, List.filter_append, List.map_append, eventAlerts]
  congr 1
  cases h : a.isEvent <;> simp [h]

/-! ## States that are alike -/

def Alike (now : ℕ) (s s' : SequenceDetector) : Prop :=
  ∀ key : SeqKey, Cell.live s.pending[key]? now = Cell.live s'.pending[key]? now

/-- What has expired stays so. -/
theorem live_live {t t' : ℕ} (h : t ≤ t') (c : Cell) : Cell.live (c.live t) t' = c.live t' := by
  apply Option.ext
  intro p
  rw [live_eq_some, live_eq_some, live_eq_some, and_assoc]
  refine and_congr_right fun _ => and_iff_right_of_imp fun hexp => ?_
  simp only [PendingSequence.isExpired, decide_eq_false_iff_not] at hexp ⊢
  omega

theorem Alike.mono {t t' : ℕ} (h : Alike t s s') (ht : t ≤ t') : Alike t' s s' := by
  intro key
  rw [← live_live ht, h key, live_live ht]

theorem processRule_alike (h : Alike now s s') (rule : SequenceRule) (event : EnrichedEvent) :
    (s.processRule rule event now).2 = (s'.processRule rule event now).2 ∧
      Alike now (s.processRule rule event now).1 (s'.processRule rule event now).1 := by
  obtain ⟨hcell, hout⟩ := processRule_spec s rule event now
  obtain ⟨hcell', hout'⟩ := processRule_spec s' rule event now
  have hadv : advance rule s.pending[(rule.id, extractEntityKey rule event)]? event now =
      advance rule s'.pending[(rule.id, extractEntityKey rule event)]? event now := advance_congr (h _)
  refine ⟨by rw [hout, hout', hadv], fun key => ?_⟩
  rw [hcell, hcell', hadv]
  split_ifs with hk
  · rfl
  · exact h key

theorem processRules_alike (h : Alike now s s') (event : EnrichedEvent) (rules : List SequenceRule) :
    (s.processRules event now rules).2 = (s'.processRules event now rules).2 ∧
      Alike now (s.processRules event now rules).1 (s'.processRules event now rules).1 := by
  induction rules generalizing s s' with
  | nil => exact ⟨rfl, h⟩
  | cons rule rules ih =>
    obtain ⟨hout, hnext⟩ := processRule_alike h rule event
    obtain ⟨houts, hlast⟩ := ih hnext
    simp only [SequenceDetector.processRules]
    exact ⟨by rw [hout, houts], hlast⟩

/-- The inline eviction of an action drops no entry that has not expired. -/
def SparesAll (s : SequenceDetector) : Action → Prop
  | .process _ now roll => roll = true → ∀ key : SeqKey, Spares s.pending[key]? now
  | .cleanup _ => True
  | .inlineEvict now => ∀ key : SeqKey, Spares s.pending[key]? now

/-- An event, with an eviction or without one. -/
theorem alike_process (rules : List SequenceRule) {roll : Bool} (h : Alike now s s') (hspares : SparesAll s (.process event now roll)) :
    (step rules s (.process event now roll)).2 = (step rules s' (.process event now false)).2 ∧
      Alike now (step rules s (.process event now roll)).1 (step rules s' (.process event now false)).1 := by
  refine processRules_alike (fun key => ?_) event rules
  rw [rolled_pending, rolled_pending]
  cases roll with
  | false => exact h key
  | true => exact (hspares rfl key).trans (h key)

/-- An eviction. -/
theorem alike_evict {a : Action} (h : Alike a.now s s') (ha : a.isEvent = false) (hspares : SparesAll s a) :
    Alike a.now (step rules s a).1 s' := by
  intro key
  cases a with
  | process event now roll => cases ha
  | cleanup now =>
    refine (congrArg (Cell.live · now) (cleanupExpired_pending s now key)).trans ?_
    exact (live_live (le_refl now) _).trans (h key)
  | inlineEvict now =>
    refine (congrArg (Cell.live · now) (inlineEvictExpired_pending s now key)).trans ?_
    exact (hspares key).trans (h key)

/-- **An eviction of expired entries is invisible.** Step by step, the run and the run of its events are alike. -/
theorem invisible_of_spares (hclock : Monotone acts)
    (hspares : ∀ p a, p ++ [a] <+: acts → SparesAll (after rules p) a) :
    Invisible rules acts ∧ ∀ t, (∀ a ∈ acts, a.now ≤ t) → Alike t (after rules acts) (after rules (withoutEvictions acts)) := by
  induction acts using List.reverseRecOn with
  | nil => exact ⟨rfl, fun _ _ _ => rfl⟩
  | append_singleton acts a ih =>
    rw [Monotone, List.map_append, List.pairwise_append] at hclock
    have hbefore : ∀ b ∈ acts, b.now ≤ a.now :=
      fun b hb => hclock.2.2 b.now (List.mem_map_of_mem hb) a.now List.mem_cons_self
    obtain ⟨hsame, halike⟩ := ih hclock.1 fun p b hp => hspares p b (hp.trans (List.prefix_append _ _))
    have hnow : Alike a.now (after rules acts) (after rules (withoutEvictions acts)) := halike a.now hbefore
    have hspare := hspares acts a (List.prefix_refl _)
    have hlater : ∀ t, (∀ b ∈ acts ++ [a], b.now ≤ t) → a.now ≤ t :=
      fun t ht => ht a (List.mem_append_right _ List.mem_cons_self)
    have hsplit : withoutEvictions (acts ++ [a]) = withoutEvictions acts ++ a.calm.toList := by
      rw [withoutEvictions, List.filterMap_append, withoutEvictions]
      cases a <;> rfl
    rw [Invisible, eventAlerts_concat, hsame, after_concat, hsplit]
    cases hcalm : a.calm with
    | none =>
      have hevict : a.isEvent = false := by cases a <;> first | rfl | cases hcalm
      rw [hevict, Option.toList_none, List.append_nil]
      exact ⟨List.append_nil _, fun t ht => (alike_evict hnow hevict hspare).mono (hlater t ht)⟩
    | some b =>
      cases a with
      | process event now roll =>
        cases hcalm
        obtain ⟨hout, hnext⟩ := alike_process rules hnow hspare
        rw [Option.toList_some, alerts_concat, after_concat]
        exact ⟨congrArg (fun out => _ ++ [out]) hout, fun t ht => hnext.mono (hlater t ht)⟩
      | cleanup now => cases hcalm
      | inlineEvict now => cases hcalm

/-! ## Windows within the ceiling -/

/-- The windows of the entries are windows of rules. -/
def Windowed (rules : List SequenceRule) (s : SequenceDetector) : Prop :=
  ∀ (key : SeqKey) p, s.pending[key]? = some p → ∃ r ∈ rules, p.ruleWindow = r.window

theorem processRule_windowed (h : Windowed rules s) (hr : r ∈ rules) (event : EnrichedEvent) (now : ℕ) :
    Windowed rules (s.processRule r event now).1 := by
  intro key p hp
  rw [(processRule_spec s r event now).1] at hp
  split_ifs at hp with hk
  · rcases (advance_entry hp).2 with hp | ⟨-, rfl⟩ | ⟨q, hq, -, -, rfl⟩
    · exact h _ p (live_eq_some.1 hp).1
    · exact ⟨r, hr, rfl⟩
    · exact h _ q (live_eq_some.1 hq).1
  · exact h key p hp

theorem processRules_windowed {rs : List SequenceRule} (h : Windowed rules s) (hrs : rs ⊆ rules) (event : EnrichedEvent)
    (now : ℕ) : Windowed rules (s.processRules event now rs).1 := by
  induction rs generalizing s with
  | nil => exact h
  | cons r rs ih =>
    rw [List.cons_subset] at hrs
    exact ih (processRule_windowed h hrs.1 event now) hrs.2

theorem windowed_after (rules : List SequenceRule) (acts : List Action) : Windowed rules (after rules acts) := by
  refine Mealy.after_inv (P := Windowed rules) (fun key p hp => by cases hp) (fun s a h => ?_) acts
  cases a with
  | process event now roll =>
    refine processRules_windowed (fun key p hp => ?_) (List.Subset.refl _) event now
    rw [rolled_pending] at hp
    exact h key p (eq_of_rolled hp)
  | cleanup now =>
    intro key p hp
    exact h key p (live_eq_some.1 ((cleanupExpired_pending s now key).symm.trans hp)).1
  | inlineEvict now =>
    intro key p hp
    exact h key p (young_eq_some.1 ((inlineEvictExpired_pending s now key).symm.trans hp)).1

theorem sparesAll_of_window_le (hwindow : ∀ r ∈ rules, r.window ≤ ceiling) (acts : List Action) (a : Action) :
    SparesAll (after rules acts) a := by
  have hspares : ∀ (key : SeqKey) now, Spares (after rules acts).pending[key]? now := by
    intro key now
    refine spares_of_window_le (fun p hp => ?_) now
    obtain ⟨r, hr, hpr⟩ := windowed_after rules acts key p hp
    exact hpr ▸ hwindow r hr
  cases a with
  | process event now roll => exact fun _ key => hspares key now
  | cleanup now => trivial
  | inlineEvict now => exact fun key => hspares key now

/-! ## Rules that events can complete -/

/-- Some entity has an event for each stage. -/
def Completable (r : SequenceRule) : Prop :=
  2 ≤ r.stages.length ∧ ∃ x, ∀ i < r.stages.length, ∃ event, extractEntityKey r event = x ∧ r.matchesAt i event

theorem completable_of_cellAlerts {n : ℕ} {alert : Alert} (h : (cellAlerts r x acts)[n]? = some (some alert)) :
    Completable r := by
  have hk := two_le_of_cellAlerts h
  obtain ⟨w, hocc, -, -⟩ := cellAlerts_occurrence hk h
  refine ⟨hk, x, fun i hi => ?_⟩
  obtain ⟨event, now, roll, -, hx, hm⟩ :=
    hocc.stages i _ (List.getElem?_eq_getElem (by rw [hocc.complete]; exact hi))
  exact ⟨event, hx, hm⟩

theorem processRules_out (hids : (rules.map (·.id)).Nodup) (s : SequenceDetector) (event : EnrichedEvent) (now : ℕ) :
    (s.processRules event now rules).2 = rules.filterMap fun r =>
      (advance r s.pending[(r.id, extractEntityKey r event)]? event now).2.map fun alert => (r, alert) := by
  induction rules generalizing s with
  | nil => rfl
  | cons rule rules ih =>
    rw [List.map_cons, List.nodup_cons] at hids
    have hrest : ∀ r ∈ rules, (s.processRule rule event now).1.pending[(r.id, extractEntityKey r event)]? =
        s.pending[(r.id, extractEntityKey r event)]? := by
      intro r hr
      exact processRule_frame s rule event now fun h => hids.1 (List.mem_map.2 ⟨r, hr, h⟩)
    simp only [SequenceDetector.processRules]
    rw [ih hids.2, (processRule_spec s rule event now).2, List.filterMap_cons]
    have hcongr := List.filterMap_congr fun r hr => congrArg
      (fun c => (advance r c event now).2.map fun alert => (r, alert)) (hrest r hr)
    rw [hcongr]
    cases (advance rule s.pending[(rule.id, extractEntityKey rule event)]? event now).2 <;> rfl

/-- The alerts of an event, cell by cell. -/
theorem step_out (hids : (rules.map (·.id)).Nodup) (acts : List Action) (event : EnrichedEvent) (now : ℕ) (roll : Bool) :
    (step rules (after rules acts) (.process event now roll)).2 = rules.filterMap fun r =>
      (advance r ((cellAfter r (extractEntityKey r event) acts).rolled now roll) event now).2.map fun alert =>
        (r, alert) := by
  simp only [step, SequenceDetector.process]
  rw [processRules_out hids]
  refine List.filterMap_congr fun r hr => ?_
  rw [← after_pending hids hr, rolled_pending]

open Classical in
/-- The other rules raise no alert: without them, the alerts are the same. -/
theorem alerts_filter (hids : (rules.map (·.id)).Nodup) (acts : List Action) :
    alerts (rules.filter fun r => Completable r) acts = alerts rules acts := by
  have hids' : ((rules.filter fun r => decide (Completable r)).map (·.id)).Nodup :=
    (List.filter_sublist.map _).nodup hids
  induction acts using List.reverseRecOn with
  | nil => rfl
  | append_singleton acts a ih =>
    rw [alerts_concat, alerts_concat, ih]
    congr 2
    cases a with
    | process event now roll =>
      rw [step_out hids', step_out hids, List.filterMap_filter]
      refine List.filterMap_congr fun r hr => ?_
      split_ifs with hcomp
      · rfl
      · rw [eq_comm, Option.map_eq_none_iff]
        cases hout : (advance r ((cellAfter r (extractEntityKey r event) acts).rolled now roll) event now).2 with
        | none => rfl
        | some alert =>
          have halert : (cellAlerts r (extractEntityKey r event) (acts ++ [.process event now roll]))[acts.length]? =
              some (some alert) :=
            cellAlerts_iff.2 ⟨event, now, roll, List.getElem?_concat_length, rfl, by rw [List.take_left, hout]⟩
          exact absurd (decide_eq_true (completable_of_cellAlerts halert)) hcomp
    | cleanup now => rfl
    | inlineEvict now => rfl

theorem eventAlerts_eq (h : ∀ a ∈ acts, a.isEvent) : eventAlerts rules acts = alerts rules acts := by
  have hall : ∀ p ∈ acts.zip (alerts rules acts), p.1.isEvent := fun p hp => h p.1 (List.of_mem_zip hp).1
  rw [eventAlerts, List.filter_eq_self.2 hall, List.map_snd_zip]
  exact (Mealy.length_outputs _ _ _).le

/-! ## A window beyond the ceiling -/

section Stretched

/-- The first event, and the others when the ceiling has passed. -/
def stretched (e : ℕ → EnrichedEvent) (roll : ℕ → Bool) (n : ℕ) : List Action :=
  (List.range n).map fun i => .process (e i) (if i = 0 then 0 else ceiling + 1) (roll i)

variable {e : ℕ → EnrichedEvent} {roll : ℕ → Bool}

theorem stretched_succ (e : ℕ → EnrichedEvent) (roll : ℕ → Bool) (n : ℕ) : stretched e roll (n + 1) =
    stretched e roll n ++ [.process (e n) (if n = 0 then 0 else ceiling + 1) (roll n)] := by
  rw [stretched, List.range_succ, List.map_append]
  rfl

theorem stretched_monotone (e : ℕ → EnrichedEvent) (roll : ℕ → Bool) (n : ℕ) : Monotone (stretched e roll n) := by
  rw [Monotone, stretched, List.map_map, List.pairwise_map]
  refine List.pairwise_lt_range.imp fun {i j} hij => ?_
  change (if i = 0 then 0 else ceiling + 1) ≤ if j = 0 then 0 else ceiling + 1
  split_ifs <;> omega

theorem withoutEvictions_stretched (e : ℕ → EnrichedEvent) (roll : ℕ → Bool) (n : ℕ) :
    withoutEvictions (stretched e roll n) = stretched e (fun _ => false) n := by
  rw [withoutEvictions, stretched, stretched, List.filterMap_map, ← List.filterMap_eq_map]
  rfl

theorem cellAfter_stretched (hx : extractEntityKey r (e n) = x) : cellAfter r x (stretched e roll (n + 1)) =
    (advance r ((cellAfter r x (stretched e roll n)).rolled (if n = 0 then 0 else ceiling + 1) (roll n)) (e n)
      (if n = 0 then 0 else ceiling + 1)).1 := by
  rw [stretched_succ, cellAfter, Mealy.after_concat]
  simp only [Cell.step, Cell.feed, if_pos hx]
  rfl

theorem cellAlerts_stretched (hx : extractEntityKey r (e n) = x) :
    (cellAlerts r x (stretched e roll (n + 1)))[n]? =
      some (advance r ((cellAfter r x (stretched e roll n)).rolled (if n = 0 then 0 else ceiling + 1) (roll n)) (e n)
        (if n = 0 then 0 else ceiling + 1)).2 := by
  have hlen : (stretched e roll n).length = n := by simp [stretched]
  have hact : (stretched e roll n ++ [.process (e n) (if n = 0 then 0 else ceiling + 1) (roll n)])[n]? =
      some (.process (e n) (if n = 0 then 0 else ceiling + 1) (roll n)) := by
    rw [List.getElem?_append_right hlen.le, hlen, Nat.sub_self]
    rfl
  rw [stretched_succ, cellAlerts_at hact, List.take_left' hlen]
  simp only [Cell.step, Cell.feed, if_pos hx]

/-- A match of the first event has not expired when the ceiling has passed. -/
theorem live_stretched (hwindow : ceiling < r.window) {p : PendingSequence} (hp : c = some p) (hstart : p.windowStart = 0)
    (hpw : p.ruleWindow = r.window) : (c.rolled (ceiling + 1) false).live (ceiling + 1) = some p := by
  refine live_eq_some.2 ⟨hp, ?_⟩
  simp only [PendingSequence.isExpired, decide_eq_false_iff_not, hpw, hstart]
  omega

/-- Without an eviction, the match goes on from stage to stage. -/
theorem calm_reaches (hwindow : ceiling < r.window) (hkey : ∀ i < r.stages.length, extractEntityKey r (e i) = x)
    (hm : ∀ i < r.stages.length, r.matchesAt i (e i)) (n : ℕ) (hn : n + 1 < r.stages.length) :
    ∃ p, cellAfter r x (stretched e (fun _ => false) (n + 1)) = some p ∧ p.nextStage = n + 1 ∧ p.windowStart = 0 ∧
      p.ruleWindow = r.window := by
  induction n with
  | zero =>
    rw [cellAfter_stretched (hkey 0 (by omega)), if_pos rfl, advance_none rfl (hm 0 (by omega))]
    exact ⟨_, rfl, rfl, rfl, rfl⟩
  | succ n ih =>
    obtain ⟨p, hp, hstage, hstart, hpw⟩ := ih (by omega)
    rw [cellAfter_stretched (hkey (n + 1) (by omega)), if_neg (Nat.succ_ne_zero n)]
    have hlive := live_stretched hwindow hp hstart hpw
    rw [advance_fires hlive (by omega) (by omega) (hstage ▸ hm (n + 1) (by omega)), if_neg (by omega)]
    exact ⟨p.push (e (n + 1)), rfl, by rw [PendingSequence.push, hstage], hstart, hpw⟩

/-- With an eviction before the second event, it is a stage behind. -/
theorem evicted_behind (hkey : ∀ i < r.stages.length, extractEntityKey r (e i) = x) (n : ℕ) (hn : n + 1 < r.stages.length)
    {p : PendingSequence}
    (hp : (cellAfter r x (stretched e (· == 1) (n + 1))).rolled (ceiling + 1) (n + 1 == 1) = some p) : p.nextStage ≤ n := by
  induction n generalizing p with
  | zero =>
    -- the first event is older than the ceiling
    rw [cellAfter_stretched (hkey 0 (by omega)), if_pos rfl] at hp
    obtain ⟨hcell, hyoung⟩ := young_eq_some.1 hp
    rcases (advance_entry hcell).2 with hlive | ⟨-, rfl⟩ | ⟨q, hlive, -⟩
    · cases hlive
    · simp [PendingSequence.new] at hyoung
    · cases hlive
  | succ n ih =>
    have hp' : cellAfter r x (stretched e (· == 1) (n + 2)) = some p := eq_of_rolled hp
    rw [cellAfter_stretched (hkey (n + 1) (by omega)), if_neg (Nat.succ_ne_zero n)] at hp'
    rcases (advance_entry hp').2 with hlive | ⟨-, rfl⟩ | ⟨q, hlive, -, -, rfl⟩
    · exact (ih (by omega) (live_eq_some.1 hlive).1).trans (Nat.le_succ n)
    · exact Nat.le_add_left 1 n
    · exact Nat.succ_le_succ (ih (by omega) (live_eq_some.1 hlive).1)

/-- **An eviction that is visible.** The alert of the calm run is missing. -/
theorem evicted_visible (hids : (rules.map (·.id)).Nodup) (hr : r ∈ rules) (hk : 2 ≤ r.stages.length)
    (hwindow : ceiling < r.window) (hkey : ∀ i < r.stages.length, extractEntityKey r (e i) = x)
    (hm : ∀ i < r.stages.length, r.matchesAt i (e i)) : ¬ Invisible rules (stretched e (· == 1) r.stages.length) := by
  obtain ⟨n, hn⟩ : ∃ n, r.stages.length = n + 2 := ⟨r.stages.length - 2, by omega⟩
  have hlastkey := hkey (n + 1) (by omega)
  -- the calm run completes the match
  obtain ⟨p, hp, hstage, hstart, hpw⟩ := calm_reaches hwindow hkey hm n (by omega)
  have hcalm : ∃ alert, (cellAlerts r x (stretched e (fun _ => false) (n + 2)))[n + 1]? = some (some alert) := by
    rw [cellAlerts_stretched hlastkey, if_neg (Nat.succ_ne_zero n)]
    have hlive := live_stretched hwindow hp hstart hpw
    rw [advance_fires hlive (by omega) (by omega) (hstage ▸ hm (n + 1) (by omega)), if_pos (by omega)]
    exact ⟨_, rfl⟩
  -- the other one cannot
  have hevicted : ∀ alert, (cellAlerts r x (stretched e (· == 1) (n + 2)))[n + 1]? ≠ some (some alert) := by
    intro alert halert
    rw [cellAlerts_stretched hlastkey, if_neg (Nat.succ_ne_zero n)] at halert
    obtain ⟨q, hlive, -, -, heq⟩ := advance_alert (Option.some.inj halert)
    have hle := evicted_behind hkey n (by omega) (live_eq_some.1 hlive).1
    omega
  intro hinv
  rw [hn, Invisible, withoutEvictions_stretched, eventAlerts_eq] at hinv
  · obtain ⟨alert, halert⟩ := hcalm
    obtain ⟨out, event, now, roll, hout, -, -, hmem⟩ := (raised_iff hids hr).2 halert
    have hact : (stretched e (· == 1) (n + 2))[n + 1]? =
        some (.process (e (n + 1)) (ceiling + 1) (n + 1 == 1)) := by simp [stretched]
    exact hevicted alert ((raised_iff hids hr).1 ⟨out, _, _, _, hinv ▸ hout, hact, hlastkey, hmem⟩)
  · intro a ha
    obtain ⟨i, -, rfl⟩ := List.mem_map.1 ha
    rfl

end Stretched

/-- **When evictions are invisible.** In a run whose inline evictions drop no entry that has not expired, the events
return what they return without evictions; the other eviction never drops such an entry, and neither does the inline one
while the windows are within its ceiling. With distinct rule ids, a rule set has only such runs exactly if each rule that
events can complete has a window within the ceiling. -/
theorem eviction_invisible (rules : List SequenceRule) :
    (∀ acts, Monotone acts → (∀ p a, p ++ [a] <+: acts → SparesAll (after rules p) a) → Invisible rules acts) ∧
    ((∀ r ∈ rules, r.window ≤ ceiling) → ∀ acts, Monotone acts → Invisible rules acts) ∧
    ((rules.map (·.id)).Nodup → ((∀ acts, Monotone acts → Invisible rules acts) ↔
      ∀ r ∈ rules, Completable r → r.window ≤ ceiling)) := by
  have hwithin : ∀ rules : List SequenceRule, (∀ r ∈ rules, r.window ≤ ceiling) → ∀ acts, Monotone acts →
      Invisible rules acts :=
    fun _ hwindow acts hclock => (invisible_of_spares hclock fun p a _ => sparesAll_of_window_le hwindow p a).1
  refine ⟨fun acts hclock hspares => (invisible_of_spares hclock hspares).1, hwithin rules, fun hids => ⟨?_, ?_⟩⟩
  · intro hinv r hr ⟨hk, x, hex⟩
    by_contra hwindow
    have hall : ∀ i, ∃ event, i < r.stages.length → extractEntityKey r event = x ∧ r.matchesAt i event := by
      intro i
      by_cases hi : i < r.stages.length
      · obtain ⟨event, hevent⟩ := hex i hi
        exact ⟨event, fun _ => hevent⟩
      · exact ⟨{}, fun h => absurd h hi⟩
    choose e he using hall
    exact evicted_visible hids hr hk (Nat.lt_of_not_le hwindow) (fun i hi => (he i hi).1) (fun i hi => (he i hi).2)
      (hinv _ (stretched_monotone e _ _))
  · classical
    intro hwindow acts hclock
    have hsame := hwithin (rules.filter fun r => Completable r) (fun r hr => ?_) acts hclock
    · rwa [Invisible, eventAlerts, alerts_filter hids, alerts_filter hids] at hsame
    · obtain ⟨hr, hcomp⟩ := List.mem_filter.1 hr
      exact hwindow r hr (of_decide_eq_true hcomp)

/-- A window of eleven minutes, and the second event when ten have passed: the eviction takes the first. -/
theorem eviction_visible :
    ¬ ∀ (rules : List SequenceRule) (acts : List Action), Monotone acts → Invisible rules acts := by
  intro h
  have hmem : typeRule ["download", "exec"] (660 * 10 ^ 9) ∈ [typeRule ["download", "exec"] (660 * 10 ^ 9)] :=
    List.mem_singleton_self _
  have hstage : ∀ i < 2, extractEntityKey (typeRule ["download", "exec"] (660 * 10 ^ 9))
        (if i = 0 then typed "download" else typed "exec") = "web-1" ∧
      (typeRule ["download", "exec"] (660 * 10 ^ 9)).matchesAt i (if i = 0 then typed "download" else typed "exec") := by
    intro i hi
    interval_cases i
    · exact ⟨rfl, by decide⟩
    · exact ⟨rfl, by decide⟩
  have hids : ([typeRule ["download", "exec"] (660 * 10 ^ 9)].map (·.id)).Nodup := List.nodup_singleton _
  refine evicted_visible hids hmem (by decide) (by decide) (fun i hi => (hstage i hi).1)
    (fun i hi => (hstage i hi).2) (h _ [.process (typed "download") 0 false,
      .process (typed "exec") (600 * 10 ^ 9 + 1) true] ?_)
  simp [Monotone, Action.now]

end ThorFirewall.Detection
