import Mathlib
import ThorFirewall.Detection.SequenceDetector

/-!
# Sequence alerts are sound

The entry of a rule and an entity stands for events of the history: one event of the entity for each stage that has
fired, in order, the first of them at the start of the window. None of them is older than the last alert of the cell. So
an alert has its own events, and they are within the window.

- `Move`, `advance_cases`: what an event can do to a cell;
- `Chain`, `Occurrence`: events of the history that match the first stages of a rule, or all of them;
- `Grounded`: the invariant of a cell; `grounded_step` keeps it and `grounded_after` has it for every run;
- `raised_occurrence`: the events of an alert, all of them later than the alert before.
-/

namespace ThorFirewall.Detection

variable {r : SequenceRule} {rules : List SequenceRule} {x : String} {acts : List Action}

/-! ## The moves of a cell -/

/-- The stages that fired, and one more. -/
def PendingSequence.push (p : PendingSequence) (event : EnrichedEvent) : PendingSequence :=
  { p with nextStage := p.nextStage + 1, stageEvents := p.stageEvents ++ [eventDescription event] }

/-- What an event of its entity can do to a cell. -/
inductive Move (r : SequenceRule) (c : Cell) (event : EnrichedEvent) (now : ℕ) : Cell × Option Alert → Prop
  | idle : Move r c event now (c.live now, none)
  | begins (h0 : r.matchesAt 0 event) :
      Move r c event now (some (.new (eventDescription event) r.window now), none)
  | continues {p : PendingSequence} (hp : c.live now = some p) (hm : r.matchesAt p.nextStage event)
      (hlt : p.nextStage + 1 < r.stages.length) : Move r c event now (some (p.push event), none)
  | completes {p : PendingSequence} (hp : c.live now = some p) (hm : r.matchesAt p.nextStage event)
      (hpos : 0 < p.nextStage) (heq : p.nextStage + 1 = r.stages.length) :
      Move r c event now (none, some (makeAlert r event (p.stageEvents ++ [eventDescription event])))

theorem advance_cases (r : SequenceRule) (c : Cell) (event : EnrichedEvent) (now : ℕ) :
    Move r c event now (advance r c event now) := by
  unfold advance
  cases hp : c.live now with
  | none =>
    by_cases h0 : r.matchesAt 0 event
    · simp only [h0, if_true]
      exact .begins h0
    · simp only [h0, Bool.false_eq_true, if_false]
      rw [← hp]
      exact .idle
  | some p =>
    simp only
    split_ifs with hlen hm h0 hz hlast
    · rw [← hp]
      exact .idle
    · simp only [Bool.and_eq_true] at h0
      exact .begins h0.2
    · rw [← hp]
      exact .idle
    · simp only [Bool.not_eq_true', Bool.not_eq_false] at hm
      rw [hz] at hm
      exact .begins hm
    · simp only [Bool.not_eq_true', Bool.not_eq_false] at hm
      exact .completes hp hm (by omega) (by omega)
    · simp only [Bool.not_eq_true', Bool.not_eq_false] at hm
      exact .continues hp hm (by omega)

section Outcome

variable {c : Cell} {p : PendingSequence} {event : EnrichedEvent} {now : ℕ} {alert : Alert}

/-- A match that an event leaves was there, begins with the event, or has fired one more stage. There is no alert. -/
theorem advance_entry (h : (advance r c event now).1 = some p) : (advance r c event now).2 = none ∧
    (c.live now = some p ∨ r.matchesAt 0 event ∧ p = .new (eventDescription event) r.window now ∨
      ∃ q, c.live now = some q ∧ r.matchesAt q.nextStage event ∧ q.nextStage + 1 < r.stages.length ∧
        p = q.push event) := by
  have hmove := advance_cases r c event now
  generalize advance r c event now = out at hmove h ⊢
  cases hmove with
  | idle => exact ⟨rfl, .inl h⟩
  | begins h0 => exact ⟨rfl, .inr (.inl ⟨h0, (Option.some.inj h).symm⟩)⟩
  | continues hq hm hlt => exact ⟨rfl, .inr (.inr ⟨_, hq, hm, hlt, (Option.some.inj h).symm⟩)⟩
  | completes => cases h

/-- An alert comes with the last stage of a match. -/
theorem advance_alert (h : (advance r c event now).2 = some alert) : ∃ q, c.live now = some q ∧
    r.matchesAt q.nextStage event ∧ 0 < q.nextStage ∧ q.nextStage + 1 = r.stages.length := by
  have hmove := advance_cases r c event now
  generalize advance r c event now = out at hmove h
  cases hmove with
  | idle | begins | continues => cases h
  | completes hq hm hpos heq => exact ⟨_, hq, hm, hpos, heq⟩

end Outcome

/-! ## Events of the history -/

/-- Events of the entity, in order, for the first stages of the rule. -/
structure Chain (r : SequenceRule) (x : String) (acts : List Action) (w : List ℕ) : Prop where
  increasing : w.Pairwise (· < ·)
  stages : ∀ i n, w[i]? = some n → ∃ event now roll, acts[n]? = some (.process event now roll) ∧
    extractEntityKey r event = x ∧ r.matchesAt i event

/-- Events of the entity, in order, for all stages of the rule, from the first to the last within its window. -/
structure Occurrence (r : SequenceRule) (x : String) (acts : List Action) (w : List ℕ) : Prop extends
    Chain r x acts w where
  complete : w.length = r.stages.length
  window : ∀ m ∈ w.head?, ∀ n ∈ w.getLast?, ∀ a ∈ acts[m]?, ∀ b ∈ acts[n]?, b.now ≤ a.now + r.window

theorem getElem?_append_of_some {α : Type*} {l l' : List α} {n : ℕ} {a : α} (h : l[n]? = some a) :
    (l ++ l')[n]? = some a := by
  rw [List.getElem?_append_left (List.getElem?_eq_some_iff.1 h).1, h]

/-- An alert is not the `none` that was added. -/
theorem getElem?_of_concat_none {α : Type*} {outs : List (Option α)} {n : ℕ} {a : α}
    (h : (outs ++ [none])[n]? = some (some a)) : outs[n]? = some (some a) := by
  rcases Nat.lt_trichotomy n outs.length with hlt | rfl | hgt
  · rwa [List.getElem?_append_left hlt] at h
  · simp at h
  · rw [List.getElem?_eq_none (by simp; omega)] at h
    cases h

theorem Chain.append {w : List ℕ} (h : Chain r x acts w) (acts' : List Action) : Chain r x (acts ++ acts') w := by
  refine ⟨h.increasing, fun i n hi => ?_⟩
  obtain ⟨event, now, roll, ha, hx, hm⟩ := h.stages i n hi
  exact ⟨event, now, roll, getElem?_append_of_some ha, hx, hm⟩

theorem Chain.lt_length {w : List ℕ} (h : Chain r x acts w) {n : ℕ} (hn : n ∈ w) : n < acts.length := by
  obtain ⟨i, hi⟩ := List.getElem?_of_mem hn
  obtain ⟨event, now, roll, ha, -⟩ := h.stages i n hi
  exact (List.getElem?_eq_some_iff.1 ha).1

/-- The next stage fires. -/
theorem Chain.concat {w : List ℕ} (h : Chain r x acts w) {event : EnrichedEvent} {now : ℕ} {roll : Bool}
    (hx : extractEntityKey r event = x) (hm : r.matchesAt w.length event) :
    Chain r x (acts ++ [.process event now roll]) (w ++ [acts.length]) := by
  constructor
  · refine List.pairwise_append.2 ⟨h.increasing, List.pairwise_singleton _ _, fun m hm' n hn => ?_⟩
    rw [List.mem_singleton.1 hn]
    exact h.lt_length hm'
  · intro i n hi
    rcases Nat.lt_trichotomy i w.length with hlt | rfl | hgt
    · rw [List.getElem?_append_left hlt] at hi
      exact (h.append _).stages i n hi
    · rw [List.getElem?_append_right (le_refl _), Nat.sub_self] at hi
      rw [← Option.some.inj hi]
      exact ⟨event, now, roll, by simp, hx, hm⟩
    · rw [List.getElem?_eq_none (by simp; omega)] at hi
      cases hi

theorem chain_nil (r : SequenceRule) (x : String) (acts : List Action) : Chain r x acts [] :=
  ⟨List.Pairwise.nil, fun i n hi => by simp at hi⟩

/-! ## The invariant of a cell -/

/-- The entry of a cell stands for events of the history, none of them as old as an alert of the cell. -/
structure Stands (r : SequenceRule) (x : String) (acts : List Action) (outs : List (Option Alert)) (p : PendingSequence) :
    Prop where
  pos : 1 ≤ p.nextStage
  lt : p.nextStage < r.stages.length
  events : p.stageEvents.length = p.nextStage
  ruleWindow : p.ruleWindow = r.window
  chain : ∃ w, Chain r x acts w ∧ w.length = p.nextStage ∧
    (∃ m a, w.head? = some m ∧ acts[m]? = some a ∧ a.now = p.windowStart) ∧
    ∀ n alert, outs[n]? = some (some alert) → ∀ m ∈ w, n < m

def Grounded (r : SequenceRule) (x : String) (acts : List Action) (outs : List (Option Alert)) (c : Cell) : Prop :=
  outs.length = acts.length ∧ ∀ p, c = some p → Stands r x acts outs p

variable {outs : List (Option Alert)} {c : Cell} {p : PendingSequence}

theorem live_eq_some {now : ℕ} : c.live now = some p ↔ c = some p ∧ p.isExpired now = false := by
  simp [Cell.live, Option.filter_eq_some_iff]

theorem young_eq_some {now : ℕ} : c.young now = some p ↔ c = some p ∧ now ≤ p.windowStart + ceiling := by
  rw [Cell.young, Option.filter_eq_some_iff]
  simp only [Bool.not_eq_true', decide_eq_false_iff_not]
  exact and_congr_right fun _ => by omega

theorem eq_of_rolled {now : ℕ} {roll : Bool} (h : c.rolled now roll = some p) : c = some p := by
  cases roll with
  | false => exact h
  | true => exact (young_eq_some.1 h).1

/-- Nothing happens to the entry, and the action raises no alert. -/
theorem Stands.concat (h : Stands r x acts outs p) (a : Action) : Stands r x (acts ++ [a]) (outs ++ [none]) p := by
  obtain ⟨w, hw, hlen, ⟨m, b, hm, hb, hnow⟩, hfresh⟩ := h.chain
  refine ⟨h.pos, h.lt, h.events, h.ruleWindow, w, hw.append _, hlen, ⟨m, b, hm, getElem?_append_of_some hb, hnow⟩, ?_⟩
  intro n alert hn
  exact hfresh n alert (getElem?_of_concat_none hn)

/-- A stage-0 event is the entry's first. -/
theorem stands_new (hk : 2 ≤ r.stages.length) (hlen : outs.length = acts.length) {event : EnrichedEvent} {now : ℕ}
    {roll : Bool} (hx : extractEntityKey r event = x) (h0 : r.matchesAt 0 event) :
    Stands r x (acts ++ [.process event now roll]) (outs ++ [none]) (.new (eventDescription event) r.window now) := by
  refine ⟨le_refl 1, hk, rfl, rfl, [acts.length], (chain_nil r x acts).concat hx h0, rfl, ?_, ?_⟩
  · exact ⟨acts.length, .process event now roll, rfl, by simp, rfl⟩
  · intro n alert hn m hm
    rw [List.mem_singleton.1 hm, ← hlen]
    exact (List.getElem?_eq_some_iff.1 (getElem?_of_concat_none hn)).1

/-- The next stage fires, and it is not the last. -/
theorem Stands.push (h : Stands r x acts outs p) (hlen : outs.length = acts.length) {event : EnrichedEvent} {now : ℕ}
    {roll : Bool} (hx : extractEntityKey r event = x) (hm : r.matchesAt p.nextStage event)
    (hlt : p.nextStage + 1 < r.stages.length) :
    Stands r x (acts ++ [.process event now roll]) (outs ++ [none]) (p.push event) := by
  obtain ⟨w, hw, hwlen, ⟨m, b, hhead, hb, hnow⟩, hfresh⟩ := h.chain
  refine ⟨Nat.le_add_left 1 _, hlt, ?_, h.ruleWindow, w ++ [acts.length], hw.concat hx (hwlen ▸ hm), ?_, ?_, ?_⟩
  · simp [PendingSequence.push, h.events]
  · simp [PendingSequence.push, hwlen]
  · exact ⟨m, b, by rw [List.head?_append, hhead]; rfl, getElem?_append_of_some hb, hnow⟩
  · intro n alert hn j hj
    have hn := getElem?_of_concat_none hn
    rcases List.mem_append.1 hj with hj | hj
    · exact hfresh n alert hn j hj
    · rw [List.mem_singleton.1 hj, ← hlen]
      exact (List.getElem?_eq_some_iff.1 hn).1

/-- The last stage fires: these are the events of the alert. -/
theorem Stands.complete (h : Stands r x acts outs p) (hlen : outs.length = acts.length) {event : EnrichedEvent} {now : ℕ}
    (roll : Bool) (hx : extractEntityKey r event = x) (hm : r.matchesAt p.nextStage event)
    (heq : p.nextStage + 1 = r.stages.length) (hexp : p.isExpired now = false) :
    ∃ w, Occurrence r x (acts ++ [.process event now roll]) w ∧ w.getLast? = some acts.length ∧
      ∀ n alert, outs[n]? = some (some alert) → ∀ m ∈ w, n < m := by
  obtain ⟨w, hw, hwlen, ⟨m, b, hhead, hb, hnow⟩, hfresh⟩ := h.chain
  refine ⟨w ++ [acts.length], ⟨hw.concat hx (hwlen ▸ hm), ?_, ?_⟩, List.getLast?_concat, ?_⟩
  · simp [hwlen, heq]
  · intro m' hm' n' hn' a' ha' b' hb'
    rw [List.head?_append, hhead] at hm'
    rw [List.getLast?_concat] at hn'
    cases hm'
    cases hn'
    rw [getElem?_append_of_some hb] at ha'
    cases ha'
    rw [List.getElem?_concat_length] at hb'
    cases hb'
    simp only [PendingSequence.isExpired, decide_eq_false_iff_not, h.ruleWindow, ← hnow] at hexp
    change now ≤ b.now + r.window
    omega
  · intro n alert hn j hj
    rcases List.mem_append.1 hj with hj | hj
    · exact hfresh n alert hn j hj
    · rw [List.mem_singleton.1 hj, ← hlen]
      exact (List.getElem?_eq_some_iff.1 hn).1

theorem grounded_step (hk : 2 ≤ r.stages.length) (a : Action) (h : Grounded r x acts outs c) :
    Grounded r x (acts ++ [a]) (outs ++ [(Cell.step r x c a).2]) (Cell.step r x c a).1 := by
  obtain ⟨hlen, hc⟩ := h
  refine ⟨by simp [hlen], ?_⟩
  cases a with
  | process event now roll =>
    simp only [Cell.step, Cell.feed]
    by_cases hx : extractEntityKey r event = x
    · rw [if_pos hx]
      have hlive : ∀ p, (c.rolled now roll).live now = some p → Stands r x acts outs p :=
        fun p hp => hc p (eq_of_rolled (live_eq_some.1 hp).1)
      intro p hp
      obtain ⟨hquiet, hentry⟩ := advance_entry hp
      rw [hquiet]
      rcases hentry with hp | ⟨h0, rfl⟩ | ⟨q, hq, hm, hlt, rfl⟩
      · exact (hlive p hp).concat _
      · exact stands_new hk hlen hx h0
      · exact (hlive q hq).push hlen hx hm hlt
    · rw [if_neg hx]
      exact fun p hp => (hc p (eq_of_rolled hp)).concat _
  | cleanup now => exact fun p hp => (hc p (live_eq_some.1 hp).1).concat _
  | inlineEvict now => exact fun p hp => (hc p (young_eq_some.1 hp).1).concat _

/-- **Every cell of every run stands for events of the history.** -/
theorem grounded_after (hk : 2 ≤ r.stages.length) (x : String) (acts : List Action) :
    Grounded r x acts (cellAlerts r x acts) (cellAfter r x acts) :=
  Mealy.history_inv (P := Grounded r x) ⟨rfl, fun p hp => by cases hp⟩ (fun _ _ _ a h => grounded_step hk a h) acts

/-! ## Alerts -/

theorem Occurrence.append {w : List ℕ} (h : Occurrence r x acts w) (acts' : List Action) :
    Occurrence r x (acts ++ acts') w := by
  have hsame : ∀ n ∈ w, (acts ++ acts')[n]? = acts[n]? := fun n hn => List.getElem?_append_left (h.lt_length hn)
  refine ⟨h.toChain.append acts', h.complete, fun m hm n hn a ha b hb => ?_⟩
  rw [hsame m (List.mem_of_mem_head? hm)] at ha
  rw [hsame n (List.mem_of_mem_getLast? hn)] at hb
  exact h.window m hm n hn a ha b hb

theorem cellAlerts_take {n n' : ℕ} (h : n' < n) :
    (cellAlerts r x (acts.take n))[n']? = (cellAlerts r x acts)[n']? := by
  rw [cellAlerts, cellAlerts, Mealy.getElem?_outputs, Mealy.getElem?_outputs, List.getElem?_take, if_pos h,
    List.take_take, min_eq_left h.le]

theorem take_append_drop_of_getElem? {α : Type*} {l : List α} {n : ℕ} {a : α} (h : l[n]? = some a) :
    l.take n ++ [a] ++ l.drop (n + 1) = l ∧ (l.take n).length = n := by
  obtain ⟨hn, ha⟩ := List.getElem?_eq_some_iff.1 h
  refine ⟨?_, List.length_take_of_le hn.le⟩
  rw [← ha, ← List.take_succ_eq_append_getElem hn, List.take_append_drop]

/-- **The events of an alert.** They are later than every alert before it. -/
theorem cellAlerts_occurrence (hk : 2 ≤ r.stages.length) {n : ℕ} {alert : Alert}
    (h : (cellAlerts r x acts)[n]? = some (some alert)) :
    ∃ w, Occurrence r x acts w ∧ w.getLast? = some n ∧
      ∀ n' < n, ∀ alert', (cellAlerts r x acts)[n']? = some (some alert') → ∀ m ∈ w, n' < m := by
  obtain ⟨event, now, roll, hact, hx, hadv⟩ := cellAlerts_iff.1 h
  obtain ⟨hlen, hc⟩ := grounded_after hk x (acts.take n)
  obtain ⟨hsplit, hn⟩ := take_append_drop_of_getElem? hact
  obtain ⟨p, hp, hm, -, heq⟩ := advance_alert hadv
  obtain ⟨hcell, hexp⟩ := live_eq_some.1 hp
  obtain ⟨w, hw, hlast, hfresh⟩ := (hc p (eq_of_rolled hcell)).complete hlen roll hx hm heq hexp
  refine ⟨w, ?_, by rw [hlast, hn], ?_⟩
  · rw [← hsplit]
    exact hw.append _
  · intro n' hn' alert' halert'
    exact hfresh n' alert' (by rw [cellAlerts_take hn', halert'])

/-- The action at this position raises an alert of the rule. -/
def AlertAt (rules : List SequenceRule) (acts : List Action) (r : SequenceRule) (n : ℕ) : Prop :=
  ∃ out alert, (alerts rules acts)[n]? = some out ∧ (r, alert) ∈ out

theorem alertAt_iff {n : ℕ} : AlertAt rules acts r n ↔ r ∈ rules ∧ ∃ x alert, Raised rules acts r x n alert := by
  constructor
  · rintro ⟨out, alert, hout, hmem⟩
    have hstep := hout
    rw [alerts, Mealy.getElem?_outputs, Option.map_eq_some_iff] at hstep
    obtain ⟨a, ha, rfl⟩ := hstep
    cases a with
    | process event now roll =>
      exact ⟨mem_rules_of_mem_processRules hmem, _, alert, _, event, now, roll, hout, ha, rfl, hmem⟩
    | cleanup now => cases hmem
    | inlineEvict now => cases hmem
  · rintro ⟨-, x, alert, out, event, now, roll, hout, -, -, hmem⟩
    exact ⟨out, alert, hout, hmem⟩

/-- The rules that raise an alert, in their order. -/
theorem processRules_sublist (s : SequenceDetector) (event : EnrichedEvent) (now : ℕ) (rules : List SequenceRule) :
    ((s.processRules event now rules).2.map (·.1)).Sublist rules := by
  induction rules generalizing s with
  | nil => exact List.Sublist.refl _
  | cons rule rules ih =>
    simp only [SequenceDetector.processRules, List.map_append]
    cases (s.processRule rule event now).2 with
    | none => exact (ih _).cons rule
    | some alert => exact (ih _).cons_cons rule

theorem step_sublist (rules : List SequenceRule) (s : SequenceDetector) (a : Action) : ((step rules s a).2.map (·.1)).Sublist rules := by
  cases a with
  | process event now roll => exact processRules_sublist _ event now rules
  | cleanup now => exact List.nil_sublist _
  | inlineEvict now => exact List.nil_sublist _

/-- An action raises no two alerts of one rule. -/
theorem alerts_nodup (hids : (rules.map (·.id)).Nodup) {n : ℕ} {out : List (SequenceRule × Alert)}
    (hout : (alerts rules acts)[n]? = some out) : (out.map (·.1.id)).Nodup := by
  rw [alerts, Mealy.getElem?_outputs, Option.map_eq_some_iff] at hout
  obtain ⟨a, -, rfl⟩ := hout
  have hsub := (step_sublist rules (after rules (acts.take n)) a).map (·.id)
  rw [List.map_map] at hsub
  exact hsub.nodup hids

/-- An entry is one of a rule of the detector. -/
theorem pending_id {acts : List Action} {key : SeqKey} {p : PendingSequence}
    (h : (after rules acts).pending[key]? = some p) : ∃ r ∈ rules, key.1 = r.id := by
  by_contra hno
  have hid : key.1 ∉ rules.map (·.id) := by
    intro hmem
    obtain ⟨r, hr, hrid⟩ := List.mem_map.1 hmem
    exact hno ⟨r, hr, hrid.symm⟩
  have hnone : (after rules acts).pending[key]? = none := by
    refine Mealy.after_inv (P := fun s : SequenceDetector => s.pending[key]? = none) rfl (fun s a hs => ?_) acts
    cases a with
    | process event now roll =>
      simp only [step, SequenceDetector.process]
      refine (processRules_frame hid _ event now).trans ?_
      rw [rolled_pending, hs]
      cases roll <;> rfl
    | cleanup now => exact (cleanupExpired_pending s now key).trans (congrArg (Cell.live · now) hs)
    | inlineEvict now => exact (inlineEvictExpired_pending s now key).trans (congrArg (Cell.young · now) hs)
  rw [hnone] at h
  cases h

/-- The last event of an occurrence is the latest. -/
theorem Occurrence.le_last {w : List ℕ} {n m : ℕ} (h : Occurrence r x acts w) (hlast : w.getLast? = some n) (hm : m ∈ w) :
    m ≤ n := by
  obtain ⟨init, rfl⟩ := List.getLast?_eq_some_iff.1 hlast
  rcases List.mem_append.1 hm with hm | hm
  · exact ((List.pairwise_append.1 h.increasing).2.2 m hm n List.mem_cons_self).le
  · exact (List.mem_singleton.1 hm).le

/-- The events of the alert at a position, all of them later than every alert of the same cell before it. -/
def IsSource (rules : List SequenceRule) (acts : List Action) (r : SequenceRule) (n : ℕ) (w : List ℕ) : Prop :=
  ∃ x, Occurrence r x acts w ∧ w.getLast? = some n ∧
    ∀ n' < n, ∀ alert, Raised rules acts r x n' alert → ∀ m ∈ w, n' < m

theorem exists_isSource (hids : (rules.map (·.id)).Nodup) (hk : ∀ r ∈ rules, 2 ≤ r.stages.length) {n : ℕ}
    (h : AlertAt rules acts r n) : ∃ w, IsSource rules acts r n w := by
  obtain ⟨hr, x, alert, hraised⟩ := alertAt_iff.1 h
  obtain ⟨w, hw, hlast, hlater⟩ := cellAlerts_occurrence (hk r hr) ((raised_iff hids hr).1 hraised)
  exact ⟨w, x, hw, hlast, fun n' hn' alert' h' => hlater n' hn' alert' ((raised_iff hids hr).1 h')⟩

theorem IsSource.disjoint {n n' : ℕ} {w w' : List ℕ} (h : IsSource rules acts r n w) (h' : IsSource rules acts r n' w')
    (hlt : n' < n) (halert : AlertAt rules acts r n') : w.Disjoint w' := by
  obtain ⟨x, hw, hlast, hlater⟩ := h
  obtain ⟨x', hw', hlast', -⟩ := h'
  have hkey : ∀ {y v}, Occurrence r y acts v → ∀ m ∈ v, ∃ event now roll, acts[m]? = some (.process event now roll) ∧
      extractEntityKey r event = y := by
    intro y v hv m hm
    obtain ⟨i, hi⟩ := List.getElem?_of_mem hm
    obtain ⟨event, now, roll, ha, hx, -⟩ := hv.stages i m hi
    exact ⟨event, now, roll, ha, hx⟩
  intro m hm hm'
  -- a common event has one entity, which is the entity of both alerts
  obtain ⟨event, now, roll, ha, hx⟩ := hkey hw m hm
  obtain ⟨event', now', roll', ha', hx'⟩ := hkey hw' m hm'
  rw [ha] at ha'
  cases ha'
  obtain ⟨-, y, alert, hraised⟩ := alertAt_iff.1 halert
  have hy : y = x := by
    obtain ⟨out, event₁, now₁, roll₁, -, hact, hkey₁, -⟩ := hraised
    obtain ⟨event₂, now₂, roll₂, hact₂, hkey₂⟩ := hkey hw' n' (List.mem_of_mem_getLast? hlast')
    rw [hact] at hact₂
    cases hact₂
    rw [← hkey₁, hkey₂, ← hx', hx]
  -- it is later than the first alert, and one of its events
  have hgt : n' < m := hlater n' hlt alert (hy ▸ hraised) m hm
  exact absurd (hw'.le_last hlast' hm') (Nat.not_le.2 hgt)

/-- **Sequence alerts are sound.** With distinct rule ids and at least two stages per rule, every alert has its events:
one for each stage, in order, of one entity, the last of them the event that raised it, within the window of the rule.
No event is one of two alerts of a rule. An entry waits for a stage after the first, and it describes the events of the
stages before. -/
theorem alerts_sound (hids : (rules.map (·.id)).Nodup) (hk : ∀ r ∈ rules, 2 ≤ r.stages.length) (acts : List Action) :
    (∀ r, ∃ w : ℕ → List ℕ,
      (∀ n, AlertAt rules acts r n → ∃ x, Occurrence r x acts (w n) ∧ (w n).getLast? = some n) ∧
      ∀ n n', AlertAt rules acts r n → AlertAt rules acts r n' → n ≠ n' → (w n).Disjoint (w n')) ∧
    (∀ out ∈ alerts rules acts, (out.map (·.1.id)).Nodup) ∧
    ∀ (key : SeqKey) (p : PendingSequence), (after rules acts).pending[key]? = some p → ∃ r ∈ rules, key.1 = r.id ∧
      1 ≤ p.nextStage ∧ p.nextStage < r.stages.length ∧ p.stageEvents.length = p.nextStage := by
  refine ⟨fun r => ?_, fun out hout => ?_, fun key p hp => ?_⟩
  · have hex : ∀ n, ∃ w, AlertAt rules acts r n → IsSource rules acts r n w := by
      intro n
      by_cases h : AlertAt rules acts r n
      · obtain ⟨w, hw⟩ := exists_isSource hids hk h
        exact ⟨w, fun _ => hw⟩
      · exact ⟨[], fun h' => absurd h' h⟩
    choose w hw using hex
    refine ⟨w, fun n hn => ?_, fun n n' hn hn' hne => ?_⟩
    · obtain ⟨x, hocc, hlast, -⟩ := hw n hn
      exact ⟨x, hocc, hlast⟩
    · rcases Nat.lt_or_gt_of_ne hne with hlt | hgt
      · exact ((hw n' hn').disjoint (hw n hn) hlt hn).symm
      · exact (hw n hn).disjoint (hw n' hn') hgt hn'
  · obtain ⟨n, hn⟩ := List.getElem?_of_mem hout
    exact alerts_nodup hids hn
  · obtain ⟨r, hr, hid⟩ := pending_id hp
    have hcell : cellAfter r key.2 acts = some p := by
      rw [← after_pending hids hr, ← hid]
      exact hp
    have hstands := (grounded_after (hk r hr) key.2 acts).2 p hcell
    exact ⟨r, hr, hid, hstands.pos, hstands.lt, hstands.events⟩

/-! An event of each type, and rules that look at the types. -/

def typed (t : String) : EnrichedEvent := { hostname := some "web-1", eventType := some t }

def typeRule (types : List String) (window : ℕ) : SequenceRule where
  id := "seq-types"
  title := "Types"
  description := "Event types in order"
  threatLevel := .high
  stages := types.map fun t => { name := t, entityField := .hostname, predicate := .eventTypeEquals t }
  window := window
  tags := []

theorem alerts_sound_download :
    AlertAt [typeRule ["download", "exec"] 60] [.process (typed "download") 5 false, .process (typed "exec") 9 true]
      (typeRule ["download", "exec"] 60) 1 ∧
    ∃ w x, Occurrence (typeRule ["download", "exec"] 60) x
      [.process (typed "download") 5 false, .process (typed "exec") 9 true] w ∧ w.getLast? = some 1 := by
  have hids : ([typeRule ["download", "exec"] 60].map (·.id)).Nodup := List.nodup_singleton _
  have hat : AlertAt [typeRule ["download", "exec"] 60]
      [.process (typed "download") 5 false, .process (typed "exec") 9 true] (typeRule ["download", "exec"] 60) 1 :=
    alertAt_iff.2 ⟨List.mem_singleton_self _, "web-1", _, (raised_iff hids (List.mem_singleton_self _)).2 rfl⟩
  refine ⟨hat, ?_⟩
  obtain ⟨w, hw, -⟩ := (alerts_sound hids (by simp [typeRule]) _).1 (typeRule ["download", "exec"] 60)
  obtain ⟨x, hocc, hlast⟩ := hw 1 hat
  exact ⟨w 1, x, hocc, hlast⟩

end ThorFirewall.Detection
