import Mathlib
import ThorFirewall.Detection.SequenceSoundness

/-!
# When sequence detection is complete

The detector keeps one partial match for a rule and an entity. A stage-0 event takes the place of a match that has come
further, and a match that goes on takes the place of one that the same event could begin; an inline eviction drops a
match that is older than the ceiling, whatever the window of its rule. A run in which none of this happens to a match
that has not expired (`Keeps`) misses nothing (`detection_complete`): from the first event of an occurrence on, the entry
is at least as far as the occurrence and not older (`Ahead`). A rule of one stage raises no alert at all.
-/

namespace ThorFirewall.Detection

variable {r : SequenceRule} {rules : List SequenceRule} {x : String} {acts : List Action} {c : Cell}
  {p : PendingSequence} {event : EnrichedEvent} {now : ℕ}

/-- Once all events of an occurrence are in, there has been an alert. -/
def Complete (rules : List SequenceRule) (r : SequenceRule) (x : String) (acts : List Action) : Prop :=
  ∀ w n, Occurrence r x acts w → w.getLast? = some n → ∃ n' ≤ n, ∃ alert, Raised rules acts r x n' alert

/-- The inline eviction drops no match that has not expired. -/
def Spares (c : Cell) (now : ℕ) : Prop := (c.young now).live now = c.live now

/-- The action drops no match of the cell that could still complete. A stage-0 event finds no match, or it completes
the match, or the match waits for stage 1 and the event is no stage-1 event: it begins the match anew. -/
def Keeps (r : SequenceRule) (x : String) (c : Cell) : Action → Prop
  | .process event now roll =>
    (roll = true → Spares c now) ∧
      (extractEntityKey r event = x → r.matchesAt 0 event → ∀ p, c.live now = some p →
        (p.nextStage + 1 = r.stages.length ∧ r.matchesAt p.nextStage event) ∨
          (p.nextStage = 1 ∧ r.matchesAt 1 event = false))
  | .cleanup _ => True
  | .inlineEvict now => Spares c now

/-! ## One step -/

/-- The entry has come at least this far, and it began no earlier than this. -/
def Ahead (t₀ m : ℕ) (c : Cell) : Prop := ∃ p, c = some p ∧ t₀ ≤ p.windowStart ∧ m ≤ p.nextStage

theorem advance_none (h : c.live now = none) (h0 : r.matchesAt 0 event) :
    advance r c event now = (some (.new (eventDescription event) r.window now), none) := by
  unfold advance
  rw [h]
  simp only [h0, if_true]

/-- The stage that is waited for fires. -/
theorem advance_fires (h : c.live now = some p) (hpos : 1 ≤ p.nextStage) (hlt : p.nextStage < r.stages.length)
    (hm : r.matchesAt p.nextStage event) : advance r c event now =
      if p.nextStage + 1 = r.stages.length then
        (none, some (makeAlert r event (p.stageEvents ++ [eventDescription event])))
      else (some (p.push event), none) := by
  have hlen : ¬ r.stages.length ≤ p.nextStage := by omega
  have hz : p.nextStage ≠ 0 := by omega
  have hlast : p.nextStage = r.stages.length - 1 ↔ p.nextStage + 1 = r.stages.length := by omega
  unfold advance
  rw [h]
  simp only [hlen, hm, hz, hlast, Bool.not_true, Bool.false_eq_true, if_false]
  rfl

/-- Another stage fires, or none. -/
theorem advance_waits (h : c.live now = some p) (hpos : 1 ≤ p.nextStage) (hlt : p.nextStage < r.stages.length)
    (hm : r.matchesAt p.nextStage event = false) : advance r c event now =
      (if r.matchesAt 0 event then some (.new (eventDescription event) r.window now) else some p, none) := by
  have hlen : ¬ r.stages.length ≤ p.nextStage := by omega
  have hpos' : 0 < p.nextStage := hpos
  unfold advance
  rw [h]
  simp only [hlen, hm, hpos', Bool.not_false, if_false, if_true, decide_true, Bool.true_and]

theorem rolled_live {roll : Bool} (hkeeps : Keeps r x c (.process event now roll)) : (c.rolled now roll).live now = c.live now := by
  cases roll with
  | false => rfl
  | true => exact hkeeps.1 rfl

/-- An event of the entity keeps the entry as far as it was. -/
theorem ahead_advance {t₀ m : ℕ} {roll : Bool} (hlive : c.live now = some p) (hpos : 1 ≤ p.nextStage)
    (hlt : p.nextStage < r.stages.length) (hx : extractEntityKey r event = x)
    (hkeeps : Keeps r x c (.process event now roll)) (hquiet : (advance r (c.rolled now roll) event now).2 = none)
    (ht₀ : t₀ ≤ now) (hstart : t₀ ≤ p.windowStart) (hm : m ≤ p.nextStage) :
    Ahead t₀ m (advance r (c.rolled now roll) event now).1 := by
  have hlive' := (rolled_live hkeeps).trans hlive
  cases hfire : r.matchesAt p.nextStage event with
  | true =>
    rw [advance_fires hlive' hpos hlt hfire] at hquiet ⊢
    split_ifs at hquiet ⊢ with hlast
    exact ⟨p.push event, rfl, hstart, hm.trans (Nat.le_succ _)⟩
  | false =>
    rw [advance_waits hlive' hpos hlt hfire]
    split_ifs with h0
    · -- the match begins anew, and it had not come further than its first stage
      rcases hkeeps.2 hx h0 p hlive with ⟨-, hfire'⟩ | ⟨hone, -⟩
      · rw [hfire] at hfire'
        cases hfire'
      · exact ⟨_, rfl, ht₀, hm.trans hone.le⟩
    · exact ⟨p, rfl, hstart, hm⟩

/-- The next event of the occurrence takes the entry further. -/
theorem ahead_fires {t₀ : ℕ} {roll : Bool} (hlive : c.live now = some p) (hpos : 1 ≤ p.nextStage)
    (hlt : p.nextStage < r.stages.length) (hkeeps : Keeps r x c (.process event now roll))
    (hquiet : (advance r (c.rolled now roll) event now).2 = none) (hstart : t₀ ≤ p.windowStart)
    (hfire : r.matchesAt p.nextStage event) :
    Ahead t₀ (p.nextStage + 1) (advance r (c.rolled now roll) event now).1 := by
  rw [advance_fires ((rolled_live hkeeps).trans hlive) hpos hlt hfire] at hquiet ⊢
  split_ifs at hquiet ⊢ with hlast
  exact ⟨p.push event, rfl, hstart, le_refl _⟩

/-- The first event of the occurrence begins a match, or begins it anew. -/
theorem ahead_begins {roll : Bool} (hc : ∀ p, c = some p → 1 ≤ p.nextStage ∧ p.nextStage < r.stages.length)
    (hx : extractEntityKey r event = x) (hkeeps : Keeps r x c (.process event now roll))
    (hquiet : (advance r (c.rolled now roll) event now).2 = none) (h0 : r.matchesAt 0 event) :
    Ahead now 1 (advance r (c.rolled now roll) event now).1 := by
  have hrolled := rolled_live hkeeps
  cases hlive : c.live now with
  | none =>
    rw [advance_none (hrolled.trans hlive) h0]
    exact ⟨_, rfl, le_refl _, le_refl _⟩
  | some p =>
    obtain ⟨hpos, hlt⟩ := hc p (live_eq_some.1 hlive).1
    have hlive' := hrolled.trans hlive
    rcases hkeeps.2 hx h0 p hlive with ⟨hlast, hfire⟩ | ⟨hone, hwait⟩
    · rw [advance_fires hlive' hpos hlt hfire, if_pos hlast] at hquiet
      cases hquiet
    · rw [advance_waits hlive' hpos hlt (by rw [hone, hwait]), if_pos h0]
      exact ⟨_, rfl, le_refl _, le_refl _⟩

/-- An action that raises no alert keeps the entry as far as it was. -/
theorem ahead_step {t₀ m : ℕ} {a : Action} (hc : c = some p) (hpos : 1 ≤ p.nextStage) (hlt : p.nextStage < r.stages.length)
    (hexp : p.isExpired a.now = false) (hkeeps : Keeps r x c a) (hquiet : (Cell.step r x c a).2 = none)
    (ht₀ : t₀ ≤ a.now) (hstart : t₀ ≤ p.windowStart) (hm : m ≤ p.nextStage) : Ahead t₀ m (Cell.step r x c a).1 := by
  have hlive : c.live a.now = some p := live_eq_some.2 ⟨hc, hexp⟩
  cases a with
  | process event now roll =>
    simp only [Cell.step, Cell.feed] at hquiet ⊢
    split_ifs at hquiet ⊢ with hx
    · exact ahead_advance hlive hpos hlt hx hkeeps hquiet ht₀ hstart hm
    · exact ⟨p, (live_eq_some.1 ((rolled_live hkeeps).trans hlive)).1, hstart, hm⟩
  | cleanup now => exact ⟨p, hlive, hstart, hm⟩
  | inlineEvict now => exact ⟨p, (live_eq_some.1 (hkeeps.trans hlive)).1, hstart, hm⟩

/-! ## Runs -/

theorem Monotone.le {acts : List Action} (h : Monotone acts) {i j : ℕ} {a b : Action} (hij : i ≤ j)
    (ha : acts[i]? = some a) (hb : acts[j]? = some b) : a.now ≤ b.now := by
  rcases Nat.eq_or_lt_of_le hij with rfl | hlt
  · rw [ha] at hb
    cases hb
    exact le_refl _
  · obtain ⟨hi, rfl⟩ := List.getElem?_eq_some_iff.1 ha
    obtain ⟨hj, rfl⟩ := List.getElem?_eq_some_iff.1 hb
    have hpair := (List.pairwise_iff_getElem.1 h) i j (by simpa using hi) (by simpa using hj) hlt
    simpa using hpair

theorem cellAfter_succ {n : ℕ} {a : Action} (h : acts[n]? = some a) :
    cellAfter r x (acts.take (n + 1)) = (Cell.step r x (cellAfter r x (acts.take n)) a).1 := by
  rw [List.take_add_one, h, cellAfter, Option.toList_some, Mealy.after_concat, cellAfter]

theorem cellAlerts_at {n : ℕ} {a : Action} (h : acts[n]? = some a) :
    (cellAlerts r x acts)[n]? = some (Cell.step r x (cellAfter r x (acts.take n)) a).2 := by
  rw [cellAlerts, Mealy.getElem?_outputs, h, cellAfter]
  rfl

theorem Chain.head_le {w : List ℕ} {m l : ℕ} (h : Chain r x acts w) (hhead : w.head? = some m) (hl : l ∈ w) : m ≤ l := by
  obtain ⟨tail, rfl⟩ := List.head?_eq_some_iff.1 hhead
  rcases List.mem_cons.1 hl with rfl | hl
  · exact le_refl _
  · exact (List.rel_of_pairwise_cons h.increasing hl).le

section Run

variable {w : List ℕ} {m n : ℕ} {a₀ b : Action}

/-- **While there is no alert, the entry is as far as the occurrence.** -/
theorem ahead_run (hk : 2 ≤ r.stages.length) (hclock : Monotone acts)
    (hkeeps : ∀ n a, acts[n]? = some a → Keeps r x (cellAfter r x (acts.take n)) a) (hocc : Occurrence r x acts w)
    (hhead : w.head? = some m) (ha₀ : acts[m]? = some a₀) (hlast : w.getLast? = some n) (hb : acts[n]? = some b)
    (hquiet : ∀ n' ≤ n, ∀ alert, (cellAlerts r x acts)[n']? ≠ some (some alert)) :
    ∀ j ≤ n + 1, ∀ i l, w[i]? = some l → l < j → Ahead a₀.now (i + 1) (cellAfter r x (acts.take j)) := by
  intro j
  induction j with
  | zero => exact fun _ _ _ _ h => absurd h (Nat.not_lt_zero _)
  | succ j ih =>
    intro hj i l hl hlj
    have hlen : j < acts.length := by
      have := hocc.lt_length (List.mem_of_mem_getLast? hlast)
      omega
    obtain ⟨a, ha⟩ : ∃ a, acts[j]? = some a := ⟨_, List.getElem?_eq_getElem hlen⟩
    have hstands := (grounded_after hk x (acts.take j)).2
    have hq : (Cell.step r x (cellAfter r x (acts.take j)) a).2 = none := by
      cases hout : (Cell.step r x (cellAfter r x (acts.take j)) a).2 with
      | none => rfl
      | some alert => exact absurd (hout ▸ cellAlerts_at ha) (hquiet j (by omega) alert)
    have hml : m ≤ l := hocc.head_le hhead (List.mem_of_getElem? hl)
    have hearly : a₀.now ≤ a.now := hclock.le (by omega) ha₀ ha
    -- no entry that is as young as the occurrence has expired
    have hlive : ∀ p, cellAfter r x (acts.take j) = some p → a₀.now ≤ p.windowStart → p.isExpired a.now = false := by
      intro p hp hstart
      have hwindow := hocc.window m hhead n hlast a₀ ha₀ b hb
      have hlate : a.now ≤ b.now := hclock.le (by omega) ha hb
      simp only [PendingSequence.isExpired, decide_eq_false_iff_not, (hstands p hp).ruleWindow]
      omega
    rw [cellAfter_succ ha]
    rcases Nat.lt_or_eq_of_le (Nat.le_of_lt_succ hlj) with hlt | rfl
    · obtain ⟨p, hp, hstart, hm⟩ := ih (by omega) i l hl hlt
      exact ahead_step hp (hstands p hp).pos (hstands p hp).lt (hlive p hp hstart) (hkeeps j a ha) hq hearly hstart hm
    · obtain ⟨event, now, roll, hact, hx, hmatch⟩ := hocc.stages i l hl
      obtain rfl : a = .process event now roll := Option.some.inj (ha.symm.trans hact)
      have hkeep := hkeeps l _ ha
      simp only [Cell.step, Cell.feed, if_pos hx] at hq ⊢
      cases i with
      | zero =>
        obtain rfl : m = l := Option.some.inj (hhead.symm.trans (List.head?_eq_getElem? ▸ hl))
        obtain rfl : a₀ = .process event now roll := Option.some.inj (ha₀.symm.trans hact)
        exact ahead_begins (fun p hp => ⟨(hstands p hp).pos, (hstands p hp).lt⟩) hx hkeep hq hmatch
      | succ i =>
        -- the stage before fired earlier
        have hi : i + 1 < w.length := (List.getElem?_eq_some_iff.1 hl).1
        have hprev : w[i]? = some w[i] := List.getElem?_eq_getElem (by omega)
        have hprevlt : w[i] < l := by
          rw [← (List.getElem?_eq_some_iff.1 hl).2]
          exact List.pairwise_iff_getElem.1 hocc.increasing i (i + 1) (by omega) hi (Nat.lt_succ_self i)
        obtain ⟨p, hp, hstart, hm⟩ := ih (by omega) i _ hprev hprevlt
        have hplive := live_eq_some.2 ⟨hp, hlive p hp hstart⟩
        obtain ⟨hpos, hlt⟩ := And.intro (hstands p hp).pos (hstands p hp).lt
        rcases Nat.eq_or_lt_of_le hm with heq | hgt
        · rw [heq] at hmatch ⊢
          exact ahead_fires hplive hpos hlt hkeep hq hstart hmatch
        · exact ahead_advance hplive hpos hlt hx hkeep hq hearly hstart hgt

end Run

/-- An alert is one of a rule with at least two stages. -/
theorem two_le_of_cellAlerts {n : ℕ} {alert : Alert} (h : (cellAlerts r x acts)[n]? = some (some alert)) :
    2 ≤ r.stages.length := by
  obtain ⟨event, now, roll, -, -, hadv⟩ := cellAlerts_iff.1 h
  obtain ⟨q, -, -, hpos, heq⟩ := advance_alert hadv
  omega

theorem complete_of_keeps (hk : 2 ≤ r.stages.length) (hids : (rules.map (·.id)).Nodup) (hr : r ∈ rules)
    (hclock : Monotone acts) (hkeeps : ∀ n a, acts[n]? = some a → Keeps r x (cellAfter r x (acts.take n)) a) :
    Complete rules r x acts := by
  intro w n hocc hlast
  by_contra hno
  have hquiet : ∀ n' ≤ n, ∀ alert, (cellAlerts r x acts)[n']? ≠ some (some alert) :=
    fun n' hn' alert h => hno ⟨n', hn', alert, (raised_iff hids hr).2 h⟩
  have hstage := hocc.complete
  -- the last stage of the occurrence
  have hlast' : w[r.stages.length - 1]? = some n := by
    rw [← hstage, ← List.getLast?_eq_getElem?, hlast]
  obtain ⟨event, now, roll, hb, -, -⟩ := hocc.stages _ n hlast'
  have hfirst : w[0]? = some w[0] := List.getElem?_eq_getElem (by omega)
  obtain ⟨event₀, now₀, roll₀, ha₀, -, -⟩ := hocc.stages 0 _ hfirst
  have hahead := ahead_run hk hclock hkeeps hocc (List.head?_eq_getElem? ▸ hfirst) ha₀ hlast hb hquiet (n + 1) le_rfl
  obtain ⟨p, hp, -, hp'⟩ := hahead _ n hlast' (Nat.lt_succ_self n)
  have hlt := ((grounded_after hk x (acts.take (n + 1))).2 p hp).lt
  omega

/-! ## What the windows and the number of stages say -/

/-- Within the ceiling, an entry that the eviction drops has expired. -/
theorem spares_of_window_le (hc : ∀ p, c = some p → p.ruleWindow ≤ ceiling) (now : ℕ) : Spares c now := by
  apply Option.ext
  intro p
  rw [live_eq_some, live_eq_some, young_eq_some, and_assoc]
  refine and_congr_right fun hp => and_iff_right_of_imp fun hexp => ?_
  have hwindow := hc p hp
  simp only [PendingSequence.isExpired, decide_eq_false_iff_not] at hexp
  omega

/-- A rule with two stages, and a window within the ceiling, keeps every match. -/
theorem keeps_of_two (h2 : r.stages.length = 2) (hwindow : r.window ≤ ceiling)
    (hc : ∀ p, c = some p → 1 ≤ p.nextStage ∧ p.nextStage < r.stages.length ∧ p.ruleWindow = r.window) (a : Action) :
    Keeps r x c a := by
  have hspares : ∀ now, Spares c now := spares_of_window_le fun p hp => (hc p hp).2.2.trans_le hwindow
  cases a with
  | process event now roll =>
    refine ⟨fun _ => hspares now, fun _ _ p hp => ?_⟩
    obtain ⟨hpos, hlt, -⟩ := hc p (live_eq_some.1 hp).1
    obtain hone : p.nextStage = 1 := by omega
    rw [hone, h2]
    cases r.matchesAt 1 event with
    | true => exact .inl ⟨rfl, rfl⟩
    | false => exact .inr ⟨rfl, rfl⟩
  | cleanup now => trivial
  | inlineEvict now => exact hspares now

/-- **When sequence detection is complete.** A rule with two stages or more misses nothing in a run that keeps its
matches, and a rule with two stages and a window within the ceiling misses nothing in any run. -/
theorem detection_complete (hids : (rules.map (·.id)).Nodup) (hr : r ∈ rules) (hclock : Monotone acts) (x : String) :
    (2 ≤ r.stages.length →
      (∀ n a, acts[n]? = some a → Keeps r x (after rules (acts.take n)).pending[(r.id, x)]? a) →
      Complete rules r x acts) ∧
    (r.stages.length = 2 → r.window ≤ ceiling → Complete rules r x acts) := by
  refine ⟨fun hk hkeeps => ?_, fun h2 hwindow => ?_⟩
  · refine complete_of_keeps hk hids hr hclock fun n a ha => ?_
    rw [← after_pending hids hr]
    exact hkeeps n a ha
  · refine complete_of_keeps h2.ge hids hr hclock fun n a ha => keeps_of_two h2 hwindow (fun p hp => ?_) a
    have hstands := (grounded_after h2.ge x (acts.take n)).2 p hp
    exact ⟨hstands.pos, hstands.lt, hstands.ruleWindow⟩

/-- The first stage once more, while only the first has fired: nothing is missed. -/
theorem detection_complete_renewed :
    Complete [typeRule ["download", "chmod", "exec"] 60] (typeRule ["download", "chmod", "exec"] 60) "web-1"
      [.process (typed "download") 0 false, .process (typed "download") 50 false, .process (typed "chmod") 55 false,
        .process (typed "exec") 70 true] := by
  have hids : ([typeRule ["download", "chmod", "exec"] 60].map (·.id)).Nodup := List.nodup_singleton _
  have hmem : typeRule ["download", "chmod", "exec"] 60 ∈ [typeRule ["download", "chmod", "exec"] 60] :=
    List.mem_singleton_self _
  refine (detection_complete hids hmem (by simp [Monotone, Action.now]) "web-1").1 (by decide) fun n a ha => ?_
  rw [after_pending hids hmem]
  match n, ha with
  | 0, ha =>
    cases ha
    exact ⟨nofun, fun _ _ p hp => by cases hp⟩
  | 1, ha =>
    cases ha
    refine ⟨nofun, fun _ _ p hp => .inr ?_⟩
    cases hp
    exact ⟨rfl, by decide⟩
  | 2, ha =>
    cases ha
    exact ⟨nofun, fun _ h0 => absurd h0 (by decide)⟩
  | 3, ha =>
    cases ha
    exact ⟨fun _ => rfl, fun _ h0 => absurd h0 (by decide)⟩
  | n + 4, ha => cases ha

/-- The first stage once more, after the second: the match that the third would complete is gone. -/
theorem detection_incomplete :
    ¬ ∀ (rules : List SequenceRule) (r : SequenceRule) (x : String) (acts : List Action), (rules.map (·.id)).Nodup →
      r ∈ rules → 1 ≤ r.stages.length → Monotone acts → Complete rules r x acts := by
  intro h
  have hids : ([typeRule ["download", "chmod", "exec"] 60].map (·.id)).Nodup := List.nodup_singleton _
  have hmem : typeRule ["download", "chmod", "exec"] 60 ∈ [typeRule ["download", "chmod", "exec"] 60] :=
    List.mem_singleton_self _
  have hocc : Occurrence (typeRule ["download", "chmod", "exec"] 60) "web-1"
      [.process (typed "download") 0 false, .process (typed "chmod") 1 false, .process (typed "download") 2 false,
        .process (typed "exec") 3 false] [0, 1, 3] := by
    refine ⟨⟨by decide, fun i n hi => ?_⟩, rfl, ?_⟩
    · match i, hi with
      | 0, hi =>
        cases hi
        exact ⟨_, _, _, rfl, rfl, by decide⟩
      | 1, hi =>
        cases hi
        exact ⟨_, _, _, rfl, rfl, by decide⟩
      | 2, hi =>
        cases hi
        exact ⟨_, _, _, rfl, rfl, by decide⟩
      | i + 3, hi => cases hi
    · rintro m ⟨⟩ n ⟨⟩ a ⟨⟩ b ⟨⟩
      decide
  obtain ⟨n', hn', alert, hraised⟩ :=
    h _ _ "web-1" _ hids hmem (by decide) (by simp [Monotone, Action.now]) [0, 1, 3] 3 hocc rfl
  have halert := (raised_iff hids hmem).1 hraised
  interval_cases n' <;> cases halert

/-! ## One stage -/

/-- A rule of one stage misses every event of its stage. -/
theorem complete_one_stage_iff (hids : (rules.map (·.id)).Nodup) (hr : r ∈ rules) (h1 : r.stages.length = 1) :
    Complete rules r x acts ↔ ∀ event now roll, .process event now roll ∈ acts → extractEntityKey r event = x →
      r.matchesAt 0 event = false := by
  refine ⟨fun hcomplete event now roll hmem hx => ?_, fun hnone w n hocc hlast => ?_⟩
  · -- the event alone is an occurrence
    by_contra h0
    rw [Bool.not_eq_false] at h0
    obtain ⟨n, hn⟩ := List.getElem?_of_mem hmem
    have hocc : Occurrence r x acts [n] := by
      refine ⟨⟨List.pairwise_singleton _ _, fun i l hl => ?_⟩, h1.symm, ?_⟩
      · cases i with
        | zero =>
          cases hl
          exact ⟨event, now, roll, hn, hx, h0⟩
        | succ i => cases hl
      · rintro m ⟨⟩ l ⟨⟩ a ha b hb
        obtain rfl : a = b := Option.some.inj (ha.symm.trans hb)
        exact Nat.le_add_right _ _
    obtain ⟨n', -, alert, hraised⟩ := hcomplete [n] n hocc rfl
    have := two_le_of_cellAlerts ((raised_iff hids hr).1 hraised)
    omega
  · obtain ⟨event, now, roll, hact, hx, h0⟩ := hocc.stages 0 n (by
      rw [← hlast, List.getLast?_eq_getElem?, hocc.complete, h1])
    rw [hnone event now roll (List.mem_of_getElem? hact) hx] at h0
    cases h0

end ThorFirewall.Detection
