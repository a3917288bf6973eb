import Mathlib
import ThorFirewall.Lib.Mealy

/-!
# Fixed-window rate limits

A limiter grants at most `max` requests in a window. The first request at least `window` after the start of a window
begins a new one.

- `granted_eq`: the first `max` requests of each window are granted;
- `window_le`: at most `max` requests of one window are granted;
- `interval_le`: at most `2 * max` requests of an interval of one window's length are, as it meets two windows at most
  (`two_windows`); `Windowed.interval_le` is the same for a limiter that also denies for other reasons.
-/

namespace FixedWindow

structure State where
  start : ℕ
  count : ℕ

/-- An answer, with the time of the request and the start of its window. -/
structure Reply where
  time : ℕ
  start : ℕ
  granted : Bool
  deriving DecidableEq

variable (max window : ℕ)

/-- A new window, if the old one is over. -/
def roll (s : State) (now : ℕ) : State := if window ≤ now - s.start then ⟨now, 0⟩ else s

def step (s : State) (now : ℕ) : State × Reply :=
  let s := roll window s now
  if s.count < max then ({ s with count := s.count + 1 }, ⟨now, s.start, true⟩) else (s, ⟨now, s.start, false⟩)

/-- The granted requests of a set. -/
def grants (p : Reply → Bool) (replies : List Reply) : ℕ := replies.countP fun r => r.granted && p r

variable {max window} {s : State} {now : ℕ}

theorem step_start (max window : ℕ) (s : State) (now : ℕ) :
    (step max window s now).1.start = (roll window s now).start ∧
    (step max window s now).2.start = (roll window s now).start ∧ (step max window s now).2.time = now := by
  unfold step
  dsimp only
  split_ifs <;> exact ⟨rfl, rfl, rfl⟩

theorem roll_cases (s : State) (now : ℕ) (hw : 0 < window) :
    (s.start + window ≤ now ∧ roll window s now = ⟨now, 0⟩) ∨ roll window s now = s := by
  unfold roll
  split_ifs
  · exact .inl ⟨by omega, rfl⟩
  · exact .inr rfl

theorem roll_count_le (window : ℕ) (s : State) (now : ℕ) : (roll window s now).count ≤ s.count := by
  unfold roll
  split_ifs
  · exact Nat.zero_le _
  · exact Nat.le_refl _

theorem step_count_le (window now : ℕ) (h : s.count ≤ max) : (step max window s now).1.count ≤ max := by
  have hroll := (roll_count_le window s now).trans h
  unfold step
  dsimp only
  split_ifs
  · assumption
  · exact hroll

theorem grants_concat (p : Reply → Bool) (rs : List Reply) (r : Reply) :
    grants p (rs ++ [r]) = grants p rs + if r.granted && p r then 1 else 0 := by
  simp only [grants, List.countP_append, List.countP_singleton]

theorem grants_eq_zero {p : Reply → Bool} {rs : List Reply} (h : ∀ r ∈ rs, p r = false) : grants p rs = 0 :=
  List.countP_eq_zero.2 fun r hr => by simp [h r hr]

/-- A request that is granted is counted. -/
theorem step_grants (max window : ℕ) (s : State) (now : ℕ) (p : Reply → Bool) (rs : List Reply) :
    grants p (rs ++ [(step max window s now).2]) + (roll window s now).count = grants p rs +
      if p (step max window s now).2 then (step max window s now).1.count else (roll window s now).count := by
  rw [grants_concat]
  unfold step
  dsimp only
  split_ifs <;> simp_all
  omega

/-! ## One window -/

/-- The grants of each window, and of the current one. -/
structure Counted (max : ℕ) (rs : List Reply) (s : State) : Prop where
  le_max : s.count ≤ max
  windows : ∀ start, grants (fun r => r.start = start) rs ≤ max
  current : grants (fun r => r.start = s.start) rs ≤ s.count
  start_le : ∀ r ∈ rs, r.start ≤ s.start

theorem Counted.roll {rs : List Reply} (hw : 0 < window) (h : Counted max rs s) (now : ℕ) :
    Counted max rs (roll window s now) := by
  rcases roll_cases s now hw with ⟨hnow, hroll⟩ | hroll
  · rw [hroll]
    have hlt : s.start < now := by omega
    refine ⟨Nat.zero_le _, h.windows, ?_, fun r hr => (h.start_le r hr).trans hlt.le⟩
    refine (grants_eq_zero fun r hr => ?_).le
    have := h.start_le r hr
    simp only [decide_eq_false_iff_not]
    omega
  · rwa [hroll]

theorem Counted.step {rs : List Reply} (hw : 0 < window) (h : Counted max rs s) (now : ℕ) :
    Counted max (rs ++ [(step max window s now).2]) (step max window s now).1 := by
  have hr := h.roll hw now
  obtain ⟨hstart, hreply, -⟩ := step_start max window s now
  have hle := step_count_le window now h.le_max
  have hcurrent : grants (fun r => r.start = (FixedWindow.step max window s now).1.start)
      (rs ++ [(FixedWindow.step max window s now).2]) ≤ (FixedWindow.step max window s now).1.count := by
    have hgrants := step_grants max window s now
      (fun r => r.start = (FixedWindow.step max window s now).1.start) rs
    have := hr.current
    rw [if_pos (decide_eq_true (hreply.trans hstart.symm))] at hgrants
    rw [← hstart] at this
    omega
  refine ⟨hle, fun start => ?_, hcurrent, fun r hm => ?_⟩
  · by_cases hs : start = (FixedWindow.step max window s now).1.start
    · exact hs ▸ hcurrent.trans hle
    · have hne : ((FixedWindow.step max window s now).2.granted &&
          decide ((FixedWindow.step max window s now).2.start = start)) = false := by
        rw [hreply, ← hstart, decide_eq_false (Ne.symm hs), Bool.and_false]
      rw [grants_concat, hne]
      exact h.windows start
  · rw [List.mem_append, List.mem_singleton] at hm
    rcases hm with hm | rfl
    · exact hstart ▸ hr.start_le r hm
    · exact (hreply.trans hstart.symm).le

theorem counted (hw : 0 < window) (hs : s.count ≤ max) (times : List ℕ) :
    Counted max (Mealy.outputs (step max window) s times) (Mealy.after (step max window) s times) := by
  refine Mealy.history_inv (P := fun _ rs s => Counted max rs s) ?_ (fun _ rs s now h => h.step hw now) times
  exact ⟨hs, fun _ => Nat.zero_le _, Nat.zero_le _, fun r hr => by cases hr⟩

/-- **At most `max` requests of one window are granted.** -/
theorem window_le (hw : 0 < window) (hs : s.count ≤ max) (times : List ℕ) (start : ℕ) :
    grants (fun r => r.start = start) (Mealy.outputs (step max window) s times) ≤ max :=
  (counted hw hs times).windows start

/-! ## Any interval -/

/-- The time is in the interval of one window's length from `a` on. -/
def within (window a : ℕ) (r : Reply) : Bool := a ≤ r.time ∧ r.time < a + window

/-- Two replies are of one window, or the later window begins after the first one and after the earlier request. -/
def Apart (window : ℕ) (r r' : Reply) : Prop := r.start = r'.start ∨ r.start + window ≤ r'.start ∧ r.time ≤ r'.start

theorem grants_le_add {p q r : Reply → Bool} {rs : List Reply} (h : ∀ x ∈ rs, p x = true → q x = true ∨ r x = true) :
    grants p rs ≤ grants q rs + grants r rs := by
  induction rs with
  | nil => exact Nat.zero_le _
  | cons x rs ih =>
    have hrest := ih fun x hx => h x (List.mem_cons_of_mem _ hx)
    have hone : (if (x.granted && p x) = true then 1 else 0) ≤
        (if (x.granted && q x) = true then 1 else 0) + if (x.granted && r x) = true then 1 else 0 := by
      split
      · next hp =>
        obtain ⟨hgranted, hp⟩ := (Bool.and_eq_true _ _).mp hp
        rcases h x List.mem_cons_self hp with hq | hr
        · simp [hgranted, hq]
        · simp [hgranted, hr]
      · exact Nat.zero_le _
    simp only [grants, List.countP_cons] at hrest ⊢
    omega

/-- The requests of an interval are of two windows at most. -/
theorem two_windows {rs : List Reply} (hapart : rs.Pairwise (Apart window)) (hle : ∀ r ∈ rs, r.start ≤ r.time) (a : ℕ) :
    ∃ first second, ∀ r ∈ rs, within window a r = true → r.start = first ∨ r.start = second := by
  induction rs with
  | nil => exact ⟨0, 0, fun r hr => by cases hr⟩
  | cons r₀ rs ih =>
    obtain ⟨hr₀, hrs⟩ := List.pairwise_cons.1 hapart
    by_cases hin : within window a r₀ = true
    · -- a later window begins in the interval, and the next one after it
      have hr₀in : a ≤ r₀.time ∧ r₀.time < a + window := of_decide_eq_true hin
      by_cases hother : ∃ r₁ ∈ rs, within window a r₁ = true ∧ r₁.start ≠ r₀.start
      · obtain ⟨r₁, hr₁, hr₁in, hne₁⟩ := hother
        have hr₁in : a ≤ r₁.time ∧ r₁.time < a + window := of_decide_eq_true hr₁in
        have hbegins₁ := ((hr₀ r₁ hr₁).resolve_left hne₁.symm).2
        refine ⟨r₀.start, r₁.start, fun r hr hrin => ?_⟩
        have hrin : a ≤ r.time ∧ r.time < a + window := of_decide_eq_true hrin
        by_contra hne
        push Not at hne
        rcases List.mem_cons.1 hr with rfl | hr
        · exact hne.1 rfl
        · have hbegins := ((hr₀ r hr).resolve_left hne.1.symm).2
          have hle₁ := hle r₁ (List.mem_cons_of_mem _ hr₁)
          have hler := hle r (List.mem_cons_of_mem _ hr)
          have hsymm : Std.Symm fun r r' => Apart window r r' ∨ Apart window r' r := ⟨fun _ _ => Or.symm⟩
          have htwo : Apart window r r₁ ∨ Apart window r₁ r :=
            List.Pairwise.forall_of_forall (R := fun r r' => Apart window r r' ∨ Apart window r' r)
              (fun _ _ => Or.inl (Or.inl rfl)) (hrs.imp Or.inl) hr hr₁
          unfold Apart at htwo
          omega
      · push Not at hother
        refine ⟨r₀.start, r₀.start, fun r hr hrin => ?_⟩
        rcases List.mem_cons.1 hr with rfl | hr
        · exact Or.inl rfl
        · exact Or.inl (hother r hr hrin)
    · obtain ⟨first, second, htwo⟩ := ih hrs fun r hr => hle r (List.mem_cons_of_mem _ hr)
      refine ⟨first, second, fun r hr hrin => ?_⟩
      rcases List.mem_cons.1 hr with rfl | hr
      · exact absurd hrin hin
      · exact htwo r hr hrin

/-- The replies so far, when the current window begins at `start`. -/
structure Windowed (max window : ℕ) (rs : List Reply) (s : State) : Prop where
  windows : ∀ start, grants (fun r => r.start = start) rs ≤ max
  current : grants (fun r => r.start = s.start) rs ≤ s.count
  apart : rs.Pairwise (Apart window)
  last : ∀ r ∈ rs, r.start = s.start ∨ r.start + window ≤ s.start ∧ r.time ≤ s.start
  start_le : ∀ r ∈ rs, r.start ≤ r.time

/-- A limiter that may deny what it likes answers a request, and is in state `s'` then. -/
structure Answered (max window : ℕ) (s : State) (r : Reply) (s' : State) : Prop where
  start : r.start = (roll window s r.time).start
  kept : s'.start = (roll window s r.time).start
  count : s'.count = (roll window s r.time).count + r.granted.toNat
  le_max : s'.count ≤ max

theorem Windowed.roll {rs : List Reply} (hw : 0 < window) (h : Windowed max window rs s)
    (hnow : ∀ r ∈ rs, r.time ≤ now) : Windowed max window rs (roll window s now) := by
  rcases roll_cases s now hw with ⟨hlt, hroll⟩ | hroll
  · rw [hroll]
    have hlast : ∀ r ∈ rs, r.start + window ≤ now ∧ r.time ≤ now := fun r hr =>
      ⟨by have := h.last r hr; omega, hnow r hr⟩
    refine ⟨h.windows, (grants_eq_zero fun r hr => ?_).le, h.apart, fun r hr => Or.inr (hlast r hr), h.start_le⟩
    have := hlast r hr
    simp only [decide_eq_false_iff_not]
    omega
  · rwa [hroll]

theorem Windowed.concat {rs : List Reply} {r : Reply} {s' : State} (hw : 0 < window) (h : Windowed max window rs s)
    (hr : Answered max window s r s') (hs : s.start ≤ r.time) (hnow : ∀ r' ∈ rs, r'.time ≤ r.time) :
    Windowed max window (rs ++ [r]) s' := by
  have hrolled := h.roll hw hnow
  have hstart : r.start ≤ r.time := by
    rw [hr.start]
    rcases roll_cases s r.time hw with ⟨-, hroll⟩ | hroll <;> rw [hroll]
    exact hs
  have hcurrent : grants (fun r => r.start = s'.start) (rs ++ [r]) ≤ s'.count := by
    have hold := hrolled.current
    rw [grants_concat, hr.count, hr.kept, hr.start]
    cases r.granted <;> simp at hold ⊢ <;> exact hold
  have hlast := hrolled.last
  refine ⟨fun start => ?_, hcurrent, ?_, ?_, ?_⟩
  · by_cases heq : start = s'.start
    · exact heq ▸ hcurrent.trans hr.le_max
    · have hne : (r.granted && decide (r.start = start)) = false := by
        rw [hr.start, ← hr.kept, decide_eq_false (Ne.symm heq), Bool.and_false]
      rw [grants_concat, hne]
      exact h.windows start
  · refine List.pairwise_append.2 ⟨h.apart, List.pairwise_singleton _ _, fun r' hr' r'' hmem => ?_⟩
    rw [List.mem_singleton.1 hmem, Apart, hr.start]
    exact hlast r' hr'
  · intro r' hr'
    rw [hr.kept]
    rcases List.mem_append.1 hr' with hr' | hr'
    · exact hlast r' hr'
    · rw [List.mem_singleton.1 hr']
      exact Or.inl hr.start
  · intro r' hr'
    rcases List.mem_append.1 hr' with hr' | hr'
    · exact h.start_le r' hr'
    · exact List.mem_singleton.1 hr' ▸ hstart

theorem Windowed.interval_le {rs : List Reply} (h : Windowed max window rs s) (a : ℕ) :
    grants (within window a) rs ≤ 2 * max := by
  obtain ⟨first, second, htwo⟩ := two_windows h.apart h.start_le a
  have hadd := grants_le_add (q := fun x => x.start = first) (r := fun x => x.start = second) fun r hr hin =>
    (htwo r hr hin).imp decide_eq_true decide_eq_true
  have hfirst := h.windows first
  have hsecond := h.windows second
  omega

theorem step_answered (h : s.count ≤ max) (now : ℕ) :
    Answered max window s (step max window s now).2 (step max window s now).1 := by
  obtain ⟨hstart, hreply, htime⟩ := step_start max window s now
  refine ⟨htime.symm ▸ hreply, htime.symm ▸ hstart, ?_, step_count_le window now h⟩
  rw [htime]
  unfold step
  dsimp only
  split_ifs <;> rfl

/-- **At most `2 * max` requests of an interval of one window's length are granted.** -/
theorem interval_le (hw : 0 < window) (hs : s.count = 0) {times : List ℕ} (hmono : (s.start :: times).Pairwise (· ≤ ·))
    (a : ℕ) : grants (within window a) (Mealy.outputs (FixedWindow.step max window) s times) ≤ 2 * max := by
  have hwindowed := @Mealy.history_inv _ _ _ (FixedWindow.step max window) (fun times rs s' =>
    (s.start :: times).Pairwise (· ≤ ·) → Windowed max window rs s' ∧ s'.count ≤ max ∧
      s'.start ∈ s.start :: times ∧ ∀ r ∈ rs, r.time ∈ times) s ?_ ?_ times hmono
  · exact hwindowed.1.interval_le a
  · intro _
    refine ⟨⟨fun _ => Nat.zero_le _, Nat.zero_le _, List.Pairwise.nil, ?_, ?_⟩, hs ▸ Nat.zero_le _,
      List.mem_cons_self, ?_⟩ <;> exact fun r hr => by cases hr
  · intro times rs s' now h hmono
    rw [← List.cons_append, List.pairwise_append] at hmono
    obtain ⟨hwindowed, hcount, hstarted, htimes⟩ := h hmono.1
    have hnow : ∀ t ∈ s.start :: times, t ≤ now := fun t ht => hmono.2.2 t ht now (List.mem_singleton_self _)
    obtain ⟨hstart, -, htime⟩ := step_start max window s' now
    refine ⟨hwindowed.concat hw (step_answered hcount now) ?_ ?_, step_count_le window now hcount, ?_, ?_⟩
    · exact htime.symm ▸ hnow _ hstarted
    · exact fun r hr => htime.symm ▸ hnow _ (List.mem_cons_of_mem _ (htimes r hr))
    · rw [hstart, ← List.cons_append]
      rcases roll_cases s' now hw with ⟨-, hroll⟩ | hroll
      · rw [hroll]
        exact List.mem_append_right _ (List.mem_singleton_self _)
      · rw [hroll]
        exact List.mem_append_left _ hstarted
    · intro r hr
      rcases List.mem_append.1 hr with hr | hr
      · exact List.mem_append_left _ (htimes r hr)
      · rw [List.mem_singleton.1 hr, htime]
        exact List.mem_append_right _ (List.mem_singleton_self _)

/-! ## Which requests are granted -/

/-- The times of requests, window by window. -/
def windows (window : ℕ) : List ℕ → List (List ℕ)
  | [] => []
  | t :: times => (t :: times.takeWhile (· < t + window)) :: windows window (times.dropWhile (· < t + window))
termination_by times => times.length
decreasing_by exact Nat.lt_succ_of_le (List.length_dropWhile_le _ _)

/-- The answers to `n` requests of which the first `max` are granted. -/
def firstGranted (max n : ℕ) : List Bool := (List.range n).map (· < max)

theorem firstGranted_eq (max n : ℕ) :
    firstGranted max n = List.replicate (min n max) true ++ List.replicate (n - max) false := by
  refine List.ext_getElem ?_ fun i hi hi' => ?_
  · simp only [firstGranted, List.length_map, List.length_range, List.length_append, List.length_replicate]
    omega
  · simp only [firstGranted, List.length_map, List.length_range] at hi
    simp only [firstGranted, List.getElem_map, List.getElem_range, List.getElem_append, List.length_replicate,
      List.getElem_replicate]
    split_ifs with hlt
    · exact decide_eq_true (by omega)
    · exact decide_eq_false (by omega)

/-- The requests of a window, when some have been made in it. -/
theorem granted_within (hw : 0 < window) {start n : ℕ} {times : List ℕ} (h : ∀ t ∈ times, t < start + window) :
    (Mealy.outputs (step max window) ⟨start, min n max⟩ times).map Reply.granted =
      (List.range times.length).map (fun k => decide (n + k < max)) ∧
    Mealy.after (step max window) ⟨start, min n max⟩ times = ⟨start, min (n + times.length) max⟩ := by
  induction times generalizing n with
  | nil => exact ⟨rfl, rfl⟩
  | cons t times ih =>
    obtain ⟨ht, htimes⟩ := List.forall_mem_cons.1 h
    have hroll : roll window ⟨start, min n max⟩ t = ⟨start, min n max⟩ := if_neg (by dsimp only; omega)
    have hstep : step max window ⟨start, min n max⟩ t = (⟨start, min (n + 1) max⟩, ⟨t, start, decide (n < max)⟩) := by
      unfold step
      dsimp only
      rw [hroll]
      dsimp only
      split_ifs with hlt
      · rw [decide_eq_true (by omega), show min n max + 1 = min (n + 1) max by omega]
      · rw [decide_eq_false (by omega), show min n max = min (n + 1) max by omega]
    obtain ⟨hreplies, hafter⟩ := ih (n := n + 1) htimes
    refine ⟨?_, ?_⟩
    · rw [Mealy.outputs, hstep, List.map_cons, hreplies, List.length_cons, List.range_succ_eq_map, List.map_cons,
        List.map_map]
      refine congrArg _ (List.map_congr_left fun k _ => ?_)
      exact decide_eq_decide.2 (by rw [Nat.succ_eq_add_one]; omega)
    · rw [Mealy.after, hstep, hafter, List.length_cons]
      exact congrArg _ (by omega)

/-- A window that is over, or has just begun. -/
def Ready (window : ℕ) (s : State) (times : List ℕ) : Prop := ∀ t ∈ times.head?, roll window s t = ⟨t, 0⟩

/-- **The first `max` requests of each window are granted**, and no others. -/
theorem granted_eq (hw : 0 < window) {times : List ℕ} (hs : Ready window s times) :
    (Mealy.outputs (step max window) s times).map Reply.granted =
      (windows window times).flatMap fun w => firstGranted max w.length := by
  induction times using windows.induct window generalizing s with
  | case1 => simp [windows, Mealy.outputs]
  | case2 t times ih =>
    have hroll : roll window s t = ⟨t, min 0 max⟩ := by rw [hs t rfl, Nat.zero_min]
    have hstep : step max window s t = step max window ⟨t, min 0 max⟩ t := by
      have hagain : roll window ⟨t, min 0 max⟩ t = ⟨t, min 0 max⟩ := if_neg (by dsimp only; omega)
      unfold step
      rw [hroll, hagain]
    have hwithin : ∀ t' ∈ t :: times.takeWhile (· < t + window), t' < t + window := by
      refine List.forall_mem_cons.2 ⟨by omega, fun t' ht' => ?_⟩
      exact of_decide_eq_true (List.mem_takeWhile_imp (p := fun x => decide (x < t + window)) ht')
    obtain ⟨hreplies, hafter⟩ := granted_within (n := 0) hw hwithin
    have hrest : Ready window (Mealy.after (step max window) ⟨t, min 0 max⟩ (t :: times.takeWhile (· < t + window)))
        (times.dropWhile (· < t + window)) := by
      intro t' ht'
      have hover : ¬ t' < t + window := by
        have := List.head?_dropWhile_not (fun x => decide (x < t + window)) times
        rw [Option.mem_def.1 ht'] at this
        simpa using this
      rw [hafter, roll, if_pos (by dsimp only; omega)]
    have hcut : t :: times = (t :: times.takeWhile (· < t + window)) ++ times.dropWhile (· < t + window) := by
      rw [List.cons_append, List.takeWhile_append_dropWhile]
    have hsame : Mealy.outputs (step max window) s (t :: times) =
        Mealy.outputs (step max window) ⟨t, min 0 max⟩ (t :: times) := by
      rw [Mealy.outputs, hstep, ← Mealy.outputs]
    rw [hsame, windows, List.flatMap_cons, hcut, Mealy.outputs_append, List.map_append, hreplies, ih hrest]
    simp only [Nat.zero_add]
    rfl

end FixedWindow
