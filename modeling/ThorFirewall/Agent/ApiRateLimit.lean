import Mathlib
import ThorFirewall.Lib.FixedWindow

/-!
# The rate limit of the API (`api/rate_limit.rs`)

A request of an address without an entry makes one whose count is 1, and is then counted again; when the window of an
entry is over, a new entry is made, and the request is counted once and allowed without a look at the limit. `cleanup`
removes the entries that began two windows ago or earlier.

- `answersTo_eq`: the answers to the requests of an address, window by window (`timelineWindows`);
- `answers_eq_iff`: in which windows the first `max_requests` requests are allowed and no others;
- `rate_limit_iff`: the same for every run.

Each call reads the clock once here.
-/

namespace ThorFirewall.Api

open FixedWindow (firstGranted)

structure WindowEntry where
  count : UInt32
  windowStart : ℕ
  deriving DecidableEq

namespace WindowEntry

def new (now : ℕ) : WindowEntry := ⟨1, now⟩

def isExpired (e : WindowEntry) (window now : ℕ) : Bool := window ≤ now - e.windowStart

end WindowEntry

structure RateLimiter where
  windows : String → Option WindowEntry
  windowDuration : ℕ
  maxRequests : UInt32

/-- The new entry of an address, and whether the request is allowed. -/
def checkEntry (max : UInt32) (window : ℕ) (entry : Option WindowEntry) (now : ℕ) : WindowEntry × Bool :=
  let entry := entry.getD (.new now)
  if entry.isExpired window now then (.new now, true)
  else
    let entry := { entry with count := entry.count + 1 }
    if max < entry.count then (entry, false) else (entry, true)

/-- What `cleanup` leaves of an entry. -/
def keep (window now : ℕ) (entry : Option WindowEntry) : Option WindowEntry :=
  entry.filter fun e => !e.isExpired (window * 2) now

namespace RateLimiter

def new (maxRequests : UInt32) (windowDuration : ℕ) : RateLimiter := ⟨fun _ => none, windowDuration, maxRequests⟩

def check (r : RateLimiter) (ip : String) (now : ℕ) : RateLimiter × Bool :=
  let (entry, allowed) := checkEntry r.maxRequests r.windowDuration (r.windows ip) now
  ({ r with windows := Function.update r.windows ip (some entry) }, allowed)

def cleanup (r : RateLimiter) (now : ℕ) : RateLimiter :=
  { r with windows := fun ip => keep r.windowDuration now (r.windows ip) }

end RateLimiter

/-- A call, with the time on the clock. -/
inductive Call
  | check (ip : String) (now : ℕ)
  | cleanup (now : ℕ)

def Call.time : Call → ℕ
  | check _ now => now
  | cleanup now => now

/-- A call on a limiter with these windows. -/
def step (max : UInt32) (window : ℕ) (windows : String → Option WindowEntry) :
    Call → (String → Option WindowEntry) × Option Bool
  | .check ip now =>
    let (r, allowed) := RateLimiter.check ⟨windows, window, max⟩ ip now
    (r.windows, some allowed)
  | .cleanup now => ((RateLimiter.cleanup ⟨windows, window, max⟩ now).windows, none)

/-! ## One address -/

/-- What concerns one address: its requests, and every clean-up. -/
inductive Tick
  | request (now : ℕ)
  | cleanup (now : ℕ)

namespace Tick

def time : Tick → ℕ
  | request now => now
  | cleanup now => now

def isRequest : Tick → Bool
  | request _ => true
  | cleanup _ => false

end Tick

def Call.tick (ip : String) : Call → Option Tick
  | check ip' now => if ip' = ip then some (.request now) else none
  | cleanup now => some (.cleanup now)

def timeline (ip : String) (calls : List Call) : List Tick := calls.filterMap (Call.tick ip)

/-- The answers to the requests of an address. -/
def answersTo (max : UInt32) (window : ℕ) (calls : List Call) (ip : String) : List Bool :=
  ((calls.zip (Mealy.outputs (step max window) (RateLimiter.new max window).windows calls)).filterMap fun p =>
    (p.1.tick ip).map fun _ => p.2).reduceOption

def entryStep (max : UInt32) (window : ℕ) (entry : Option WindowEntry) : Tick → Option WindowEntry × Option Bool
  | .request now => (some (checkEntry max window entry now).1, some (checkEntry max window entry now).2)
  | .cleanup now => (keep window now entry, none)

variable {max : UInt32} {window : ℕ}

/-- The answers to an address are those that it would get alone. -/
theorem answersTo_eq (max : UInt32) (window : ℕ) (calls : List Call) (ip : String) :
    answersTo max window calls ip = (Mealy.outputs (entryStep max window) none (timeline ip calls)).reduceOption := by
  have hproject := @Mealy.outputs_project _ _ _ _ _ _ (step max window) (entryStep max window)
    (fun windows => windows ip) (Call.tick ip) id ?_ ?_ (RateLimiter.new max window).windows calls
  · exact congrArg List.reduceOption hproject
  · intro windows call tick htick
    cases call with
    | check ip' now =>
      simp only [Call.tick, Option.ite_none_right_eq_some, Option.some.injEq] at htick
      obtain ⟨rfl, rfl⟩ := htick
      exact Prod.ext (Function.update_self ..) rfl
    | cleanup now =>
      obtain rfl := Option.some.inj htick
      rfl
  · intro windows call hother
    cases call with
    | check ip' now =>
      simp only [Call.tick, ite_eq_right_iff, reduceCtorEq, imp_false] at hother
      exact Function.update_of_ne (Ne.symm hother) _ _
    | cleanup now => cases hother

/-! ## Windows of a timeline -/

/-- Whether a clean-up comes before the next request and removes the entry that was made at `start`. -/
def evicts (window start : ℕ) (ticks : List Tick) : Bool :=
  (ticks.takeWhile fun e => !e.isRequest).any fun e => start + window * 2 ≤ e.time

/-- A window of an address: whether the address had no entry when it began, and how many requests it has. -/
structure Window where
  fresh : Bool
  size : ℕ

/-- The windows of the requests. The first one begins without an entry if `fresh`. -/
def timelineWindows (window : ℕ) (fresh : Bool) : List Tick → List Window
  | [] => []
  | .cleanup _ :: ticks => timelineWindows window fresh ticks
  | .request t :: ticks =>
    ⟨fresh, 1 + (ticks.takeWhile (·.time < t + window)).countP Tick.isRequest⟩ ::
      timelineWindows window (evicts window t (ticks.dropWhile (·.time < t + window)))
        (ticks.dropWhile (·.time < t + window))
termination_by ticks => ticks.length
decreasing_by
  · exact Nat.lt_succ_self _
  · exact Nat.lt_succ_of_le (List.length_dropWhile_le _ _)

namespace Window

/-- The answers in a window. -/
def answers (max : UInt32) (window : ℕ) (w : Window) : List Bool :=
  (List.range w.size).map fun k =>
    if w.fresh = true ∧ 0 < window then decide (UInt32.ofNat (k + 2) ≤ max)
    else decide (k = 0 ∨ UInt32.ofNat (k + 1) ≤ max)

end Window

/-- In a window that has begun, the requests count on. -/
theorem run_within {start : ℕ} {count : UInt32} {ticks : List Tick}
    (h : ∀ e ∈ ticks, start ≤ e.time ∧ e.time < start + window) :
    (Mealy.outputs (entryStep max window) (some ⟨count, start⟩) ticks).reduceOption =
      (List.range (ticks.countP Tick.isRequest)).map (fun k => decide (count + UInt32.ofNat (k + 1) ≤ max)) ∧
    Mealy.after (entryStep max window) (some ⟨count, start⟩) ticks =
      some ⟨count + UInt32.ofNat (ticks.countP Tick.isRequest), start⟩ := by
  induction ticks generalizing count with
  | nil => exact ⟨rfl, by simp [Mealy.after]⟩
  | cons e ticks ih =>
    obtain ⟨⟨hle, hlt⟩, hticks⟩ := List.forall_mem_cons.1 h
    cases e with
    | cleanup now =>
      have hkeep : entryStep max window (some ⟨count, start⟩) (.cleanup now) = (some ⟨count, start⟩, none) := by
        have hnot : ¬ window * 2 ≤ now - start := by
          simp only [Tick.time] at hle hlt
          omega
        simp [entryStep, keep, WindowEntry.isExpired, hnot]
      simp only [Mealy.outputs, Mealy.after, hkeep, List.reduceOption_cons_of_none, List.countP_cons, Tick.isRequest,
        Bool.false_eq_true, if_false, Nat.add_zero]
      exact ih hticks
    | request now =>
      have hrequest : entryStep max window (some ⟨count, start⟩) (.request now) =
          (some ⟨count + 1, start⟩, some (decide (count + 1 ≤ max))) := by
        have hnot : ¬ window ≤ now - start := by
          simp only [Tick.time] at hle hlt
          omega
        have hexpired : WindowEntry.isExpired ⟨count, start⟩ window now = false := decide_eq_false hnot
        simp only [entryStep, checkEntry, Option.getD_some, hexpired, Bool.false_eq_true, if_false]
        split_ifs with hover
        · rw [decide_eq_false (UInt32.not_le.2 hover)]
        · rw [decide_eq_true (UInt32.not_lt.1 hover)]
      obtain ⟨hanswers, hafter⟩ := @ih (count + 1) hticks
      have hsucc (k : ℕ) : count + 1 + UInt32.ofNat k = count + UInt32.ofNat (k + 1) := by
        rw [UInt32.add_assoc, UInt32.ofNat_add, UInt32.add_comm 1]
        rfl
      simp only [Mealy.outputs, Mealy.after, hrequest, List.reduceOption_cons_of_some, List.countP_cons, Tick.isRequest,
        if_true, hanswers, hafter, hsucc, List.range_succ_eq_map, List.map_cons, List.map_map]
      exact ⟨rfl, trivial⟩

/-- The entry before a list of events that begins a window with its first request. -/
def Begins (window : ℕ) (fresh : Bool) (entry : Option WindowEntry) (ticks : List Tick) : Prop :=
  entry = none ∧ fresh = true ∨ ∃ e, entry = some e ∧ fresh = evicts window e.windowStart ticks ∧
    ∀ t ∈ ticks, e.windowStart + window ≤ t.time

/-- A clean-up in front of the next request. -/
theorem Begins.cleanup {fresh : Bool} {entry : Option WindowEntry} {now : ℕ} {ticks : List Tick}
    (h : Begins window fresh entry (.cleanup now :: ticks)) : Begins window fresh (keep window now entry) ticks := by
  rcases h with ⟨rfl, hfresh⟩ | ⟨e, rfl, hfresh, hover⟩
  · exact Or.inl ⟨rfl, hfresh⟩
  · have hevicts : evicts window e.windowStart (.cleanup now :: ticks) =
        (decide (e.windowStart + window * 2 ≤ now) || evicts window e.windowStart ticks) := rfl
    by_cases hold : e.windowStart + window * 2 ≤ now
    · refine Or.inl ⟨?_, ?_⟩
      · have hexpired : e.isExpired (window * 2) now = true := decide_eq_true (by omega)
        simp [keep, hexpired]
      · rw [hfresh, hevicts, decide_eq_true hold, Bool.true_or]
    · refine Or.inr ⟨e, ?_, ?_, fun t ht => hover t (List.mem_cons_of_mem _ ht)⟩
      · have hstart := hover _ List.mem_cons_self
        have hexpired : e.isExpired (window * 2) now = false := by
          refine decide_eq_false ?_
          simp only [Tick.time] at hstart
          rcases Nat.eq_zero_or_pos window with hzero | hpos <;> omega
        simp [keep, hexpired]
      · rw [hfresh, hevicts, decide_eq_false hold, Bool.false_or]

/-- The request that begins a window. -/
theorem Begins.request {fresh : Bool} {entry : Option WindowEntry} {t : ℕ} {ticks : List Tick}
    (h : Begins window fresh entry (.request t :: ticks)) : checkEntry max window entry t =
      if fresh = true ∧ 0 < window then (⟨2, t⟩, decide (2 ≤ max)) else (.new t, true) := by
  rcases h with ⟨rfl, rfl⟩ | ⟨e, rfl, rfl, hover⟩
  · rcases Nat.eq_zero_or_pos window with rfl | hpos
    · rfl
    · have hexpired : (WindowEntry.new t).isExpired window t = false :=
        decide_eq_false (by simp only [WindowEntry.new]; omega)
      rw [if_pos ⟨rfl, hpos⟩]
      simp only [checkEntry, Option.getD_none, hexpired, Bool.false_eq_true, if_false]
      show (if max < 2 then ((⟨2, t⟩ : WindowEntry), false) else (⟨2, t⟩, true)) = _
      split_ifs with hlt
      · rw [decide_eq_false (UInt32.not_le.2 hlt)]
      · rw [decide_eq_true (UInt32.not_lt.1 hlt)]
  · have hstart : e.windowStart + window ≤ t := hover _ List.mem_cons_self
    have hexpired : e.isExpired window t = true := decide_eq_true (by omega)
    have hfresh : evicts window e.windowStart (.request t :: ticks) = false := rfl
    rw [hfresh, if_neg (by simp)]
    simp only [checkEntry, Option.getD_some, hexpired, if_true]

/-- What comes after a window, by the clock. -/
theorem le_of_mem_dropWhile {bound : ℕ} {ticks : List Tick} (h : (ticks.map Tick.time).Pairwise (· ≤ ·)) :
    ∀ e ∈ ticks.dropWhile (·.time < bound), bound ≤ e.time := by
  induction ticks with
  | nil => exact fun e he => by cases he
  | cons e₀ ticks ih =>
    by_cases hlt : e₀.time < bound
    · rw [List.dropWhile_cons_of_pos (by simpa using hlt)]
      exact ih h.of_cons
    · rw [List.dropWhile_cons_of_neg (by simpa using hlt)]
      refine List.forall_mem_cons.2 ⟨Nat.le_of_not_lt hlt, fun e he => (Nat.le_of_not_lt hlt).trans ?_⟩
      exact (List.pairwise_cons.1 h).1 _ (List.mem_map_of_mem he)

/-- The answers in a window, from those of its first request and of the others. -/
theorem Window.answers_succ (max : UInt32) (window : ℕ) (fresh : Bool) (n : ℕ) (t : ℕ) :
    Window.answers max window ⟨fresh, 1 + n⟩ =
      let first := if fresh = true ∧ 0 < window then ((⟨2, t⟩ : WindowEntry), decide (2 ≤ max)) else (.new t, true)
      first.2 :: (List.range n).map fun k => decide (first.1.count + UInt32.ofNat (k + 1) ≤ max) := by
  have hadd (c k : ℕ) : UInt32.ofNat c + UInt32.ofNat (k + 1) = UInt32.ofNat (k + 1 + c) := by
    rw [UInt32.ofNat_add (k + 1) c, UInt32.add_comm]
  rw [Window.answers, Nat.add_comm 1 n, List.range_succ_eq_map, List.map_cons, List.map_map]
  split_ifs with hfresh
  · refine congrArg₂ List.cons rfl (List.map_congr_left fun k _ => ?_)
    exact congrArg (fun c : UInt32 => decide (c ≤ max)) (hadd 2 k).symm
  · refine congrArg₂ List.cons (decide_eq_true (Or.inl rfl)) (List.map_congr_left fun k _ => ?_)
    refine decide_eq_decide.2 ((or_iff_right (Nat.succ_ne_zero k)).trans ?_)
    exact iff_of_eq (congrArg (· ≤ max) (hadd 1 k).symm)

/-- **The answers of a run**, window by window. -/
theorem run_windows {fresh : Bool} {entry : Option WindowEntry} {ticks : List Tick}
    (hclock : (ticks.map Tick.time).Pairwise (· ≤ ·)) (h : Begins window fresh entry ticks) :
    (Mealy.outputs (entryStep max window) entry ticks).reduceOption =
      (timelineWindows window fresh ticks).flatMap (Window.answers max window) := by
  induction fresh, ticks using timelineWindows.induct window generalizing entry with
  | case1 fresh =>
    rw [timelineWindows]
    rfl
  | case2 fresh now ticks ih =>
    rw [timelineWindows, Mealy.outputs, entryStep, List.reduceOption_cons_of_none]
    exact ih hclock.of_cons h.cleanup
  | case3 fresh t ticks ih =>
    rw [List.map_cons, List.pairwise_cons] at hclock
    have hwithin : ∀ e ∈ ticks.takeWhile (·.time < t + window), t ≤ e.time ∧ e.time < t + window := by
      intro e he
      refine ⟨hclock.1 _ (List.mem_map_of_mem ((List.takeWhile_prefix _).mem he)), ?_⟩
      exact of_decide_eq_true (List.mem_takeWhile_imp (p := fun e : Tick => decide (e.time < t + window)) he)
    have hrest : ∀ count, Begins window (evicts window t (ticks.dropWhile (·.time < t + window))) (some ⟨count, t⟩)
        (ticks.dropWhile (·.time < t + window)) := fun count =>
      Or.inr ⟨_, rfl, rfl, le_of_mem_dropWhile hclock.2⟩
    have hstart : (checkEntry max window entry t).1 = ⟨(checkEntry max window entry t).1.count, t⟩ := by
      rw [h.request]
      split_ifs <;> rfl
    obtain ⟨hanswers, hafter⟩ := @run_within max window t (checkEntry max window entry t).1.count _ hwithin
    have hfirst := Window.answers_succ max window fresh ((ticks.takeWhile (·.time < t + window)).countP Tick.isRequest) t
    rw [← h.request] at hfirst
    rw [timelineWindows, List.flatMap_cons, hfirst, Mealy.outputs, entryStep, List.reduceOption_cons_of_some, hstart]
    conv_lhs => rw [← List.takeWhile_append_dropWhile (p := fun e : Tick => decide (e.time < t + window)) (l := ticks)]
    rw [Mealy.outputs_append, List.reduceOption_append, hanswers, hafter,
      ih (hclock.2.sublist ((List.dropWhile_sublist _).map _)) (hrest _)]
    rfl

/-! ## Where the limit is exact -/

/-- A window with few requests for its kind: one that begins without an entry must stay below the limit, as its first
request is counted twice. The bounds of 2 ^ 32 are those of the counter. -/
def Window.Fits (max : UInt32) (window : ℕ) (w : Window) : Prop :=
  if w.fresh = true ∧ 0 < window then
    w.size < max.toNat ∨ max.toNat = 0 ∧ w.size + 1 < 2 ^ 32 ∨ max.toNat + 1 = 2 ^ 32 ∧ w.size < 2 ^ 32
  else 0 < max.toNat ∧ w.size < 2 ^ 32

/-- **In a window the first `max_requests` requests are allowed** and no others, if and only if it fits. -/
theorem answers_eq_iff {w : Window} (hsize : 0 < w.size) :
    w.answers max window = firstGranted max.toNat w.size ↔ w.Fits max window := by
  have hmax := UInt32.toNat_lt max
  have hle (k : ℕ) : UInt32.ofNat k ≤ max ↔ k % 2 ^ 32 ≤ max.toNat := by
    rw [UInt32.le_iff_toNat_le, UInt32.toNat_ofNat']
  rw [Window.answers, firstGranted, List.map_inj_left, Window.Fits]
  simp only [List.mem_range]
  split_ifs with hfresh
  · simp only [decide_eq_decide, hle]
    constructor
    · intro h
      have hlast := h (max.toNat - 1)
      have hwrap := h (2 ^ 32 - 2)
      have hfull := h (2 ^ 32 - 1)
      omega
    · intro h k hk
      omega
  · simp only [decide_eq_decide, hle]
    constructor
    · intro h
      have hfirst := h 0 hsize
      have hwrap := h (2 ^ 32 - 1)
      omega
    · intro h k hk
      omega

theorem size_pos {fresh : Bool} {ticks : List Tick} : ∀ w ∈ timelineWindows window fresh ticks, 0 < w.size := by
  induction fresh, ticks using timelineWindows.induct window with
  | case1 fresh =>
    rw [timelineWindows]
    exact fun w hw => by cases hw
  | case2 fresh now ticks ih => rwa [timelineWindows]
  | case3 fresh t ticks ih =>
    rw [timelineWindows]
    exact List.forall_mem_cons.2 ⟨Nat.lt_of_lt_of_le Nat.one_pos (Nat.le_add_right 1 _), ih⟩

/-- The windows of an address in a run that starts without entries. -/
def windowsOf (window : ℕ) (calls : List Call) (ip : String) : List Window :=
  timelineWindows window true (timeline ip calls)

theorem flatMap_eq_iff {α β : Type*} {l : List α} {f g : α → List β} (h : ∀ a ∈ l, (f a).length = (g a).length) :
    l.flatMap f = l.flatMap g ↔ ∀ a ∈ l, f a = g a := by
  induction l with
  | nil => exact iff_of_true rfl fun a ha => by cases ha
  | cons a l ih =>
    obtain ⟨ha, hl⟩ := List.forall_mem_cons.1 h
    rw [List.flatMap_cons, List.flatMap_cons, List.forall_mem_cons, ← ih hl]
    exact ⟨fun heq => List.append_inj heq ha, fun ⟨hhead, htail⟩ => by rw [hhead, htail]⟩

theorem timeline_clock {calls : List Call} (h : (calls.map Call.time).Pairwise (· ≤ ·)) (ip : String) :
    ((timeline ip calls).map Tick.time).Pairwise (· ≤ ·) := by
  rw [List.pairwise_map] at h ⊢
  have htime {call : Call} {tick : Tick} (htick : tick ∈ call.tick ip) : tick.time = call.time := by
    cases call with
    | check ip' now =>
      simp only [Call.tick, Option.mem_def, Option.ite_none_right_eq_some, Option.some.injEq] at htick
      exact htick.2 ▸ rfl
    | cleanup now => exact Option.some.inj htick ▸ rfl
  refine List.pairwise_filterMap.2 (h.imp fun {call call'} hle tick htick tick' htick' => ?_)
  rwa [htime htick, htime htick']

/-- **The limit is exact in a run**, if and only if every window of every address fits. -/
theorem rate_limit_iff (max : UInt32) (window : ℕ) {calls : List Call}
    (hclock : (calls.map Call.time).Pairwise (· ≤ ·)) :
    (∀ ip, answersTo max window calls ip = (windowsOf window calls ip).flatMap fun w =>
      List.replicate (min w.size max.toNat) true ++ List.replicate (w.size - max.toNat) false) ↔
    ∀ ip, ∀ w ∈ windowsOf window calls ip, w.Fits max window := by
  refine forall_congr' fun ip => ?_
  have hanswers := @run_windows max window true none _ (timeline_clock hclock ip) (Or.inl ⟨rfl, rfl⟩)
  simp only [← FixedWindow.firstGranted_eq]
  rw [answersTo_eq, hanswers, windowsOf, flatMap_eq_iff fun w _ => by simp [Window.answers, firstGranted]]
  exact forall₂_congr fun w hw => answers_eq_iff (size_pos w hw)

/-- A limit of one request denies the first one. -/
theorem first_request_denied : ¬ answersTo 1 (60 * 10 ^ 9) [.check "10.0.0.1" 0] "10.0.0.1" =
    (windowsOf (60 * 10 ^ 9) [.check "10.0.0.1" 0] "10.0.0.1").flatMap fun w =>
      List.replicate (min w.size 1) true ++ List.replicate (w.size - 1) false := by
  have hdenied : answersTo 1 (60 * 10 ^ 9) [.check "10.0.0.1" 0] "10.0.0.1" = [false] := by decide
  rw [hdenied]
  simp [windowsOf, timeline, Call.tick, timelineWindows]

/-- One request in a first window and two in the next one, with a limit of two: the windows fit. -/
theorem two_windows_exact :
    answersTo 2 10 [.check "10.0.0.1" 0, .check "10.0.0.1" 10, .check "10.0.0.1" 11] "10.0.0.1" =
      (windowsOf 10 [.check "10.0.0.1" 0, .check "10.0.0.1" 10, .check "10.0.0.1" 11] "10.0.0.1").flatMap fun w =>
        List.replicate (min w.size 2) true ++ List.replicate (w.size - 2) false := by
  refine (rate_limit_iff 2 10 (by decide)).2 (fun ip => ?_) _
  by_cases h : "10.0.0.1" = ip <;>
    simp [windowsOf, timeline, Call.tick, h, timelineWindows, evicts, Window.Fits, Tick.time, Tick.isRequest]

end ThorFirewall.Api
