import Mathlib
import ThorFirewall.Lib.FixedWindow

/-!
# The rate limit of the web agent (`thor-agent-web/src/main.rs`)

For each address `check_rate_limit` keeps a counter and the start of a window. It counts denied requests too, and a
window is over when more than `RATE_LIMIT_WINDOW_MS` have passed: in clock ticks, it is one longer than that.

- `entry_replies`: for one address the limit is the fixed-window limit (`FixedWindow`);
- `answers_eq`: the answers to an address are those that it would get alone;
- `rate_limit_exact`: the requests that are let through, when an address makes fewer than 2 ^ 64 of them.
-/

namespace ThorFirewall.Web

open FixedWindow (windows firstGranted)

def rateLimitWindowMs : ℕ := 60000

/-- For each address, the count and the start of the window in milliseconds. -/
abbrev RateCounters := String → Option (UInt64 × ℕ)

/-- The new entry of an address, and whether the request is over the limit. -/
def checkEntry (rpm : UInt64) (entry : Option (UInt64 × ℕ)) (now : ℕ) : Option (UInt64 × ℕ) × Bool :=
  let (count, windowStart) := entry.getD (0, now)
  if rateLimitWindowMs < now - windowStart then (some (1, now), false)
  else (some (count + 1, windowStart), decide (rpm ≤ count))

def checkRateLimit (ip : String) (rpm : UInt64) (counters : RateCounters) (now : ℕ) : RateCounters × Bool :=
  (Function.update counters ip (checkEntry rpm (counters ip) now).1, (checkEntry rpm (counters ip) now).2)

/-- The times of the requests of an address. -/
def timesOf (ip : String) (calls : List (String × ℕ)) : List ℕ :=
  calls.filterMap fun call => if call.1 = ip then some call.2 else none

/-- Which requests of an address are let through, when the agent starts with the first call. -/
def letThrough (rpm : UInt64) (calls : List (String × ℕ)) (ip : String) : List Bool :=
  (calls.zip (Mealy.outputs (fun counters call => checkRateLimit call.1 rpm counters call.2) (fun _ => none)
    calls)).filterMap fun p => if p.1.1 = ip then some !p.2 else none

/-! ## One address -/

/-- The window of the limit, in ticks of the clock. -/
def ticks : ℕ := rateLimitWindowMs + 1

variable {rpm : UInt64}

/-- A request of an address that is known. -/
theorem checkEntry_some (hrpm : 1 ≤ rpm) {count : UInt64} (hcount : count.toNat + 1 < 2 ^ 64) (start now : ℕ) :
    ∃ count' start' limited, checkEntry rpm (some (count, start)) now = (some (count', start'), limited) ∧
      count'.toNat ≤ count.toNat + 1 ∧ FixedWindow.step rpm.toNat ticks ⟨start, min count.toNat rpm.toNat⟩ now =
        (⟨start', min count'.toNat rpm.toNat⟩, ⟨now, start', !limited⟩) := by
  have hpos : 1 ≤ rpm.toNat := UInt64.le_iff_toNat_le.1 hrpm
  have hsucc : (count + 1).toNat = count.toNat + 1 := by
    rw [UInt64.toNat_add]
    exact Nat.mod_eq_of_lt hcount
  unfold checkEntry FixedWindow.step FixedWindow.roll ticks
  rw [Option.getD_some]
  dsimp only
  by_cases hover : rateLimitWindowMs < now - start
  · refine ⟨1, now, false, if_pos hover, Nat.le_add_left 1 _, ?_⟩
    rw [if_pos (show rateLimitWindowMs + 1 ≤ now - start from hover), if_pos (show 0 < rpm.toNat from hpos),
      show (1 : UInt64).toNat = 1 from rfl, Nat.min_eq_left hpos]
    rfl
  · refine ⟨count + 1, start, decide (rpm ≤ count), if_neg hover, hsucc.le, ?_⟩
    rw [if_neg (show ¬ rateLimitWindowMs + 1 ≤ now - start from hover), hsucc]
    by_cases hlimit : rpm ≤ count
    · have hle := UInt64.le_iff_toNat_le.1 hlimit
      rw [if_neg (by dsimp only; omega), decide_eq_true hlimit,
        show min count.toNat rpm.toNat = min (count.toNat + 1) rpm.toNat by omega]
      rfl
    · have hlt := UInt64.lt_iff_toNat_lt.1 (UInt64.not_le.1 hlimit)
      rw [if_pos (by dsimp only; omega), decide_eq_false hlimit,
        show min count.toNat rpm.toNat + 1 = min (count.toNat + 1) rpm.toNat by omega]
      rfl

/-- **The limit of one address is a fixed-window limit**, while the counter does not overflow. -/
theorem entry_replies (hrpm : 1 ≤ rpm) (count : UInt64) (start : ℕ) (times : List ℕ)
    (hfew : count.toNat + times.length < 2 ^ 64) :
    times.zip ((Mealy.outputs (checkEntry rpm) (some (count, start)) times).map not) =
      (Mealy.outputs (FixedWindow.step rpm.toNat ticks) ⟨start, min count.toNat rpm.toNat⟩ times).map fun r =>
        (r.time, r.granted) := by
  induction times generalizing count start with
  | nil => rfl
  | cons now times ih =>
    rw [List.length_cons] at hfew
    obtain ⟨count', start', limited, hentry, hle, hstep⟩ := @checkEntry_some _ hrpm count (by omega) start now
    simp only [Mealy.outputs, hentry, hstep, List.map_cons, List.zip_cons_cons, ih count' start' (by omega)]

/-- The first request of an address begins a window. -/
theorem first_replies (hrpm : 1 ≤ rpm) (times : List ℕ) (hfew : times.length < 2 ^ 64) :
    times.zip ((Mealy.outputs (checkEntry rpm) none times).map not) =
      (Mealy.outputs (FixedWindow.step rpm.toNat ticks) ⟨times.headD 0, 0⟩ times).map fun r => (r.time, r.granted) := by
  cases times with
  | nil => rfl
  | cons now times =>
    have hentry : checkEntry rpm none now = checkEntry rpm (some (0, now)) now := rfl
    have hreplies := entry_replies hrpm 0 now (now :: times) (by rwa [UInt64.toNat_zero, Nat.zero_add])
    rw [UInt64.toNat_zero, Nat.zero_min] at hreplies
    rw [Mealy.outputs, hentry, ← Mealy.outputs, hreplies]
    rfl

/-! ## All addresses -/

/-- The answers to an address are those that it would get alone. -/
theorem letThrough_eq (rpm : UInt64) (calls : List (String × ℕ)) (ip : String) :
    letThrough rpm calls ip = (Mealy.outputs (checkEntry rpm) none (timesOf ip calls)).map not := by
  have hproject := @Mealy.outputs_project _ _ _ _ _ _ (fun counters call => checkRateLimit call.1 rpm counters call.2)
    (fun entry now => ((checkEntry rpm entry now).1, !(checkEntry rpm entry now).2)) (fun counters => counters ip)
    (fun call => if call.1 = ip then some call.2 else none) not ?_ ?_ (fun _ => none) calls
  · have hnot (entry : Option (UInt64 × ℕ)) (times : List ℕ) :
        Mealy.outputs (fun entry now => ((checkEntry rpm entry now).1, !(checkEntry rpm entry now).2)) entry times =
          (Mealy.outputs (checkEntry rpm) entry times).map not := by
      induction times generalizing entry with
      | nil => rfl
      | cons now times ih => simp only [Mealy.outputs, List.map_cons, ih]
    rw [timesOf, ← hnot, ← hproject, letThrough]
    refine List.filterMap_congr fun p _ => ?_
    split_ifs <;> rfl
  · intro counters call now hnow
    split_ifs at hnow with hip
    obtain rfl := Option.some.inj hnow
    unfold checkRateLimit
    dsimp only
    rw [hip, Function.update_self]
  · intro counters call hnone
    split_ifs at hnone with hip
    exact Function.update_of_ne (Ne.symm hip) _ _

theorem length_letThrough (rpm : UInt64) (calls : List (String × ℕ)) (ip : String) :
    (letThrough rpm calls ip).length = (timesOf ip calls).length := by
  rw [letThrough_eq, List.length_map, Mealy.length_outputs]

/-- The requests of an address in the milliseconds from `a` to `a + RATE_LIMIT_WINDOW_MS` that are let through. -/
def throughIn (rpm : UInt64) (calls : List (String × ℕ)) (ip : String) (a : ℕ) : ℕ :=
  ((timesOf ip calls).zip (letThrough rpm calls ip)).countP fun r =>
    r.2 && decide (a ≤ r.1 ∧ r.1 ≤ a + rateLimitWindowMs)

theorem pairwise_timesOf {calls : List (String × ℕ)} (h : (calls.map Prod.snd).Pairwise (· ≤ ·)) (ip : String) :
    (timesOf ip calls).Pairwise (· ≤ ·) := by
  refine List.pairwise_filterMap.2 ((List.pairwise_map.1 h).imp fun {call call'} hle t ht t' ht' => ?_)
  split_ifs at ht ht'
  exact Option.some.inj ht ▸ Option.some.inj ht' ▸ hle

/-- **The rate limit is exact**: in each window of an address the first `rpm` requests are let through and no others; at
most `2 * rpm` are in any interval of the window's length; and the answers depend on no other address. -/
theorem rate_limit_exact (hrpm : 1 ≤ rpm) {calls : List (String × ℕ)}
    (hclock : (calls.map Prod.snd).Pairwise (· ≤ ·)) (ip : String) (hfew : (timesOf ip calls).length < 2 ^ 64) :
    letThrough rpm calls ip = (windows ticks (timesOf ip calls)).flatMap (fun w =>
      List.replicate (min w.length rpm.toNat) true ++ List.replicate (w.length - rpm.toNat) false) ∧
    (∀ a, throughIn rpm calls ip a ≤ 2 * rpm.toNat) ∧
    ∀ calls', timesOf ip calls' = timesOf ip calls → letThrough rpm calls' ip = letThrough rpm calls ip := by
  have hticks : 0 < ticks := Nat.succ_pos _
  have hreplies := first_replies hrpm (timesOf ip calls) hfew
  have hlength := length_letThrough rpm calls ip
  rw [← letThrough_eq] at hreplies
  refine ⟨?_, fun a => ?_, fun calls' hsame => ?_⟩
  · have hready : FixedWindow.Ready ticks ⟨(timesOf ip calls).headD 0, 0⟩ (timesOf ip calls) := by
      intro t ht
      rw [List.headD_eq_head?_getD, Option.mem_def.1 ht, FixedWindow.roll, if_neg]
      · rfl
      · simp [ticks]
    simp only [← FixedWindow.firstGranted_eq]
    rw [← FixedWindow.granted_eq hticks hready, ← List.map_snd_zip hlength.le, hreplies, List.map_map]
    rfl
  · have hle := @FixedWindow.interval_le rpm.toNat ticks ⟨(timesOf ip calls).headD 0, 0⟩ hticks rfl (timesOf ip calls) ?_ a
    · refine le_trans (le_of_eq ?_) hle
      rw [throughIn, hreplies, List.countP_map, FixedWindow.grants]
      refine List.countP_congr fun r _ => ?_
      simp only [Function.comp_apply, FixedWindow.within, Bool.and_eq_true, decide_eq_true_eq]
      rw [show r.time < a + ticks ↔ r.time ≤ a + rateLimitWindowMs from Nat.lt_succ_iff]
    · have hmono := pairwise_timesOf hclock ip
      cases htimes : timesOf ip calls with
      | nil => exact List.pairwise_singleton _ _
      | cons t times =>
        rw [htimes] at hmono
        exact List.pairwise_cons.2 ⟨List.forall_mem_cons.2 ⟨le_rfl, (List.pairwise_cons.1 hmono).1⟩, hmono⟩
  · rw [letThrough_eq, letThrough_eq, hsame]

theorem rate_limit_two_windows :
    letThrough 1 [("10.0.0.1", 0), ("10.0.0.2", 5), ("10.0.0.1", 60000), ("10.0.0.1", 60001)] "10.0.0.1" =
      [true, false, true] :=
  (rate_limit_exact (UInt64.le_refl 1) (by decide) "10.0.0.1" (by decide)).1.trans (by simp [windows, timesOf, ticks, rateLimitWindowMs])

end ThorFirewall.Web
