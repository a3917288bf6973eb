import Mathlib
import ThorFirewall.Lib.FixedWindow

/-!
# Thresholds and suppression of rules (`ids/threshold.rs`)

A tracker keeps a bucket of hits for each sid, which a hit resets when the window of its threshold is over, and for the
suppressed sids the time until which they are. Calls are taken one after the other, each at one time of a monotone
clock; times are in nanoseconds, and the counters wrap as in a release build.

- `slot_step`: a call sees and changes what is kept for its own sid only;
- `Kept.step`: what one call keeps true of the fires and hits of the current window;
- `threshold_bounds`: the bounds on every run.
-/

namespace ThorFirewall.Ids.Threshold

/-! ## The tracker -/

inductive ThresholdType
  | limit (count : UInt32) (seconds : UInt64)
  | threshold (count : UInt32) (seconds : UInt64)
  | both (count : UInt32) (seconds : UInt64)
  deriving DecidableEq

namespace ThresholdType

/-- The length of the window and the count, `(window_secs, count)`. -/
def window : ThresholdType → UInt64 × UInt32
  | limit count seconds => (seconds, count)
  | threshold count seconds => (seconds, count)
  | both count seconds => (seconds, count)

def seconds (thr : ThresholdType) : ℕ := thr.window.1.toNat

def count (thr : ThresholdType) : UInt32 := thr.window.2

end ThresholdType

/-- Nanoseconds in a second. -/
def second : ℕ := 10 ^ 9

/-- `Instant::now() + duration`, or a panic when the seconds leave their range. -/
def Instant.add (now duration : ℕ) : Option ℕ :=
  if now + duration < 2 ^ 63 * second then some (now + duration) else none

structure Bucket where
  hits : UInt32
  fires : UInt32
  windowStart : ℕ
  deriving DecidableEq

namespace Bucket

def new (now : ℕ) : Bucket := ⟨0, 0, now⟩

def reset (b : Bucket) (now : ℕ) : Bucket := { b with hits := 0, fires := 0, windowStart := now }

def ageSecs (b : Bucket) (now : ℕ) : ℕ := (now - b.windowStart) / second

/-- The window of the threshold is over. -/
def expired (thr : ThresholdType) (b : Bucket) (now : ℕ) : Bool := thr.window.1.toNat ≤ b.ageSecs now

/-- The answer to a hit that is counted already. -/
def answer (b : Bucket) : ThresholdType → Bucket × Bool
  | .limit count _ => if b.fires < count then ({ b with fires := b.fires + 1 }, true) else (b, false)
  | .threshold count _ => if count ≤ b.hits then ({ b with fires := b.fires + 1 }, true) else (b, false)
  | .both count _ =>
    if count ≤ b.hits ∧ b.fires < count then ({ b with fires := b.fires + 1 }, true) else (b, false)

end Bucket

structure ThresholdTracker where
  buckets : UInt32 → Option Bucket
  /-- The field `suppress`: the expiry of the suppression of a sid. -/
  suppressed : UInt32 → Option ℕ

namespace ThresholdTracker

def new : ThresholdTracker := ⟨fun _ => none, fun _ => none⟩

/-- Suppress `sid` for a duration. -/
def suppress (t : ThresholdTracker) (sid : UInt32) (duration now : ℕ) : Option ThresholdTracker :=
  (Instant.add now duration).map fun expiry => { t with suppressed := Function.update t.suppressed sid (some expiry) }

def isSuppressed (t : ThresholdTracker) (sid : UInt32) (now : ℕ) : ThresholdTracker × Bool :=
  match t.suppressed sid with
  | some expiry =>
    if now < expiry then (t, true) else ({ t with suppressed := Function.update t.suppressed sid none }, false)
  | none => (t, false)

def shouldFire (t : ThresholdTracker) (sid : UInt32) (thr : ThresholdType) (now : ℕ) : ThresholdTracker × Bool :=
  let (t, suppressed) := t.isSuppressed sid now
  if suppressed then (t, false)
  else
    let bucket := (t.buckets sid).getD (.new now)
    let bucket := if bucket.expired thr now then bucket.reset now else bucket
    let bucket := { bucket with hits := bucket.hits + 1 }
    let (bucket, fired) := bucket.answer thr
    ({ t with buckets := Function.update t.buckets sid (some bucket) }, fired)

/-- Clean up expired suppressions, and buckets older than five minutes. -/
def cleanup (t : ThresholdTracker) (now : ℕ) : ThresholdTracker where
  suppressed sid := (t.suppressed sid).filter (now < ·)
  buckets sid := (t.buckets sid).filter fun b => now - b.windowStart < 300 * second

end ThresholdTracker

/-! ## Runs -/

inductive Call
  | suppress (sid : UInt32) (duration : ℕ)
  | shouldFire (sid : UInt32) (thr : ThresholdType)
  | cleanup
  deriving DecidableEq

/-- A call at a time. -/
structure Event where
  time : ℕ
  call : Call
  deriving DecidableEq

namespace ThresholdTracker

/-- A call, with the result of a `should_fire`. A `suppress` that panics changes nothing. -/
def step (t : ThresholdTracker) (e : Event) : ThresholdTracker × Option Bool :=
  match e.call with
  | .suppress sid duration => ((t.suppress sid duration e.time).getD t, none)
  | .shouldFire sid thr => ((t.shouldFire sid thr e.time).1, some (t.shouldFire sid thr e.time).2)
  | .cleanup => (t.cleanup e.time, none)

/-- The hit begins a window of the bucket. -/
def begins (t : ThresholdTracker) (sid : UInt32) (thr : ThresholdType) (now : ℕ) : Bool :=
  (t.buckets sid).all fun b => b.expired thr now

end ThresholdTracker

/-- A call of `should_fire`: whether it was counted as a hit, began a window of the bucket, and fired. -/
structure Answer where
  time : ℕ
  hit : Bool
  reset : Bool
  fired : Bool
  deriving DecidableEq

namespace ThresholdTracker

/-- A call, seen by one sid. -/
def observe (sid : UInt32) (t : ThresholdTracker) (e : Event) : ThresholdTracker × Option Answer :=
  ((t.step e).1, match e.call with
    | .shouldFire sid' thr =>
      if sid' = sid then
        let hit := !(t.isSuppressed sid e.time).2
        some ⟨e.time, hit, hit && t.begins sid thr e.time, (t.shouldFire sid thr e.time).2⟩
      else none
    | _ => none)

end ThresholdTracker

/-- The answers to the calls for one sid. -/
def answers (sid : UInt32) (t : ThresholdTracker) (events : List Event) : List Answer :=
  (Mealy.outputs (ThresholdTracker.observe sid) t events).reduceOption

/-- The answers since the last reset. -/
def current (rs : List Answer) : List Answer := rs.foldl (fun window r => if r.reset then [r] else window ++ [r]) []

/-- The expiry of the last suppression of the sid. -/
def lastExpiry (sid : UInt32) (events : List Event) : Option ℕ :=
  events.foldl (fun expiry e => match e.call with
    | .suppress sid' duration => if sid' = sid then (Instant.add e.time duration).or expiry else expiry
    | _ => expiry) none

/-- The call is about the sid. -/
def Event.concerns (sid : UInt32) (e : Event) : Bool :=
  match e.call with
  | .suppress sid' _ => sid' = sid
  | .shouldFire sid' _ => sid' = sid
  | .cleanup => true

/-! ## What is kept for one sid -/

namespace Bucket

/-- The bucket of the window that a hit is in, before the hit is counted. -/
def rolled (bucket : Option Bucket) (thr : ThresholdType) (now : ℕ) : Bucket :=
  if (bucket.getD (.new now)).expired thr now then (bucket.getD (.new now)).reset now else bucket.getD (.new now)

/-- The answer to a hit. -/
def hit (bucket : Option Bucket) (thr : ThresholdType) (now : ℕ) : Bucket × Bool :=
  ({ rolled bucket thr now with hits := (rolled bucket thr now).hits + 1 } : Bucket).answer thr

end Bucket

structure Slot where
  bucket : Option Bucket
  expiry : Option ℕ

namespace Slot

def isSuppressed (s : Slot) (now : ℕ) : Bool := s.expiry.any (now < ·)

def step (s : Slot) (e : Event) : Slot × Option Bool :=
  match e.call with
  | .suppress _ duration => ({ s with expiry := (Instant.add e.time duration).or s.expiry }, none)
  | .shouldFire _ thr =>
    if s.isSuppressed e.time then (s, some false)
    else (⟨some (Bucket.hit s.bucket thr e.time).1, none⟩, some (Bucket.hit s.bucket thr e.time).2)
  | .cleanup => (⟨s.bucket.filter fun b => e.time - b.windowStart < 300 * second, s.expiry.filter (e.time < ·)⟩, none)

end Slot

def ThresholdTracker.slot (t : ThresholdTracker) (sid : UInt32) : Slot := ⟨t.buckets sid, t.suppressed sid⟩

theorem isSuppressed_slot (t : ThresholdTracker) (sid : UInt32) (now : ℕ) :
    (t.isSuppressed sid now).2 = (t.slot sid).isSuppressed now := by
  unfold ThresholdTracker.isSuppressed Slot.isSuppressed ThresholdTracker.slot
  cases t.suppressed sid with
  | none => rfl
  | some expiry =>
    dsimp only [Option.any_some]
    split_ifs with h
    · exact (decide_eq_true h).symm
    · exact (decide_eq_false h).symm

/-- **A hit is answered from its sid's slot**, and changes this slot only. -/
theorem shouldFire_slot (t : ThresholdTracker) (sid sid' : UInt32) (thr : ThresholdType) (now : ℕ) :
    some (t.shouldFire sid thr now).2 = ((t.slot sid).step ⟨now, .shouldFire sid thr⟩).2 ∧
    (t.shouldFire sid thr now).1.slot sid' =
      if sid = sid' then ((t.slot sid).step ⟨now, .shouldFire sid thr⟩).1 else t.slot sid' := by
  have hslot : ∀ x y, (⟨Function.update t.buckets sid x, Function.update t.suppressed sid y⟩ :
      ThresholdTracker).slot sid' = if sid = sid' then ⟨x, y⟩ else t.slot sid' := by
    intro x y
    by_cases h : sid' = sid
    · subst h
      simp [ThresholdTracker.slot]
    · simp [ThresholdTracker.slot, h, Ne.symm h]
  have hkeep : Function.update t.suppressed sid (t.suppressed sid) = t.suppressed := Function.update_eq_self _ _
  cases hexpiry : t.suppressed sid with
  | none =>
    have hcalled : t.isSuppressed sid now = (t, false) := by
      simp only [ThresholdTracker.isSuppressed, hexpiry]
    have hnot : (t.slot sid).isSuppressed now = false := by
      simp only [Slot.isSuppressed, ThresholdTracker.slot, hexpiry, Option.any_none]
    rw [hexpiry] at hkeep
    simp only [ThresholdTracker.shouldFire, hcalled, Slot.step, hnot, Bool.false_eq_true, if_false]
    refine ⟨rfl, ?_⟩
    rw [← hslot, hkeep]
    rfl
  | some expiry =>
    by_cases hnow : now < expiry
    · have hcalled : t.isSuppressed sid now = (t, true) := by
        simp only [ThresholdTracker.isSuppressed, hexpiry, hnow, if_true]
      have hyes : (t.slot sid).isSuppressed now = true := by
        simp only [Slot.isSuppressed, ThresholdTracker.slot, hexpiry, Option.any_some, hnow, decide_true]
      simp only [ThresholdTracker.shouldFire, hcalled, Slot.step, hyes, if_true]
      refine ⟨trivial, ?_⟩
      split_ifs with h
      · rw [h]
      · rfl
    · have hcalled : t.isSuppressed sid now =
          ({ t with suppressed := Function.update t.suppressed sid none }, false) := by
        simp only [ThresholdTracker.isSuppressed, hexpiry, hnow, if_false]
      have hnot : (t.slot sid).isSuppressed now = false := by
        simp only [Slot.isSuppressed, ThresholdTracker.slot, hexpiry, Option.any_some, hnow, decide_false]
      simp only [ThresholdTracker.shouldFire, hcalled, Slot.step, hnot, Bool.false_eq_true, if_false]
      refine ⟨rfl, ?_⟩
      rw [← hslot]
      rfl

/-- **A call sees and changes the slots that it concerns.** -/
theorem slot_step (t : ThresholdTracker) (e : Event) (sid : UInt32) :
    (t.step e).1.slot sid = if e.concerns sid then ((t.slot sid).step e).1 else t.slot sid := by
  obtain ⟨time, call⟩ := e
  cases call with
  | suppress sid' duration =>
    simp only [ThresholdTracker.step, ThresholdTracker.suppress, Event.concerns, decide_eq_true_eq, Slot.step]
    cases Instant.add time duration with
    | none => simp [ThresholdTracker.slot]
    | some expiry =>
      by_cases h : sid' = sid
      · subst h
        simp [ThresholdTracker.slot]
      · simp [ThresholdTracker.slot, h, Function.update_of_ne (Ne.symm h)]
  | shouldFire sid' thr =>
    refine (shouldFire_slot t sid' sid thr time).2.trans ?_
    simp only [Event.concerns, decide_eq_true_eq]
    split_ifs with h
    · rw [h]
    · rfl
  | cleanup => rfl

theorem step_result (t : ThresholdTracker) (sid : UInt32) (thr : ThresholdType) (now : ℕ) :
    (t.step ⟨now, .shouldFire sid thr⟩).2 = ((t.slot sid).step ⟨now, .shouldFire sid thr⟩).2 :=
  (shouldFire_slot t sid sid thr now).1

/-- What the sid sees of a call is in its slot. -/
theorem observe_congr {t t' : ThresholdTracker} {sid : UInt32} (h : t.slot sid = t'.slot sid) (e : Event) :
    (t.observe sid e).2 = (t'.observe sid e).2 := by
  obtain ⟨time, call⟩ := e
  cases call with
  | suppress sid' duration => rfl
  | cleanup => rfl
  | shouldFire sid' thr =>
    simp only [ThresholdTracker.observe]
    split_ifs with hsid
    · subst hsid
      have hbucket : t.buckets sid' = t'.buckets sid' := congrArg Slot.bucket h
      have hfired := (shouldFire_slot t sid' sid' thr time).1
      rw [h, ← (shouldFire_slot t' sid' sid' thr time).1, Option.some.injEq] at hfired
      rw [isSuppressed_slot, isSuppressed_slot, h, hfired, ThresholdTracker.begins, ThresholdTracker.begins, hbucket]
    · rfl

theorem observe_of_not_concerns {e : Event} {sid : UInt32} (h : e.concerns sid = false) (t : ThresholdTracker) :
    (t.observe sid e).2 = none := by
  obtain ⟨time, call⟩ := e
  cases call with
  | suppress sid' duration => rfl
  | cleanup => rfl
  | shouldFire sid' thr => exact if_neg (of_decide_eq_false h)

/-- **The answers for a sid come from the calls that concern it.** -/
theorem answers_filter {t t' : ThresholdTracker} {sid : UInt32} (h : t.slot sid = t'.slot sid) (events : List Event) :
    answers sid t events = answers sid t' (events.filter (·.concerns sid)) := by
  induction events generalizing t t' with
  | nil => rfl
  | cons e events ih =>
    unfold answers at ih ⊢
    rw [Mealy.outputs]
    cases hconcerns : e.concerns sid with
    | false =>
      have hslot : (t.observe sid e).1.slot sid = t'.slot sid := by
        rw [ThresholdTracker.observe, slot_step, hconcerns]
        exact h
      rw [List.filter_cons_of_neg (by simp [hconcerns]), observe_of_not_concerns hconcerns,
        List.reduceOption_cons_of_none, ih hslot]
    | true =>
      have hslot : (t.observe sid e).1.slot sid = (t'.observe sid e).1.slot sid := by
        rw [ThresholdTracker.observe, ThresholdTracker.observe, slot_step, slot_step, h]
      rw [List.filter_cons_of_pos hconcerns, Mealy.outputs, observe_congr h e]
      cases (t'.observe sid e).2 with
      | none => rw [List.reduceOption_cons_of_none, List.reduceOption_cons_of_none, ih hslot]
      | some r => rw [List.reduceOption_cons_of_some, List.reduceOption_cons_of_some, ih hslot]

/-! ## Runs of one sid -/

/-- A call of `should_fire` for the sid, as the sid sees it. -/
theorem observe_shouldFire (t : ThresholdTracker) (sid : UInt32) (thr : ThresholdType) (now : ℕ) :
    (t.observe sid ⟨now, .shouldFire sid thr⟩).2 =
      some (if (t.slot sid).isSuppressed now then ⟨now, false, false, false⟩
        else ⟨now, true, t.begins sid thr now, (Bucket.hit (t.buckets sid) thr now).2⟩) := by
  have hfired := (shouldFire_slot t sid sid thr now).1
  simp only [ThresholdTracker.observe, if_true, isSuppressed_slot]
  simp only [Slot.step] at hfired
  split_ifs at hfired ⊢ with h
  · rw [Option.some.inj hfired, h]
    rfl
  · rw [Option.some.inj hfired, eq_false_of_ne_true h]
    rfl

/-- **Invariant rule** for the answers to a sid whose threshold is fixed and for its bucket, when nothing is cleaned
up. -/
theorem bucket_inv {sid : UInt32} {thr : ThresholdType} {P : List Event → List Answer → Option Bucket → Prop}
    (h0 : P [] [] none) (hother : ∀ events rs b e, P events rs b → P (events ++ [e]) rs b)
    (hsuppressed : ∀ events rs b e, P events rs b → P (events ++ [e]) (rs ++ [⟨e.time, false, false, false⟩]) b)
    (hhit : ∀ events rs b e, P events rs b → P (events ++ [e])
      (rs ++ [⟨e.time, true, b.all (·.expired thr e.time), (Bucket.hit b thr e.time).2⟩])
      (some (Bucket.hit b thr e.time).1))
    {events : List Event} (hfixed : ∀ e ∈ events, ∀ thr', e.call = .shouldFire sid thr' → thr' = thr)
    (hclean : ∀ e ∈ events, e.call ≠ .cleanup) :
    P events (answers sid .new events) ((Mealy.after (ThresholdTracker.observe sid) .new events).buckets sid) := by
  refine Mealy.history_inv (s := ThresholdTracker.new) (P := fun events outs (t : ThresholdTracker) =>
    (∀ e ∈ events, ∀ thr', e.call = .shouldFire sid thr' → thr' = thr) → (∀ e ∈ events, e.call ≠ .cleanup) →
      P events outs.reduceOption (t.buckets sid)) (fun _ _ => h0) ?_ events hfixed hclean
  intro events outs t e ih hfixed hclean
  have hP := ih (fun e he => hfixed e (List.mem_append_left _ he)) fun e he => hclean e (List.mem_append_left _ he)
  have hbucket : (t.observe sid e).1.buckets sid =
      (if e.concerns sid then ((t.slot sid).step e).1 else t.slot sid).bucket :=
    congrArg Slot.bucket (slot_step t e sid)
  rw [List.reduceOption_append, hbucket]
  obtain ⟨time, call⟩ := e
  cases call with
  | cleanup => exact absurd rfl (hclean _ (List.mem_append_right _ (List.mem_singleton_self _)))
  | suppress sid' duration =>
    have hsame : (if (⟨time, .suppress sid' duration⟩ : Event).concerns sid then
        ((t.slot sid).step ⟨time, .suppress sid' duration⟩).1 else t.slot sid).bucket = t.buckets sid := by
      split_ifs <;> rfl
    rw [hsame]
    simpa [ThresholdTracker.observe] using hother events _ _ _ hP
  | shouldFire sid' thr' =>
    by_cases hsid : sid' = sid
    · subst hsid
      obtain rfl := hfixed _ (List.mem_append_right _ (List.mem_singleton_self _)) thr' rfl
      rw [observe_shouldFire]
      simp only [Event.concerns, decide_true, if_true, Slot.step]
      split_ifs with h
      · exact hsuppressed events _ _ ⟨time, .shouldFire sid' thr'⟩ hP
      · exact hhit events _ _ ⟨time, .shouldFire sid' thr'⟩ hP
    · have hconcerns : (⟨time, .shouldFire sid' thr'⟩ : Event).concerns sid = false := decide_eq_false hsid
      rw [observe_of_not_concerns hconcerns, hconcerns]
      simpa [ThresholdTracker.slot] using hother events _ _ _ hP

/-! ## One window -/

namespace ThresholdType

/-- The policy bounds the fires of a window. -/
def limits : ThresholdType → Bool
  | threshold _ _ => false
  | _ => true

/-- The policy waits for `count` hits. -/
def waits : ThresholdType → Bool
  | limit _ _ => false
  | _ => true

end ThresholdType

theorem rolled_cases (bucket : Option Bucket) (thr : ThresholdType) (now : ℕ) :
    (bucket.all (·.expired thr now) = true ∧ Bucket.rolled bucket thr now = .new now) ∨
    bucket.all (·.expired thr now) = false ∧ bucket = some (Bucket.rolled bucket thr now) := by
  unfold Bucket.rolled
  cases bucket with
  | none =>
    refine Or.inl ⟨rfl, ?_⟩
    split_ifs <;> rfl
  | some b =>
    rw [Option.getD_some, Option.all_some]
    cases h : b.expired thr now with
    | true => exact Or.inl ⟨rfl, rfl⟩
    | false => exact Or.inr ⟨rfl, rfl⟩

/-- What the answer to a hit leaves as it is. -/
theorem answer_kept (b : Bucket) (thr : ThresholdType) :
    (b.answer thr).1.hits = b.hits ∧ (b.answer thr).1.windowStart = b.windowStart := by
  cases thr <;> simp only [Bucket.answer] <;> split_ifs <;> exact ⟨rfl, rfl⟩

theorem toNat_succ {m n : UInt32} (h : m < n) : (m + 1).toNat = m.toNat + 1 := by
  have hlt := UInt32.lt_iff_toNat_lt.1 h
  have := n.toNat_lt
  rw [UInt32.toNat_add, UInt32.toNat_one]
  exact Nat.mod_eq_of_lt (by omega)

theorem toNat_succ_le (m : UInt32) : (m + 1).toNat ≤ m.toNat + 1 := by
  rw [UInt32.toNat_add, UInt32.toNat_one]
  exact Nat.mod_le _ _

/-- A limiting policy counts its fires, and stops at `count`. -/
theorem answer_limits {thr : ThresholdType} (h : thr.limits = true) (b : Bucket) :
    (b.answer thr).1.fires.toNat = b.fires.toNat + (b.answer thr).2.toNat ∧
    (b.fires ≤ thr.count → (b.answer thr).1.fires ≤ thr.count) := by
  have hfire {count : UInt32} (hlt : b.fires < count) : (b.fires + 1).toNat = b.fires.toNat + true.toNat ∧
      (b.fires ≤ count → b.fires + 1 ≤ count) := by
    refine ⟨toNat_succ hlt, fun _ => ?_⟩
    rw [UInt32.le_iff_toNat_le, toNat_succ hlt]
    exact UInt32.lt_iff_toNat_lt.1 hlt
  cases thr with
  | threshold count seconds => cases h
  | limit count seconds =>
    simp only [Bucket.answer]
    split_ifs with hlt
    · exact hfire hlt
    · exact ⟨rfl, id⟩
  | both count seconds =>
    simp only [Bucket.answer]
    split_ifs with hlt
    · exact hfire hlt.2
    · exact ⟨rfl, id⟩

/-- A waiting policy fires from the `count`-th hit on. -/
theorem answer_waits {thr : ThresholdType} (h : thr.waits = true) {b : Bucket} (hfired : (b.answer thr).2 = true) :
    thr.count ≤ b.hits := by
  cases thr with
  | limit count seconds => cases h
  | threshold count seconds =>
    simp only [Bucket.answer] at hfired
    split_ifs at hfired with hle
    exact hle
  | both count seconds =>
    simp only [Bucket.answer] at hfired
    split_ifs at hfired with hle
    exact hle.1

theorem current_concat (rs : List Answer) (r : Answer) :
    current (rs ++ [r]) = if r.reset then [r] else current rs ++ [r] := by
  rw [current, List.foldl_concat]
  rfl

/-- Answers without a reset behind their first one are of the current window. -/
theorem suffix_current (pre : List Answer) {rs : List Answer} (h : ∀ r ∈ rs.tail, r.reset = false) :
    rs <:+ current (pre ++ rs) := by
  induction rs using List.reverseRecOn with
  | nil => exact List.nil_suffix
  | append_singleton rs r ih =>
    rw [← List.append_assoc, current_concat]
    cases rs with
    | nil =>
      split_ifs
      · exact List.suffix_rfl
      · exact List.suffix_append _ _
    | cons r₀ rs =>
      rw [List.cons_append, List.tail_cons] at h
      have hr := h r (List.mem_append_right _ (List.mem_singleton_self _))
      rw [hr, if_neg Bool.false_ne_true]
      refine List.suffix_append_self_iff.2 (ih fun r' hr' => h r' ?_)
      exact List.mem_append_left _ hr'

/-- The hits and the fires of the current window, and the bounds on the windows so far. -/
structure Kept (thr : ThresholdType) (rs : List Answer) (bucket : Option Bucket) : Prop where
  hits : ∀ b ∈ bucket, b.hits.toNat ≤ (current rs).countP (·.hit)
  fires : thr.limits = true → ∀ b ∈ bucket, (current rs).countP (·.fired) = b.fires.toNat ∧ b.fires ≤ thr.count
  windows : thr.limits = true → ∀ p, p <+: rs → (current p).countP (·.fired) ≤ thr.count.toNat
  reached : thr.waits = true → ∀ p r, p ++ [r] <+: rs → r.fired = true →
    thr.count.toNat ≤ (current (p ++ [r])).countP (·.hit)

theorem Kept.nil (thr : ThresholdType) : Kept thr [] none where
  hits b hb := by cases hb
  fires _ b hb := by cases hb
  windows _ p hp := by
    rw [List.prefix_nil.1 hp]
    exact Nat.zero_le _
  reached _ p r hp := by
    cases List.append_ne_nil_of_right_ne_nil p (List.cons_ne_nil r []) (List.prefix_nil.1 hp)

theorem Kept.suppressed {thr : ThresholdType} {rs : List Answer} {bucket : Option Bucket} (h : Kept thr rs bucket)
    (now : ℕ) : Kept thr (rs ++ [⟨now, false, false, false⟩]) bucket := by
  have hcurrent : current (rs ++ [⟨now, false, false, false⟩]) = current rs ++ [⟨now, false, false, false⟩] :=
    current_concat rs _
  have hfired : (current (rs ++ [⟨now, false, false, false⟩])).countP (·.fired) = (current rs).countP (·.fired) := by
    rw [hcurrent, List.countP_append]
    rfl
  refine ⟨fun b hb => ?_, fun hlimits b hb => ?_, fun hlimits p hp => ?_, fun hwaits p r hp hr => ?_⟩
  · rw [hcurrent, List.countP_append]
    exact (h.hits b hb).trans (Nat.le_add_right _ _)
  · rw [hfired]
    exact h.fires hlimits b hb
  · rcases List.prefix_concat_iff.1 hp with rfl | hp
    · rw [hfired]
      exact h.windows hlimits rs List.prefix_rfl
    · exact h.windows hlimits p hp
  · rcases List.prefix_concat_iff.1 hp with heq | hp
    · obtain rfl := List.singleton_inj.1 (List.append_inj_right' heq rfl)
      cases hr
    · exact h.reached hwaits p r hp hr

/-- The window that a hit is in, after the hit. -/
theorem Kept.rolled {thr : ThresholdType} {rs : List Answer} {bucket : Option Bucket} (h : Kept thr rs bucket)
    (now : ℕ) (fired : Bool) {r : Answer} (hr : r = ⟨now, true, bucket.all (·.expired thr now), fired⟩) :
    (Bucket.rolled bucket thr now).hits.toNat + 1 ≤ (current (rs ++ [r])).countP (·.hit) ∧
    (thr.limits = true →
      (current (rs ++ [r])).countP (·.fired) = (Bucket.rolled bucket thr now).fires.toNat + fired.toNat ∧
      (Bucket.rolled bucket thr now).fires ≤ thr.count) := by
  have hcount : [r].countP (·.hit) = 1 ∧ [r].countP (·.fired) = fired.toNat := by
    subst hr
    cases fired <;> exact ⟨rfl, rfl⟩
  rw [current_concat]
  rcases rolled_cases bucket thr now with ⟨hreset, hnew⟩ | ⟨hreset, hsome⟩
  · have hr : r.reset = true := hr ▸ hreset
    rw [hr, if_pos rfl, hnew, hcount.1, hcount.2]
    exact ⟨Nat.le_refl _, fun _ => ⟨(Nat.zero_add _).symm, UInt32.le_iff_toNat_le.2 (Nat.zero_le _)⟩⟩
  · have hr : r.reset = false := hr ▸ hreset
    rw [hr, if_neg Bool.false_ne_true, List.countP_append, List.countP_append, hcount.1, hcount.2]
    refine ⟨Nat.succ_le_succ (h.hits _ hsome), fun hlimits => ?_⟩
    obtain ⟨hfires, hle⟩ := h.fires hlimits _ hsome
    exact ⟨congrArg (· + fired.toNat) hfires, hle⟩

/-- **One hit keeps the bounds on the windows.** -/
theorem Kept.hit {thr : ThresholdType} {rs : List Answer} {bucket : Option Bucket} (h : Kept thr rs bucket) (now : ℕ) :
    Kept thr (rs ++ [⟨now, true, bucket.all (·.expired thr now), (Bucket.hit bucket thr now).2⟩])
      (some (Bucket.hit bucket thr now).1) := by
  obtain ⟨hhits, hfires⟩ := h.rolled now (Bucket.hit bucket thr now).2 rfl
  have hkept := (answer_kept
    { Bucket.rolled bucket thr now with hits := (Bucket.rolled bucket thr now).hits + 1 } thr).1
  have hsucc := toNat_succ_le (Bucket.rolled bucket thr now).hits
  have hafter : thr.limits = true →
      (current (rs ++ [⟨now, true, bucket.all (·.expired thr now), (Bucket.hit bucket thr now).2⟩])).countP (·.fired) =
        (Bucket.hit bucket thr now).1.fires.toNat ∧ (Bucket.hit bucket thr now).1.fires ≤ thr.count := by
    intro hlimits
    obtain ⟨heq, hle⟩ := hfires hlimits
    obtain ⟨hcounted, hstops⟩ := answer_limits hlimits
      { Bucket.rolled bucket thr now with hits := (Bucket.rolled bucket thr now).hits + 1 }
    exact ⟨heq.trans hcounted.symm, hstops hle⟩
  refine ⟨fun b hb => ?_, fun hlimits b hb => ?_, fun hlimits p hp => ?_, fun hwaits p r hp hr => ?_⟩
  · obtain rfl := Option.some.inj hb
    rw [Bucket.hit, hkept]
    exact hsucc.trans hhits
  · obtain rfl := Option.some.inj hb
    exact hafter hlimits
  · rcases List.prefix_concat_iff.1 hp with rfl | hp
    · obtain ⟨heq, hle⟩ := hafter hlimits
      rw [heq]
      exact UInt32.le_iff_toNat_le.1 hle
    · exact h.windows hlimits p hp
  · rcases List.prefix_concat_iff.1 hp with heq | hp
    · obtain rfl := List.singleton_inj.1 (List.append_inj_right' heq rfl)
      rw [heq]
      have hcount := UInt32.le_iff_toNat_le.1 (answer_waits hwaits hr)
      exact hcount.trans (hsucc.trans hhits)
    · exact h.reached hwaits p r hp hr

theorem kept {sid : UInt32} {thr : ThresholdType} {events : List Event}
    (hfixed : ∀ e ∈ events, ∀ thr', e.call = .shouldFire sid thr' → thr' = thr)
    (hclean : ∀ e ∈ events, e.call ≠ .cleanup) :
    Kept thr (answers sid .new events) ((Mealy.after (ThresholdTracker.observe sid) .new events).buckets sid) :=
  bucket_inv (P := fun _ rs bucket => Kept thr rs bucket) (Kept.nil thr) (fun _ _ _ _ h => h)
    (fun _ _ _ e h => h.suppressed e.time) (fun _ _ _ e h => h.hit e.time) hfixed hclean

/-! ## Any interval -/

/-- The bucket as a fixed-window limit. -/
def Bucket.limit (b : Bucket) : FixedWindow.State := ⟨b.windowStart, b.fires.toNat⟩

theorem rolled_limit (bucket : Option Bucket) (thr : ThresholdType) (now : ℕ) :
    (Bucket.rolled bucket thr now).limit =
      FixedWindow.roll (thr.seconds * second) (bucket.getD (.new now)).limit now := by
  have hexpired : (bucket.getD (.new now)).expired thr now = true ↔
      thr.seconds * second ≤ now - (bucket.getD (.new now)).windowStart := by
    rw [Bucket.expired, decide_eq_true_eq, Bucket.ageSecs, Nat.le_div_iff_mul_le (by decide)]
    rfl
  unfold Bucket.rolled FixedWindow.roll
  show _ = if thr.seconds * second ≤ now - (bucket.getD (.new now)).windowStart then _ else _
  by_cases h : (bucket.getD (.new now)).expired thr now = true
  · rw [if_pos h, if_pos (hexpired.1 h)]
    rfl
  · rw [if_neg h, if_neg fun hle => h (hexpired.2 hle)]

/-- The hits are requests of a limit. -/
structure Replied (thr : ThresholdType) (events : List Event) (rs : List Answer) (bucket : Option Bucket)
    (replies : List FixedWindow.Reply) : Prop where
  same : (rs.filter (·.hit)).map (fun r => (r.time, r.fired)) = replies.map fun r => (r.time, r.granted)
  hit : ∀ r ∈ rs, r.fired = true → r.hit = true
  times : ∀ r ∈ replies, ∃ e ∈ events, e.time = r.time
  fresh : bucket = none → replies = []
  windowed : ∀ b ∈ bucket, FixedWindow.Windowed thr.count.toNat (thr.seconds * second) replies b.limit ∧
    b.fires ≤ thr.count ∧ ∃ e ∈ events, e.time = b.windowStart

section Replied

variable {thr : ThresholdType} {events : List Event} {rs : List Answer} {bucket : Option Bucket}
  {replies : List FixedWindow.Reply}

theorem Replied.nil (thr : ThresholdType) : Replied thr [] [] none [] where
  same := rfl
  hit r hr := by cases hr
  times r hr := by cases hr
  fresh _ := rfl
  windowed b hb := by cases hb

theorem Replied.other (h : Replied thr events rs bucket replies) (e : Event) :
    Replied thr (events ++ [e]) rs bucket replies := by
  have hlonger {n : ℕ} (hn : ∃ e' ∈ events, e'.time = n) : ∃ e' ∈ events ++ [e], e'.time = n := by
    obtain ⟨e', he', hn⟩ := hn
    exact ⟨e', List.mem_append_left _ he', hn⟩
  refine ⟨h.same, h.hit, fun r hr => hlonger (h.times r hr), h.fresh, fun b hb => ?_⟩
  obtain ⟨hwindowed, hle, hstart⟩ := h.windowed b hb
  exact ⟨hwindowed, hle, hlonger hstart⟩

theorem Replied.suppressed (h : Replied thr events rs bucket replies) (now : ℕ) :
    Replied thr events (rs ++ [⟨now, false, false, false⟩]) bucket replies := by
  refine ⟨?_, fun r hr hfired => ?_, h.times, h.fresh, h.windowed⟩
  · rw [List.filter_append, List.map_append, h.same]
    exact List.append_nil _
  · rcases List.mem_append.1 hr with hr | hr
    · exact h.hit r hr hfired
    · obtain rfl := List.mem_singleton.1 hr
      cases hfired

/-- The limit before a hit: a new bucket begins with the hit. -/
theorem Replied.before (h : Replied thr events rs bucket replies) {now : ℕ} (hnow : ∀ e ∈ events, e.time ≤ now) :
    FixedWindow.Windowed thr.count.toNat (thr.seconds * second) replies (bucket.getD (.new now)).limit ∧
    (bucket.getD (.new now)).windowStart ≤ now ∧ (bucket.getD (.new now)).fires ≤ thr.count := by
  cases hb : bucket with
  | none =>
    rw [h.fresh hb]
    refine ⟨⟨fun _ => Nat.zero_le _, Nat.zero_le _, List.Pairwise.nil, ?_, ?_⟩, Nat.le_refl _,
      UInt32.le_iff_toNat_le.2 (Nat.zero_le _)⟩ <;> exact fun r hr => by cases hr
  | some b =>
    obtain ⟨hwindowed, hle, e, he, hstart⟩ := h.windowed b hb
    exact ⟨hwindowed, hstart ▸ hnow e he, hle⟩

theorem Replied.answered (h : Replied thr events rs bucket replies) {now : ℕ} (hlimits : thr.limits = true)
    (hnow : ∀ e ∈ events, e.time ≤ now) : FixedWindow.Answered thr.count.toNat (thr.seconds * second)
      (bucket.getD (.new now)).limit ⟨now, (Bucket.rolled bucket thr now).windowStart, (Bucket.hit bucket thr now).2⟩
      (Bucket.hit bucket thr now).1.limit ∧ (Bucket.hit bucket thr now).1.fires ≤ thr.count := by
  obtain ⟨-, -, hle⟩ := h.before hnow
  have hroll := rolled_limit bucket thr now
  obtain ⟨-, hstart⟩ :=
    answer_kept { Bucket.rolled bucket thr now with hits := (Bucket.rolled bucket thr now).hits + 1 } thr
  obtain ⟨hcounted, hstops⟩ := answer_limits hlimits
    { Bucket.rolled bucket thr now with hits := (Bucket.rolled bucket thr now).hits + 1 }
  have hrolled : (Bucket.rolled bucket thr now).fires ≤ thr.count := by
    rcases rolled_cases bucket thr now with ⟨-, hnew⟩ | ⟨-, hsome⟩
    · rw [hnew]
      exact UInt32.le_iff_toNat_le.2 (Nat.zero_le _)
    · rw [hsome] at hle
      exact hle
  refine ⟨⟨?_, ?_, ?_, UInt32.le_iff_toNat_le.1 (hstops hrolled)⟩, hstops hrolled⟩
  · rw [← hroll]
    rfl
  · rw [← hroll]
    exact hstart
  · rw [← hroll]
    exact hcounted

theorem Replied.hit_concat (h : Replied thr events rs bucket replies) (hlimits : thr.limits = true)
    (hw : 0 < thr.seconds * second) (e : Event) (hnow : ∀ e' ∈ events, e'.time ≤ e.time) :
    Replied thr (events ++ [e])
      (rs ++ [⟨e.time, true, bucket.all (·.expired thr e.time), (Bucket.hit bucket thr e.time).2⟩])
      (some (Bucket.hit bucket thr e.time).1)
      (replies ++ [⟨e.time, (Bucket.rolled bucket thr e.time).windowStart, (Bucket.hit bucket thr e.time).2⟩]) := by
  obtain ⟨hwindowed, hstarted, -⟩ := h.before hnow
  obtain ⟨hanswered, hle⟩ := h.answered hlimits hnow
  have hold := h.other e
  refine ⟨?_, fun r hr hfired => ?_, fun r hr => ?_, fun hnone => (by cases hnone), fun b hb => ?_⟩
  · rw [List.filter_append, List.map_append, h.same, List.map_append]
    rfl
  · rcases List.mem_append.1 hr with hr | hr
    · exact h.hit r hr hfired
    · exact List.mem_singleton.1 hr ▸ rfl
  · rcases List.mem_append.1 hr with hr | hr
    · exact hold.times r hr
    · exact ⟨e, List.mem_append_right _ (List.mem_singleton_self _), List.mem_singleton.1 hr ▸ rfl⟩
  · obtain rfl := Option.some.inj hb
    refine ⟨hwindowed.concat hw hanswered hstarted fun r hr => ?_, hle, ?_⟩
    · obtain ⟨e', he', htime⟩ := h.times r hr
      exact htime ▸ hnow e' he'
    · have hstart := (answer_kept
        { Bucket.rolled bucket thr e.time with hits := (Bucket.rolled bucket thr e.time).hits + 1 } thr).2
      rcases rolled_cases bucket thr e.time with ⟨-, hnew⟩ | ⟨-, hsome⟩
      · refine ⟨e, List.mem_append_right _ (List.mem_singleton_self _), ?_⟩
        rw [Bucket.hit, hstart, hnew]
        rfl
      · rw [Bucket.hit, hstart]
        exact (hold.windowed _ hsome).2.2

/-- **At most `2 * count` fires in an interval of one window's length.** -/
theorem Replied.interval_le (h : Replied thr events rs bucket replies) (a : ℕ) :
    rs.countP (fun r => r.fired && decide (a ≤ r.time ∧ r.time < a + thr.seconds * second)) ≤ 2 * thr.count.toNat := by
  let p : ℕ × Bool → Bool := fun x => x.2 && decide (a ≤ x.1 ∧ x.1 < a + thr.seconds * second)
  have hfires : rs.countP (fun r => p (r.time, r.fired)) = (rs.filter (·.hit)).countP fun r => p (r.time, r.fired) := by
    rw [List.countP_filter]
    refine List.countP_congr fun r hr => ?_
    constructor
    · exact fun hp => Bool.and_eq_true_iff.2 ⟨hp, h.hit r hr (Bool.and_eq_true_iff.1 hp).1⟩
    · exact fun hp => (Bool.and_eq_true_iff.1 hp).1
  have hgrants : (rs.filter (·.hit)).countP (fun r => p (r.time, r.fired)) =
      FixedWindow.grants (FixedWindow.within (thr.seconds * second) a) replies := by
    have hmap := congrArg (List.countP p) h.same
    rw [List.countP_map, List.countP_map] at hmap
    exact hmap
  rw [show rs.countP _ = _ from hfires.trans hgrants]
  cases hb : bucket with
  | none =>
    rw [h.fresh hb]
    exact Nat.zero_le _
  | some b => exact (h.windowed b hb).1.interval_le a

end Replied

theorem interval_le {sid : UInt32} {thr : ThresholdType} {events : List Event}
    (hclock : (events.map Event.time).Pairwise (· ≤ ·))
    (hfixed : ∀ e ∈ events, ∀ thr', e.call = .shouldFire sid thr' → thr' = thr)
    (hclean : ∀ e ∈ events, e.call ≠ .cleanup) (hlimits : thr.limits = true) (a : ℕ) :
    (answers sid .new events).countP (fun r => r.fired && decide (a ≤ r.time ∧ r.time < a + thr.seconds * second)) ≤
      2 * thr.count.toNat := by
  rcases Nat.eq_zero_or_pos (thr.seconds * second) with hw | hw
  · -- no time is in the interval
    refine (List.countP_eq_zero.2 fun r hr => ?_).le.trans (Nat.zero_le _)
    rw [hw, Bool.and_eq_true, decide_eq_true_eq]
    omega
  · have hbefore {events : List Event} {e : Event} (h : ((events ++ [e]).map Event.time).Pairwise (· ≤ ·)) :
        (events.map Event.time).Pairwise (· ≤ ·) ∧ ∀ e' ∈ events, e'.time ≤ e.time := by
      rw [List.map_append, List.pairwise_append] at h
      exact ⟨h.1, fun e' he' => h.2.2 _ (List.mem_map_of_mem he') _ (List.mem_singleton_self _)⟩
    obtain ⟨replies, hreplied⟩ := @bucket_inv sid thr (fun events rs bucket =>
      (events.map Event.time).Pairwise (· ≤ ·) → ∃ replies, Replied thr events rs bucket replies)
      (fun _ => ⟨[], Replied.nil thr⟩)
      (fun events rs bucket e ih hclock => (ih (hbefore hclock).1).imp fun _ h => h.other e)
      (fun events rs bucket e ih hclock => (ih (hbefore hclock).1).imp fun _ h => (h.suppressed e.time).other e)
      (fun events rs bucket e ih hclock => by
        obtain ⟨replies, h⟩ := ih (hbefore hclock).1
        exact ⟨_, h.hit_concat hlimits hw e (hbefore hclock).2⟩) events hfixed hclean hclock
    exact hreplied.interval_le a

/-! ## Suppression -/

theorem lastExpiry_concat (sid : UInt32) (events : List Event) (e : Event) :
    lastExpiry sid (events ++ [e]) = match e.call with
      | .suppress sid' duration =>
        if sid' = sid then (Instant.add e.time duration).or (lastExpiry sid events) else lastExpiry sid events
      | _ => lastExpiry sid events := by
  rw [lastExpiry, List.foldl_concat]
  rfl

/-- **A sid is suppressed as long as its last suppression lasts.** -/
theorem isSuppressed_after (sid : UInt32) {events : List Event} (hclock : (events.map Event.time).Pairwise (· ≤ ·))
    {now : ℕ} (hnow : ∀ e ∈ events, e.time ≤ now) :
    ((Mealy.after ThresholdTracker.step .new events).slot sid).isSuppressed now =
      (lastExpiry sid events).any (now < ·) := by
  induction events using List.reverseRecOn generalizing now with
  | nil => rfl
  | append_singleton events e ih =>
    rw [List.map_append, List.pairwise_append] at hclock
    have hbefore : ∀ e' ∈ events, e'.time ≤ e.time := fun e' he' =>
      hclock.2.2 _ (List.mem_map_of_mem he') _ (List.mem_singleton_self _)
    have hlast : e.time ≤ now := hnow e (List.mem_append_right _ (List.mem_singleton_self _))
    have hold := ih hclock.1 hbefore
    have hold' := ih hclock.1 fun e' he' => (hbefore e' he').trans hlast
    rw [Mealy.after_concat, slot_step, lastExpiry_concat]
    obtain ⟨time, call⟩ := e
    cases call with
    | suppress sid' duration =>
      simp only [Event.concerns, decide_eq_true_eq, Slot.step]
      split_ifs with hsid
      · cases Instant.add time duration with
        | none => exact hold'
        | some expiry => rfl
      · exact hold'
    | shouldFire sid' thr =>
      simp only [Event.concerns, decide_eq_true_eq, Slot.step]
      split_ifs with hsid hsuppressed
      · exact hold'
      · -- an expiry that is removed is over
        rw [eq_false_of_ne_true hsuppressed] at hold
        cases hexpiry : lastExpiry sid events with
        | none => rfl
        | some expiry =>
          rw [hexpiry, Option.any_some, eq_comm, decide_eq_false_iff_not] at hold
          exact (decide_eq_false fun h => hold (lt_of_le_of_lt hlast h)).symm
      · exact hold'
    | cleanup =>
      rw [← hold']
      simp only [Event.concerns, if_true, Slot.step, Slot.isSuppressed]
      cases ((Mealy.after ThresholdTracker.step .new events).slot sid).expiry with
      | none => rfl
      | some expiry =>
        rw [Option.filter_some, Option.any_some]
        split_ifs with hlive
        · rfl
        · exact (decide_eq_false fun h => hlive (decide_eq_true (lt_of_le_of_lt hlast h))).symm

/-! ## Every run -/

/-- **The thresholds bound the alerts.** -/
theorem threshold_bounds {sid : UInt32} {thr : ThresholdType} {events : List Event}
    (hclock : (events.map Event.time).Pairwise (· ≤ ·)) (hclean : ∀ e ∈ events, e.call ≠ .cleanup)
    (hfixed : ∀ e ∈ events, ∀ thr', e.call = .shouldFire sid thr' → thr' = thr) :
    (thr.limits = true → ∀ rs, rs <:+: answers sid .new events → (∀ r ∈ rs.tail, r.reset = false) →
      rs.countP (·.fired) ≤ thr.count.toNat) ∧
    (thr.limits = true → ∀ a, (answers sid .new events).countP
      (fun r => r.fired && decide (a ≤ r.time ∧ r.time < a + thr.seconds * second)) ≤ 2 * thr.count.toNat) ∧
    (thr.waits = true → ∀ pre r, pre ++ [r] <+: answers sid .new events → r.fired = true →
      thr.count.toNat ≤ (current (pre ++ [r])).countP (·.hit)) ∧
    (∀ pre now post, events = pre ++ ⟨now, .shouldFire sid thr⟩ :: post →
      (∃ expiry ∈ lastExpiry sid pre, now < expiry) →
        ((Mealy.after ThresholdTracker.step .new pre).shouldFire sid thr now).2 = false) ∧
    answers sid .new events = answers sid .new (events.filter (·.concerns sid)) := by
  have hkept := kept hfixed hclean
  refine ⟨fun hlimits rs hrs hwindow => ?_, interval_le hclock hfixed hclean, hkept.reached, ?_,
    answers_filter rfl events⟩
  · obtain ⟨pre, post, heq⟩ := hrs
    exact (suffix_current pre hwindow).sublist.countP_le.trans (hkept.windows hlimits _ ⟨post, heq⟩)
  · rintro pre now post rfl ⟨expiry, hexpiry, hlt⟩
    rw [List.map_append, List.pairwise_append] at hclock
    have hsuppressed := @isSuppressed_after sid pre hclock.1 now fun e he =>
      hclock.2.2 _ (List.mem_map_of_mem he) _ List.mem_cons_self
    rw [Option.mem_def.1 hexpiry, Option.any_some, decide_eq_true hlt] at hsuppressed
    have hfired := (shouldFire_slot (Mealy.after ThresholdTracker.step .new pre) sid sid thr now).1
    rw [Slot.step] at hfired
    simp only [hsuppressed, if_true, Option.some.injEq] at hfired
    exact hfired

/-- One alert in a minute: the second hit is denied, the third one begins a window. -/
theorem threshold_bounds_minute :
    (answers 7 .new [⟨0, .shouldFire 7 (.limit 1 60)⟩, ⟨second, .shouldFire 7 (.limit 1 60)⟩,
      ⟨60 * second, .shouldFire 7 (.limit 1 60)⟩]).countP
        (fun r => r.fired && decide (0 ≤ r.time ∧ r.time < 0 + (ThresholdType.limit 1 60).seconds * second)) ≤ 2 * 1 :=
  (@threshold_bounds 7 (.limit 1 60) _ (by decide) (by decide) (by simp)).2.1 rfl 0

end ThorFirewall.Ids.Threshold
