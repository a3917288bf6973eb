import Mathlib
import ThorFirewall.Ids.Threshold

/-!
# The cleanup of the thresholds (`ids/threshold.rs`)

`cleanup` removes the suppressions that are over and the buckets that began five minutes ago or earlier. The first are
not missed; a bucket is, if the window of its threshold is longer and its hits count.

- `Alike.step`, `Alike.cleanup`: a tracker that was cleaned up answers as one that was not, as long as only buckets
  whose window is over are removed;
- `results_eq_of_harmless`: the runs then have the same results;
- `cleanup_invisible_iff`: the thresholds for which this is so in every run.
-/

namespace ThorFirewall.Ids.Threshold

/-- The results of the calls of `should_fire`. -/
def results (t : ThresholdTracker) (events : List Event) : List Bool :=
  (Mealy.outputs ThresholdTracker.step t events).reduceOption

def withoutCleanup (events : List Event) : List Event := events.filter (·.call ≠ .cleanup)

/-- Each sid has its threshold. -/
def Follows (thresholds : UInt32 → ThresholdType) (events : List Event) : Prop :=
  ∀ e ∈ events, ∀ sid thr, e.call = .shouldFire sid thr → thr = thresholds sid

/-! ## Two trackers -/

/-- What a slot that was cleaned up shares with one that was not. -/
structure Alike (thr : ThresholdType) (now : ℕ) (s s' : Slot) : Prop where
  expiry : s.expiry = s'.expiry ∨ s.expiry = none ∧ ∀ expiry ∈ s'.expiry, expiry ≤ now
  bucket : thr.count = 0 ∨ s.bucket = s'.bucket ∨ s.bucket = none ∧ ∀ b ∈ s'.bucket, b.expired thr now = true

section Alike

variable {thr : ThresholdType} {now : ℕ} {s s' : Slot}

theorem expired_mono {b : Bucket} {now' : ℕ} (h : b.expired thr now = true) (hle : now ≤ now') :
    b.expired thr now' = true := by
  rw [Bucket.expired, decide_eq_true_eq] at h ⊢
  exact h.trans (Nat.div_le_div_right (Nat.sub_le_sub_right hle _))

theorem Alike.mono {now' : ℕ} (h : Alike thr now s s') (hle : now ≤ now') : Alike thr now' s s' := by
  refine ⟨h.expiry.imp_right fun ⟨hnone, hover⟩ => ⟨hnone, fun x hx => (hover x hx).trans hle⟩, ?_⟩
  exact h.bucket.imp_right (Or.imp_right fun ⟨hnone, hover⟩ => ⟨hnone, fun b hb => expired_mono (hover b hb) hle⟩)

theorem Alike.isSuppressed (h : Alike thr now s s') : s.isSuppressed now = s'.isSuppressed now := by
  unfold Slot.isSuppressed
  rcases h.expiry with heq | ⟨hnone, hover⟩
  · rw [heq]
  · rw [hnone]
    cases hexpiry : s'.expiry with
    | none => rfl
    | some expiry => exact (decide_eq_false (Nat.not_lt.2 (hover expiry hexpiry))).symm

/-- Without a count, the hits do not matter. -/
theorem hit_of_count_zero (h : thr.count = 0) (bucket : Option Bucket) (now : ℕ) :
    (Bucket.hit bucket thr now).2 = !thr.limits := by
  have hle (n : UInt32) : (0 : UInt32) ≤ n := UInt32.le_iff_toNat_le.2 (Nat.zero_le _)
  have hnot (n : UInt32) : ¬ n < 0 := fun hlt => Nat.not_lt_zero _ (UInt32.lt_iff_toNat_lt.1 hlt)
  cases thr with
  | limit count seconds =>
    obtain rfl : count = 0 := h
    simp only [Bucket.hit, Bucket.answer, hnot, if_false]
    rfl
  | threshold count seconds =>
    obtain rfl : count = 0 := h
    simp only [Bucket.hit, Bucket.answer, hle, if_true]
    rfl
  | both count seconds =>
    obtain rfl : count = 0 := h
    simp only [Bucket.hit, Bucket.answer, hnot, and_false, if_false]
    rfl

theorem Alike.hit (h : Alike thr now s s') : (Bucket.hit s.bucket thr now).2 = (Bucket.hit s'.bucket thr now).2 ∧
    (thr.count = 0 ∨ (Bucket.hit s.bucket thr now).1 = (Bucket.hit s'.bucket thr now).1) := by
  rcases h.bucket with hzero | heq | ⟨hnone, hover⟩
  · exact ⟨by rw [hit_of_count_zero hzero, hit_of_count_zero hzero], Or.inl hzero⟩
  · rw [heq]
    exact ⟨rfl, Or.inr rfl⟩
  · -- both begin a window
    have hrolled : Bucket.rolled s.bucket thr now = Bucket.rolled s'.bucket thr now := by
      rcases rolled_cases s.bucket thr now with ⟨-, hnew⟩ | ⟨-, hsome⟩
      · rcases rolled_cases s'.bucket thr now with ⟨-, hnew'⟩ | ⟨hlive, hsome'⟩
        · rw [hnew, hnew']
        · rw [hsome', Option.all_some, hover _ hsome'] at hlive
          cases hlive
      · cases hnone.symm.trans hsome
    rw [Bucket.hit, Bucket.hit, hrolled]
    exact ⟨rfl, Or.inr rfl⟩

/-- **A call answers alike, and leaves the slots alike.** -/
theorem Alike.step {e : Event} (h : Alike thr e.time s s') (hcall : e.call ≠ .cleanup)
    (hthr : ∀ sid thr', e.call = .shouldFire sid thr' → thr' = thr) :
    (s.step e).2 = (s'.step e).2 ∧ Alike thr e.time (s.step e).1 (s'.step e).1 := by
  obtain ⟨time, call⟩ := e
  cases call with
  | cleanup => exact absurd rfl hcall
  | suppress sid duration =>
    simp only [Slot.step]
    cases Instant.add time duration with
    | none => exact ⟨trivial, h⟩
    | some expiry => exact ⟨trivial, Or.inl rfl, h.bucket⟩
  | shouldFire sid thr' =>
    obtain rfl := hthr sid thr' rfl
    simp only [Slot.step, h.isSuppressed]
    split_ifs
    · exact ⟨rfl, h⟩
    · obtain ⟨hfired, hbucket⟩ := h.hit
      exact ⟨congrArg some hfired, Or.inl rfl, hbucket.imp_right fun heq => Or.inl (congrArg some heq)⟩

/-- **A cleanup of the first slot leaves the slots alike**, if it removes no bucket that counts. -/
theorem Alike.cleanup (h : Alike thr now s s') (hharmless : ∀ b ∈ s.bucket, 300 * second ≤ now - b.windowStart →
    b.expired thr now = true ∨ thr.count = 0) : Alike thr now (s.step ⟨now, .cleanup⟩).1 s' := by
  refine ⟨?_, ?_⟩
  · rcases h.expiry with heq | ⟨hnone, hover⟩
    · simp only [Slot.step]
      cases hexpiry : s.expiry with
      | none => exact Or.inl (hexpiry.symm.trans heq)
      | some expiry =>
        rw [Option.filter_some]
        split_ifs with hlive
        · exact Or.inl (hexpiry.symm.trans heq)
        · refine Or.inr ⟨rfl, fun x hx => ?_⟩
          rw [← heq, hexpiry] at hx
          obtain rfl := Option.some.inj hx
          exact Nat.not_lt.1 fun hlt => hlive (decide_eq_true hlt)
    · refine Or.inr ⟨?_, hover⟩
      simp only [Slot.step, hnone]
      rfl
  · rcases h.bucket with hzero | heq | ⟨hnone, hover⟩
    · exact Or.inl hzero
    · simp only [Slot.step]
      cases hbucket : s.bucket with
      | none => exact Or.inr (Or.inl (hbucket.symm.trans heq))
      | some b =>
        rw [Option.filter_some]
        split_ifs with hyoung
        · exact Or.inr (Or.inl (hbucket.symm.trans heq))
        · rcases hharmless b hbucket (Nat.not_lt.1 fun hlt => hyoung (decide_eq_true hlt)) with hover | hzero
          · refine Or.inr (Or.inr ⟨rfl, fun b' hb' => ?_⟩)
            rw [← heq, hbucket] at hb'
            exact Option.some.inj hb' ▸ hover
          · exact Or.inl hzero
    · refine Or.inr (Or.inr ⟨?_, hover⟩)
      simp only [Slot.step, hnone]
      rfl

end Alike

/-! ## Two runs -/

section Runs

variable {thresholds : UInt32 → ThresholdType} {t t' : ThresholdTracker}

/-- The two trackers keep alike what they keep for each sid. -/
def AlikeTrackers (thresholds : UInt32 → ThresholdType) (now : ℕ) (t t' : ThresholdTracker) : Prop :=
  ∀ sid, Alike (thresholds sid) now (t.slot sid) (t'.slot sid)

theorem AlikeTrackers.step {e : Event} (h : AlikeTrackers thresholds e.time t t') (hcall : e.call ≠ .cleanup)
    (hthr : ∀ sid thr, e.call = .shouldFire sid thr → thr = thresholds sid) :
    (t.step e).2 = (t'.step e).2 ∧ AlikeTrackers thresholds e.time (t.step e).1 (t'.step e).1 := by
  have hstep (sid : UInt32) (hconcerns : e.concerns sid = true) :=
    (h sid).step hcall fun sid' thr heq => by
      have hsid : sid' = sid := by
        rw [Event.concerns, heq] at hconcerns
        exact of_decide_eq_true hconcerns
      exact hsid ▸ hthr sid' thr heq
  refine ⟨?_, fun sid => ?_⟩
  · obtain ⟨time, call⟩ := e
    cases call with
    | suppress sid duration => rfl
    | cleanup => rfl
    | shouldFire sid thr =>
      rw [step_result, step_result]
      exact (hstep sid (decide_eq_true rfl)).1
  · rw [slot_step, slot_step]
    split_ifs with hconcerns
    · exact (hstep sid hconcerns).2
    · exact h sid

/-- A cleanup at `now` removes no bucket that counts. -/
def Harmless (thresholds : UInt32 → ThresholdType) (t : ThresholdTracker) (now : ℕ) : Prop :=
  ∀ sid, ∀ b ∈ t.buckets sid, 300 * second ≤ now - b.windowStart →
    b.expired (thresholds sid) now = true ∨ (thresholds sid).count = 0

theorem results_cons (t : ThresholdTracker) (e : Event) (events : List Event) :
    results t (e :: events) = (t.step e).2.toList ++ results (t.step e).1 events := by
  unfold results
  rw [Mealy.outputs]
  cases (t.step e).2 with
  | none => rw [List.reduceOption_cons_of_none]; rfl
  | some b => rw [List.reduceOption_cons_of_some]; rfl

/-- **Two runs.** With harmless cleanups the results are those without cleanups. -/
theorem results_eq_of_alike {now : ℕ} {events : List Event} (h : AlikeTrackers thresholds now t t')
    (hclock : (now :: events.map Event.time).Pairwise (· ≤ ·)) (hfollows : Follows thresholds events)
    (hharmless : ∀ pre time post, events = pre ++ ⟨time, .cleanup⟩ :: post →
      Harmless thresholds (Mealy.after ThresholdTracker.step t pre) time) :
    results t events = results t' (withoutCleanup events) := by
  induction events generalizing t t' now with
  | nil => rfl
  | cons e events ih =>
    rw [List.map_cons, List.pairwise_cons] at hclock
    have hlater : AlikeTrackers thresholds e.time t t' := fun sid => (h sid).mono (hclock.1 _ List.mem_cons_self)
    have hrest : Follows thresholds events := fun e' he' => hfollows e' (List.mem_cons_of_mem _ he')
    have hnext : ∀ pre time post, events = pre ++ ⟨time, .cleanup⟩ :: post →
        Harmless thresholds (Mealy.after ThresholdTracker.step (t.step e).1 pre) time := by
      rintro pre time post rfl
      exact hharmless (e :: pre) time post rfl
    rw [results_cons]
    by_cases hcall : e.call = .cleanup
    · -- the first run only cleans up
      obtain ⟨time, call⟩ := e
      obtain rfl : call = .cleanup := hcall
      have hskip : withoutCleanup (⟨time, .cleanup⟩ :: events) = withoutCleanup events := rfl
      rw [hskip]
      refine ih (t := (t.step ⟨time, .cleanup⟩).1) (fun sid => ?_) hclock.2 hrest hnext
      rw [slot_step]
      exact (hlater sid).cleanup (hharmless [] time events rfl sid)
    · obtain ⟨hresult, halike⟩ := hlater.step hcall (hfollows e List.mem_cons_self)
      have hkeep : withoutCleanup (e :: events) = e :: withoutCleanup events :=
        List.filter_cons_of_pos (decide_eq_true hcall)
      rw [hkeep, results_cons, hresult, ih halike hclock.2 hrest hnext]

/-- **Harmless cleanups are invisible.** -/
theorem results_eq_of_harmless {events : List Event} (hclock : (events.map Event.time).Pairwise (· ≤ ·))
    (hfollows : Follows thresholds events)
    (hharmless : ∀ pre time post, events = pre ++ ⟨time, .cleanup⟩ :: post →
      Harmless thresholds (Mealy.after ThresholdTracker.step .new pre) time) :
    results .new events = results .new (withoutCleanup events) :=
  @results_eq_of_alike thresholds .new .new 0 events (fun _ => ⟨Or.inl rfl, Or.inr (Or.inl rfl)⟩)
    (List.pairwise_cons.2 ⟨fun _ _ => Nat.zero_le _, hclock⟩) hfollows hharmless

/-- A window of five minutes is over when its bucket is removed. -/
theorem harmless (h : ∀ sid, (thresholds sid).seconds ≤ 300 ∨ (thresholds sid).count = 0) (t : ThresholdTracker)
    (now : ℕ) : Harmless thresholds t now := by
  intro sid b hb hold
  refine (h sid).imp_left fun hseconds => ?_
  rw [Bucket.expired, decide_eq_true_eq]
  exact hseconds.trans ((Nat.le_div_iff_mul_le (by decide)).2 hold)

end Runs

/-! ## A longer window -/

section Longer

/-- What a hit leaves of a bucket. -/
def hits (thr : ThresholdType) (now : ℕ) (bucket : Option Bucket) : Option Bucket := some (Bucket.hit bucket thr now).1

variable {thr : ThresholdType} {now : ℕ} {b : Bucket}

theorem hit_live (h : b.expired thr now = false) :
    Bucket.hit (some b) thr now = ({ b with hits := b.hits + 1 } : Bucket).answer thr := by
  rw [Bucket.hit, Bucket.rolled, Option.getD_some, h]
  rfl

theorem hit_none (thr : ThresholdType) (now : ℕ) : Bucket.hit none thr now = (⟨1, 0, now⟩ : Bucket).answer thr := by
  rcases rolled_cases none thr now with ⟨-, hnew⟩ | ⟨-, hsome⟩
  · rw [Bucket.hit, hnew]
    rfl
  · cases hsome

/-- Hits of a window that lasts are counted, and do not move it. -/
theorem iterate_hits (h : b.expired thr now = false) (n : ℕ) : ∃ b', (hits thr now)^[n] (some b) = some b' ∧
    b'.hits = b.hits + UInt32.ofNat n ∧ b'.windowStart = b.windowStart := by
  induction n with
  | zero => exact ⟨b, rfl, (UInt32.add_zero _).symm, rfl⟩
  | succ n ih =>
    obtain ⟨b', heq, hhits, hstart⟩ := ih
    have hlive : b'.expired thr now = false := by
      rw [Bucket.expired, Bucket.ageSecs, hstart]
      exact h
    obtain ⟨hkept, hstays⟩ := answer_kept { b' with hits := b'.hits + 1 } thr
    refine ⟨_, (Function.iterate_succ_apply' _ _ _).trans (congrArg (hits thr now) heq), ?_, ?_⟩
    · rw [hit_live hlive, hkept, UInt32.ofNat_add, ← UInt32.add_assoc, ← hhits]
      rfl
    · rw [hit_live hlive, hstays]
      exact hstart

theorem toNat_ofNat_of_le {n : ℕ} {count : UInt32} (h : n ≤ count.toNat) : (UInt32.ofNat n).toNat = n :=
  UInt32.toNat_ofNat_of_lt' (lt_of_le_of_lt h count.toNat_lt)

/-- Up to `count` hits of a limit all fire. -/
theorem iterate_limit {count : UInt32} {seconds : UInt64} {start : ℕ}
    (h : (⟨0, 0, start⟩ : Bucket).expired (.limit count seconds) now = false) {n : ℕ} (hn : n ≤ count.toNat) :
    (hits (.limit count seconds) now)^[n] (some ⟨0, 0, start⟩) = some ⟨UInt32.ofNat n, UInt32.ofNat n, start⟩ := by
  induction n with
  | zero => rfl
  | succ n ih =>
    have hlt : UInt32.ofNat n < count := by
      rw [UInt32.lt_iff_toNat_lt, toNat_ofNat_of_le (Nat.le_of_succ_le hn)]
      exact hn
    rw [Function.iterate_succ_apply', ih (Nat.le_of_succ_le hn), hits,
      hit_live (b := ⟨UInt32.ofNat n, UInt32.ofNat n, start⟩) h]
    simp only [Bucket.answer, hlt, if_true, UInt32.ofNat_add]
    rfl

/-- Fewer than `count` hits of a policy that waits do not fire. -/
theorem iterate_waits (hwaits : thr.waits = true) {start : ℕ} (h : (⟨0, 0, start⟩ : Bucket).expired thr now = false)
    {n : ℕ} (hn : n < thr.count.toNat) :
    (hits thr now)^[n] (some ⟨0, 0, start⟩) = some ⟨UInt32.ofNat n, 0, start⟩ := by
  induction n with
  | zero => rfl
  | succ n ih =>
    have hcounted : (UInt32.ofNat n + 1).toNat = n + 1 := by
      show (UInt32.ofNat n + UInt32.ofNat 1).toNat = n + 1
      rw [← UInt32.ofNat_add, toNat_ofNat_of_le hn.le]
    rw [Function.iterate_succ_apply', ih (Nat.lt_of_succ_lt hn), hits,
      hit_live (b := ⟨UInt32.ofNat n, 0, start⟩) h]
    have hsame : ((⟨UInt32.ofNat n + 1, 0, start⟩ : Bucket).answer thr).1 = ⟨UInt32.ofNat n + 1, 0, start⟩ := by
      have hnot : ¬ thr.count ≤ UInt32.ofNat n + 1 := fun hle => by
        have := UInt32.le_iff_toNat_le.1 hle
        omega
      cases thr with
      | limit count seconds => cases hwaits
      | threshold count seconds => exact congrArg Prod.fst (if_neg hnot)
      | both count seconds => exact congrArg Prod.fst (if_neg fun hand => hnot hand.1)
    rw [hsame, UInt32.ofNat_add]
    rfl

/-- The first of some hits at one time begins the bucket. -/
theorem iterate_none {n : ℕ} (hn : 0 < n) : (hits thr now)^[n] none = (hits thr now)^[n] (some (.new now)) := by
  obtain ⟨n, rfl⟩ := Nat.exists_eq_succ_of_ne_zero hn.ne'
  rfl

theorem slot_after_hits {t : ThresholdTracker} {sid : UInt32} {bucket : Option Bucket} (h : t.slot sid = ⟨bucket, none⟩)
    (thr : ThresholdType) (now n : ℕ) :
    (Mealy.after ThresholdTracker.step t (List.replicate n ⟨now, .shouldFire sid thr⟩)).slot sid =
      ⟨(hits thr now)^[n] bucket, none⟩ := by
  induction n generalizing t bucket with
  | zero => exact h
  | succ n ih =>
    rw [List.replicate_succ, Mealy.after, Function.iterate_succ_apply]
    refine ih ?_
    have hconcerns : (⟨now, .shouldFire sid thr⟩ : Event).concerns sid = true := decide_eq_true rfl
    rw [slot_step, h, hconcerns]
    rfl

/-- The result of one more hit. -/
theorem results_hit {t : ThresholdTracker} {sid : UInt32} {events : List Event} {bucket : Option Bucket}
    (h : (Mealy.after ThresholdTracker.step t events).slot sid = ⟨bucket, none⟩) (thr : ThresholdType) (now : ℕ) :
    results t (events ++ [⟨now, .shouldFire sid thr⟩]) = results t events ++ [(Bucket.hit bucket thr now).2] := by
  rw [results, Mealy.outputs_concat, List.reduceOption_append, step_result, h]
  rfl

/-- The time of the cleanup. -/
def fiveMinutes : ℕ := 300 * second

/-- Hits at the start, a cleanup after five minutes, and more hits. -/
def schedule (sid : UInt32) (thr : ThresholdType) (n m : ℕ) : List Event :=
  List.replicate n ⟨0, .shouldFire sid thr⟩ ++ [⟨fiveMinutes, .cleanup⟩] ++
    List.replicate m ⟨fiveMinutes, .shouldFire sid thr⟩ ++ [⟨fiveMinutes, .shouldFire sid thr⟩]

theorem withoutCleanup_schedule (sid : UInt32) (thr : ThresholdType) (n m : ℕ) :
    withoutCleanup (schedule sid thr n m) = List.replicate n ⟨0, .shouldFire sid thr⟩ ++
      List.replicate m ⟨fiveMinutes, .shouldFire sid thr⟩ ++ [⟨fiveMinutes, .shouldFire sid thr⟩] := by
  have hkeep (n now : ℕ) : withoutCleanup (List.replicate n ⟨now, .shouldFire sid thr⟩) =
      List.replicate n ⟨now, .shouldFire sid thr⟩ := by
    refine List.filter_eq_self.2 fun e he => ?_
    rw [List.eq_of_mem_replicate he]
    rfl
  unfold withoutCleanup at hkeep
  rw [withoutCleanup, schedule, List.filter_append, List.filter_append, List.filter_append, hkeep, hkeep]
  simp

theorem clock_schedule (sid : UInt32) (thr : ThresholdType) (n m : ℕ) :
    ((schedule sid thr n m).map Event.time).Pairwise (· ≤ ·) := by
  simp only [schedule, List.map_append, List.map_replicate, List.map_cons, List.map_nil, List.append_assoc]
  refine List.pairwise_append.2 ⟨List.pairwise_replicate.2 (Or.inr (Nat.le_refl _)), ?_, fun x hx y _ => ?_⟩
  · refine List.pairwise_of_forall_mem_list fun x hx y hy => ?_
    have hfive {z : ℕ} (hz : z ∈ [fiveMinutes] ++ (List.replicate m fiveMinutes ++ [fiveMinutes])) :
        z = fiveMinutes := by
      simp only [List.mem_append, List.mem_singleton, List.mem_replicate] at hz
      tauto
    exact (hfive hx).trans_le (hfive hy).ge
  · rw [List.eq_of_mem_replicate hx]
    exact Nat.zero_le _

/-- **A cleanup is seen** by the hit at the end of the schedule, when the removed bucket makes a difference to it. -/
theorem schedule_seen {sid : UInt32} {n m : ℕ} (hn : 0 < n) (hlive : (Bucket.new 0).expired thr 0 = false)
    (hdiff : (Bucket.hit ((hits thr fiveMinutes)^[m] none) thr fiveMinutes).2 ≠
      (Bucket.hit ((hits thr fiveMinutes)^[m] ((hits thr 0)^[n] none)) thr fiveMinutes).2) :
    results .new (schedule sid thr n m) ≠ results .new (withoutCleanup (schedule sid thr n m)) := by
  intro heq
  have hstart := @slot_after_hits .new sid none rfl thr 0 n
  have hwith : (Mealy.after ThresholdTracker.step .new (List.replicate n ⟨0, .shouldFire sid thr⟩ ++
      [⟨fiveMinutes, .cleanup⟩])).slot sid = ⟨none, none⟩ := by
    obtain ⟨b, hb, -, hwindow⟩ := iterate_hits hlive n
    rw [iterate_none hn, hb] at hstart
    rw [Mealy.after_concat, slot_step, hstart]
    have hold : decide (fiveMinutes - b.windowStart < 300 * second) = false := by
      rw [hwindow]
      rfl
    simp only [Event.concerns, if_true, Slot.step, Option.filter_some, hold, Bool.false_eq_true, if_false]
    rfl
  have hlast := slot_after_hits hwith thr fiveMinutes m
  have hlast' := slot_after_hits hstart thr fiveMinutes m
  rw [← Mealy.after_append] at hlast hlast'
  rw [withoutCleanup_schedule, schedule, results_hit hlast, results_hit hlast'] at heq
  exact hdiff (List.singleton_inj.1 (List.append_inj_right' heq rfl))

theorem expired_eq_false {b : Bucket} (h : 300 < thr.seconds) (hstart : b.windowStart + fiveMinutes = now ∨
    b.windowStart = now) : b.expired thr now = false := by
  have hage : b.ageSecs now ≤ 300 := by
    unfold Bucket.ageSecs
    rcases hstart with hstart | hstart
    · rw [← hstart, Nat.add_sub_cancel_left]
      rfl
    · rw [hstart, Nat.sub_self, Nat.zero_div]
      exact Nat.zero_le _
  exact decide_eq_false (Nat.not_le.2 (lt_of_le_of_lt hage h))

/-- A limit that is exhausted allows more after the cleanup. -/
theorem limit_seen {count : UInt32} {seconds : UInt64} (h : 300 < (ThresholdType.limit count seconds).seconds)
    (hcount : count ≠ 0) (sid : UInt32) :
    results .new (schedule sid (.limit count seconds) count.toNat 0) ≠
      results .new (withoutCleanup (schedule sid (.limit count seconds) count.toNat 0)) := by
  have hpos : 0 < count.toNat := Nat.pos_of_ne_zero fun h0 => hcount (UInt32.toNat_inj.1 h0)
  have hlive : (Bucket.new 0).expired (.limit count seconds) 0 = false := expired_eq_false h (Or.inr rfl)
  refine schedule_seen hpos hlive ?_
  rw [iterate_none hpos, Bucket.new, iterate_limit hlive (Nat.le_refl _), UInt32.ofNat_toNat]
  show (Bucket.hit none (.limit count seconds) fiveMinutes).2 ≠
    (Bucket.hit (some ⟨count, count, 0⟩) (.limit count seconds) fiveMinutes).2
  rw [hit_none, hit_live (expired_eq_false h (Or.inl (Nat.zero_add _)))]
  have hsome : 0 < count := UInt32.lt_iff_toNat_lt.2 hpos
  simp only [Bucket.answer, UInt32.lt_irrefl, hsome, if_false, if_true]
  exact Bool.noConfusion

/-- A policy that waits begins to wait again after the cleanup. -/
theorem waits_seen (hwaits : thr.waits = true) (h : 300 < thr.seconds) (hcount : 1 < thr.count.toNat) (sid : UInt32) :
    results .new (schedule sid thr (thr.count.toNat - 1) 0) ≠
      results .new (withoutCleanup (schedule sid thr (thr.count.toNat - 1) 0)) := by
  have hpos : 0 < thr.count.toNat - 1 := Nat.sub_pos_of_lt hcount
  have hlive : (Bucket.new 0).expired thr 0 = false := expired_eq_false h (Or.inr rfl)
  refine schedule_seen hpos hlive ?_
  rw [iterate_none hpos, Bucket.new, iterate_waits hwaits hlive (by omega)]
  show (Bucket.hit none thr fiveMinutes).2 ≠
    (Bucket.hit (some ⟨UInt32.ofNat (thr.count.toNat - 1), 0, 0⟩) thr fiveMinutes).2
  rw [hit_none, hit_live (expired_eq_false h (Or.inl (Nat.zero_add _)))]
  have hfull : UInt32.ofNat (thr.count.toNat - 1) + 1 = thr.count := by
    show UInt32.ofNat (thr.count.toNat - 1) + UInt32.ofNat 1 = thr.count
    rw [← UInt32.ofNat_add, Nat.sub_add_cancel hcount.le, UInt32.ofNat_toNat]
  have hnot : ¬ thr.count ≤ 1 := fun hle => Nat.not_le.2 hcount (UInt32.le_iff_toNat_le.1 hle)
  have hsome : 0 < thr.count := UInt32.lt_iff_toNat_lt.2 (Nat.zero_lt_of_lt hcount)
  have hle := UInt32.le_refl thr.count
  simp only [hfull]
  cases thr with
  | limit count seconds => cases hwaits
  | threshold count seconds =>
    simp only [ThresholdType.count, ThresholdType.window] at hnot hle
    simp only [Bucket.answer, ThresholdType.count, ThresholdType.window, hnot, hle, if_false, if_true]
    exact Bool.noConfusion
  | both count seconds =>
    simp only [ThresholdType.count, ThresholdType.window] at hnot hle hsome
    simp only [Bucket.answer, ThresholdType.count, ThresholdType.window, hnot, hle, hsome, false_and, and_self, if_false,
      if_true]
    exact Bool.noConfusion

/-- One alert in a window becomes two. -/
theorem both_one_seen {seconds : UInt64} (h : 300 < (ThresholdType.both 1 seconds).seconds) (sid : UInt32) :
    results .new (schedule sid (.both 1 seconds) 1 0) ≠
      results .new (withoutCleanup (schedule sid (.both 1 seconds) 1 0)) := by
  refine schedule_seen Nat.one_pos (expired_eq_false h (Or.inr rfl)) ?_
  show (Bucket.hit none (.both 1 seconds) fiveMinutes).2 ≠
    (Bucket.hit (some (Bucket.hit none (.both 1 seconds) 0).1) (.both 1 seconds) fiveMinutes).2
  rw [hit_none, hit_none]
  have hfired : ((⟨1, 0, 0⟩ : Bucket).answer (.both 1 seconds)).1 = ⟨1, 1, 0⟩ := rfl
  rw [hfired, hit_live (expired_eq_false h (Or.inl (Nat.zero_add _)))]
  exact Bool.noConfusion

/-- Only when the counter of the hits wraps does a hit not reach one: a cleanup puts this off. -/
theorem threshold_one_seen {seconds : UInt64} (h : 300 < (ThresholdType.threshold 1 seconds).seconds) (sid : UInt32) :
    results .new (schedule sid (.threshold 1 seconds) 1 (2 ^ 32 - 2)) ≠
      results .new (withoutCleanup (schedule sid (.threshold 1 seconds) 1 (2 ^ 32 - 2))) := by
  have hlive : ∀ start, start + fiveMinutes = fiveMinutes ∨ start = fiveMinutes → ∀ hits fires,
      (⟨hits, fires, start⟩ : Bucket).expired (.threshold 1 seconds) fiveMinutes = false :=
    fun start hstart hits fires => expired_eq_false h hstart
  refine schedule_seen Nat.one_pos (expired_eq_false h (Or.inr rfl)) ?_
  have hfirst : hits (.threshold 1 seconds) 0 none = some ⟨1, 1, 0⟩ := by
    rw [hits, hit_none]
    rfl
  obtain ⟨b, hb, hhits, hstart⟩ := iterate_hits (hlive fiveMinutes (Or.inr rfl) 0 0) (2 ^ 32 - 2)
  obtain ⟨b', hb', hhits', hstart'⟩ := iterate_hits (hlive 0 (Or.inl (Nat.zero_add _)) 1 1) (2 ^ 32 - 2)
  rw [Function.iterate_one, hfirst, hb', iterate_none (by decide), Bucket.new, hb,
    hit_live (expired_eq_false h (Or.inr hstart)),
    hit_live (expired_eq_false h (Or.inl (hstart' ▸ Nat.zero_add _)))]
  have hmany : (1 : UInt32) ≤ 0 + UInt32.ofNat (2 ^ 32 - 2) + 1 := by decide
  have hwrapped : ¬ (1 : UInt32) ≤ 1 + UInt32.ofNat (2 ^ 32 - 2) + 1 := by decide
  simp only [Bucket.answer, hhits, hhits', hmany, hwrapped, if_true, if_false]
  exact Bool.noConfusion

end Longer

/-- **No cleanup is ever seen**, in any run with these thresholds, if and only if each window is at most as long as
buckets are kept, or its count is zero. -/
theorem cleanup_invisible_iff (thresholds : UInt32 → ThresholdType) :
    (∀ events : List Event, (events.map Event.time).Pairwise (· ≤ ·) → Follows thresholds events →
      results .new events = results .new (withoutCleanup events)) ↔
    ∀ sid, (thresholds sid).seconds ≤ 300 ∨ (thresholds sid).count = 0 := by
  constructor
  · intro hinvisible sid
    by_contra hlong
    push Not at hlong
    obtain ⟨hseconds, hcount⟩ := hlong
    have hfollows (n m : ℕ) : Follows thresholds (schedule sid (thresholds sid) n m) := by
      intro e he sid' thr hcall
      simp only [schedule, List.mem_append, List.mem_replicate, List.mem_singleton] at he
      rcases he with ((⟨-, rfl⟩ | rfl) | ⟨-, rfl⟩) | rfl <;> cases hcall <;> rfl
    have hsame (n m : ℕ) := hinvisible _ (clock_schedule sid (thresholds sid) n m) (hfollows n m)
    have hone (hle : ¬ 1 < (thresholds sid).count.toNat) : (thresholds sid).count = 1 := by
      have hne : (thresholds sid).count.toNat ≠ 0 := fun h0 => hcount (UInt32.toNat_inj.1 h0)
      exact UInt32.toNat_inj.1 (show _ = 1 by omega)
    cases hthr : thresholds sid with
    | limit count seconds =>
      rw [hthr] at hsame hseconds hcount
      exact limit_seen hseconds hcount sid (hsame _ _)
    | threshold count seconds =>
      rw [hthr] at hsame hseconds hcount hone
      by_cases hmore : 1 < (ThresholdType.threshold count seconds).count.toNat
      · exact waits_seen rfl hseconds hmore sid (hsame _ _)
      · obtain rfl : count = 1 := hone hmore
        exact threshold_one_seen hseconds sid (hsame _ _)
    | both count seconds =>
      rw [hthr] at hsame hseconds hcount hone
      by_cases hmore : 1 < (ThresholdType.both count seconds).count.toNat
      · exact waits_seen rfl hseconds hmore sid (hsame _ _)
      · obtain rfl : count = 1 := hone hmore
        exact both_one_seen hseconds sid (hsame _ _)
  · exact fun h events hclock hfollows => results_eq_of_harmless hclock hfollows fun pre time _ _ => harmless h _ time

/-- One alert in ten minutes becomes two. -/
theorem second_alert_after_cleanup : ¬ ∀ (thresholds : UInt32 → ThresholdType) (events : List Event),
    (events.map Event.time).Pairwise (· ≤ ·) → Follows thresholds events →
      results .new events = results .new (withoutCleanup events) := by
  intro h
  have hsame := h (fun _ => .limit 1 600) [⟨0, .shouldFire 7 (.limit 1 600)⟩, ⟨300 * second, .cleanup⟩,
    ⟨300 * second, .shouldFire 7 (.limit 1 600)⟩] (by decide) (by simp [Follows])
  exact absurd hsame (by decide)

end ThorFirewall.Ids.Threshold
