import Mathlib
import ThorFirewall.Lib.ByteReader
import ThorFirewall.Lib.Mealy
import ThorFirewall.Soar.Whitelist

/-!
# Event deduplication (`events/dedup.rs`)

The deduplicator keeps the hashes of the events that it has passed, and clears them when a call finds the last clearing
longer ago than the window. The hash is one of a few fields of the event; the hasher is a parameter. `match` in
`event_hash` knows three kinds of events, and these are the events here.

- `hashed_eq_iff`: which events have the same hashed fields;
- `Reached`: what the state is after a run, in terms of the events and the clock;
- `dedup_iff`: in which runs only duplicates are dropped, and no subtraction of times goes below zero.
-/

namespace ThorFirewall.Events

open ByteReader
open Soar (Ipv4)

/-! ## Events -/

inductive ThorProcessEvent
  | exec (pid ppid uid : UInt32) (comm filename : String) (timestampNs : UInt64)
  | exit (pid exitCode : UInt32) (timestampNs : UInt64)
  deriving DecidableEq

namespace ThorProcessEvent

def pid : ThorProcessEvent → UInt32
  | exec pid _ _ _ _ _ => pid
  | exit pid _ _ => pid

def timestampNs : ThorProcessEvent → UInt64
  | exec _ _ _ _ _ t => t
  | exit _ _ t => t

def untimed : ThorProcessEvent → ThorProcessEvent
  | exec pid ppid uid comm filename _ => exec pid ppid uid comm filename 0
  | exit pid exitCode _ => exit pid exitCode 0

end ThorProcessEvent

structure ThorNetworkEvent where
  pid : UInt32
  uid : UInt32
  srcIp : Ipv4
  dstIp : Ipv4
  srcPort : UInt16
  dstPort : UInt16
  protocol : UInt8
  comm : String
  timestampNs : UInt64
  deriving DecidableEq

inductive RawEvent
  | process (e : ThorProcessEvent)
  | network (e : ThorNetworkEvent)
  | xdpDrop (srcIp dstIp : UInt32) (srcPort dstPort : UInt16) (reason : UInt8) (timestampNs : UInt64)
  deriving DecidableEq

/-- The event without its timestamp. -/
def RawEvent.untimed : RawEvent → RawEvent
  | process e => process e.untimed
  | network e => network { e with timestampNs := 0 }
  | xdpDrop srcIp dstIp srcPort dstPort reason _ => xdpDrop srcIp dstIp srcPort dstPort reason 0

/-! ## Hashes -/

/-- The low `n` bytes of a number, as an integer type feeds them to the hasher. -/
def feed (n x : ℕ) : List UInt8 := (beBytes n x).reverse

def second (t : UInt64) : UInt64 := t / 1000000000

/-- The bytes that `event_hash` feeds to the hasher. -/
def hashed : RawEvent → List UInt8
  | .process e => feed 4 e.pid.toNat ++ feed 8 (second e.timestampNs).toNat ++ feed 8 0
  | .network e =>
    feed 4 e.pid.toNat ++ [e.dstIp.a, e.dstIp.b, e.dstIp.c, e.dstIp.d] ++ feed 2 e.dstPort.toNat ++
      feed 8 (second e.timestampNs).toNat ++ feed 8 0
  | .xdpDrop srcIp _ _ dstPort reason _ => feed 4 srcIp.toNat ++ feed 2 dstPort.toNat ++ [reason] ++ feed 8 0

/-- The events agree in the fields that are hashed. -/
def SameKey : RawEvent → RawEvent → Prop
  | .process e, .process e' => e.pid = e'.pid ∧ second e.timestampNs = second e'.timestampNs
  | .network e, .network e' =>
    e.pid = e'.pid ∧ e.dstIp = e'.dstIp ∧ e.dstPort = e'.dstPort ∧ second e.timestampNs = second e'.timestampNs
  | .xdpDrop srcIp _ _ dstPort reason _, .xdpDrop srcIp' _ _ dstPort' reason' _ =>
    srcIp = srcIp' ∧ dstPort = dstPort' ∧ reason = reason'
  | _, _ => False

instance (e e' : RawEvent) : Decidable (SameKey e e') := by
  cases e <;> cases e' <;> first | exact inferInstanceAs (Decidable (_ ∧ _)) | exact inferInstanceAs (Decidable False)

@[simp] theorem length_feed (n x : ℕ) : (feed n x).length = n := by
  simp [feed]

theorem feed_inj {n x y : ℕ} (hx : x < 256 ^ n) (hy : y < 256 ^ n) : feed n x = feed n y ↔ x = y := by
  refine ⟨fun h => ?_, fun h => by rw [h]⟩
  have hbytes := congrArg ofBe (List.reverse_injective h)
  rwa [ofBe_beBytes, ofBe_beBytes, Nat.mod_eq_of_lt hx, Nat.mod_eq_of_lt hy] at hbytes

theorem append_eq_iff {α : Type*} {a b c d : List α} (h : a.length = c.length) :
    a ++ b = c ++ d ↔ a = c ∧ b = d :=
  ⟨fun heq => List.append_inj heq h, fun ⟨hac, hbd⟩ => by rw [hac, hbd]⟩

theorem feed_u16 {x y : UInt16} : feed 2 x.toNat = feed 2 y.toNat ↔ x = y := by
  rw [feed_inj x.toNat_lt y.toNat_lt, UInt16.toNat_inj]

theorem feed_u32 {x y : UInt32} : feed 4 x.toNat = feed 4 y.toNat ↔ x = y := by
  rw [feed_inj x.toNat_lt y.toNat_lt, UInt32.toNat_inj]

theorem feed_u64 {x y : UInt64} : feed 8 x.toNat = feed 8 y.toNat ↔ x = y := by
  rw [feed_inj x.toNat_lt y.toNat_lt, UInt64.toNat_inj]

theorem octets_eq_iff {x y : Ipv4} : [x.a, x.b, x.c, x.d] = [y.a, y.b, y.c, y.d] ↔ x = y := by
  cases x
  cases y
  simp

/-- **The bytes fed to the hasher** are the same exactly if the fields are. -/
theorem hashed_eq_iff {e e' : RawEvent} : hashed e = hashed e' ↔ SameKey e e' := by
  have hlength (h : (hashed e).length ≠ (hashed e').length) : hashed e ≠ hashed e' :=
    fun heq => h (congrArg List.length heq)
  -- events of different kinds feed different numbers of bytes
  cases e with
  | process e =>
    cases e' with
    | process e' =>
      rw [hashed, hashed, List.append_left_inj, append_eq_iff (by simp), feed_u32, feed_u64, SameKey]
    | network e' => exact iff_of_false (hlength (by simp [hashed])) id
    | xdpDrop => exact iff_of_false (hlength (by simp [hashed])) id
  | network e =>
    cases e' with
    | process e' => exact iff_of_false (hlength (by simp [hashed])) id
    | network e' =>
      rw [hashed, hashed, List.append_left_inj, append_eq_iff (by simp), append_eq_iff (by simp),
        append_eq_iff (by simp), feed_u32, feed_u16, feed_u64, octets_eq_iff, SameKey, and_assoc, and_assoc]
    | xdpDrop => exact iff_of_false (hlength (by simp [hashed])) id
  | xdpDrop srcIp dstIp srcPort dstPort reason t =>
    cases e' with
    | process e' => exact iff_of_false (hlength (by simp [hashed])) id
    | network e' => exact iff_of_false (hlength (by simp [hashed])) id
    | xdpDrop srcIp' dstIp' srcPort' dstPort' reason' t' =>
      rw [hashed, hashed, List.append_left_inj, append_eq_iff (by simp), append_eq_iff (by simp), feed_u32, feed_u16,
        SameKey, and_assoc, List.singleton_inj]

/-! ## The deduplicator -/

section Dedup

variable {H : Type*} [DecidableEq H]

structure EventDeduplicator (H : Type*) where
  seen : Finset H
  windowSecs : UInt64
  lastClean : UInt64

variable (digest : List UInt8 → H)

namespace EventDeduplicator

def new (windowSecs now : UInt64) : EventDeduplicator H := ⟨∅, windowSecs, now⟩

/-- `now - last` wraps around. No other call comes between the load and the exchange of `last_clean`. -/
def isDuplicate (d : EventDeduplicator H) (event : RawEvent) (now : UInt64) : EventDeduplicator H × Bool :=
  let hash := digest (hashed event)
  let d := if d.windowSecs < now - d.lastClean then { d with lastClean := now, seen := ∅ } else d
  ({ d with seen := insert hash d.seen }, decide (hash ∈ d.seen))

end EventDeduplicator

/-- The state after a run of calls, each with its event and its reading of the clock. -/
def reached (window start : UInt64) (calls : List (RawEvent × UInt64)) : EventDeduplicator H :=
  Mealy.after (fun d call => d.isDuplicate digest call.1 call.2) (.new window start) calls

/-- The call drops its event only if it is a duplicate, and does not subtract a later time from an earlier one. -/
def Sound (window start : UInt64) (calls : List (RawEvent × UInt64)) (call : RawEvent × UInt64) : Prop :=
  (((reached digest window start calls).isDuplicate digest call.1 call.2).2 = true →
    ∃ e ∈ calls.map Prod.fst, e.untimed = call.1.untimed) ∧
  ¬ call.2 < (reached digest window start calls).lastClean

/-! ## Runs -/

/-- The time of the last clearing, and the events since then. -/
def sinceClean (window start : UInt64) (calls : List (RawEvent × UInt64)) : UInt64 × List RawEvent :=
  calls.foldl (fun s call => if window < call.2 - s.1 then (call.2, [call.1]) else (s.1, call.1 :: s.2)) (start, [])

/-- The clock has not been set back behind the last clearing, and an event with the key of one since then is the duplicate
of an event that was passed before. -/
def Fits (window start : UInt64) (calls : List (RawEvent × UInt64)) (call : RawEvent × UInt64) : Prop :=
  (sinceClean window start calls).1 ≤ call.2 ∧
  (call.2 - (sinceClean window start calls).1 ≤ window →
    (∃ e ∈ (sinceClean window start calls).2, SameKey e call.1) → ∃ e ∈ calls.map Prod.fst, e.untimed = call.1.untimed)

variable {digest}

/-- **The state after a run**: the hashes of the events since the last clearing. -/
theorem reached_eq (window start : UInt64) (calls : List (RawEvent × UInt64)) :
    reached digest window start calls =
      ⟨((sinceClean window start calls).2.map fun e => digest (hashed e)).toFinset, window,
        (sinceClean window start calls).1⟩ := by
  induction calls using List.reverseRecOn with
  | nil => rfl
  | append_singleton calls call ih =>
    have hnext : sinceClean window start (calls ++ [call]) =
        if window < call.2 - (sinceClean window start calls).1 then (call.2, [call.1])
        else ((sinceClean window start calls).1, call.1 :: (sinceClean window start calls).2) := by
      rw [sinceClean, List.foldl_append]
      rfl
    rw [reached, Mealy.after_concat, ← reached, ih, hnext, EventDeduplicator.isDuplicate]
    dsimp only
    split_ifs with hover <;> simp

/-- **What a call answers** after a run. -/
theorem isDuplicate_iff (hinj : Function.Injective digest) {window start : UInt64} {calls : List (RawEvent × UInt64)}
    {call : RawEvent × UInt64} :
    ((reached digest window start calls).isDuplicate digest call.1 call.2).2 = true ↔
      call.2 - (sinceClean window start calls).1 ≤ window ∧
        ∃ e ∈ (sinceClean window start calls).2, SameKey e call.1 := by
  rw [reached_eq, EventDeduplicator.isDuplicate]
  dsimp only
  rw [decide_eq_true_eq]
  split_ifs with hover
  · exact iff_of_false (Finset.notMem_empty _) fun h => UInt64.not_le.2 hover h.1
  · rw [and_iff_right (UInt64.not_lt.1 hover), List.mem_toFinset, List.mem_map]
    exact exists_congr fun e => and_congr_right fun _ => hinj.eq_iff.trans hashed_eq_iff

/-- **Only duplicates are dropped in a run**, and no subtraction goes below zero, if and only if each call fits. -/
theorem dedup_iff (hinj : Function.Injective digest) (window start : UInt64) (calls : List (RawEvent × UInt64)) :
    (∀ before call, before ++ [call] <+: calls → Sound digest window start before call) ↔
      ∀ before call, before ++ [call] <+: calls → Fits window start before call := by
  refine forall₃_congr fun before call _ => ?_
  rw [Sound, isDuplicate_iff hinj, Fits, and_imp, reached_eq, UInt64.not_lt]
  exact And.comm

/-- The exit of a process is dropped after its start, and a clock that is set back makes the difference of times
negative. -/
theorem exit_dropped :
    ¬ Sound (H := List UInt8) id 60 100 [(.process (.exec 7 1 0 "sh" "/bin/sh" 5000000000), 100)]
      (.process (.exit 7 1 5000000001), 100) ∧
    ¬ Sound (H := List UInt8) id 60 100 [] (.process (.exit 7 1 5000000001), 99) := by
  refine ⟨fun h => ?_, fun h => h.2 (by decide)⟩
  obtain ⟨e, he, huntimed⟩ := h.1 (by decide)
  rw [List.map_singleton, List.mem_singleton] at he
  subst he
  cases huntimed

theorem drops_sound : Sound (H := List UInt8) id 60 100 [(.xdpDrop 1 2 3 4 5 0, 100)] (.xdpDrop 1 2 3 4 5 9, 100) := by
  refine (@dedup_iff _ _ id Function.injective_id 60 100 [(.xdpDrop 1 2 3 4 5 0, 100), (.xdpDrop 1 2 3 4 5 9, 100)]).2
    (fun before call h => ?_) _ _ List.prefix_rfl
  match before with
  | [] =>
    obtain ⟨rfl, -⟩ := List.cons_prefix_cons.1 h
    unfold Fits
    decide
  | [first] =>
    obtain ⟨rfl, hsecond⟩ := List.cons_prefix_cons.1 h
    obtain ⟨rfl, -⟩ := List.cons_prefix_cons.1 hsecond
    unfold Fits
    decide
  | _ :: _ :: before => exact absurd h.length_le (by simp)

end Dedup

end ThorFirewall.Events
