import Mathlib
import ThorFirewall.Control.Signing
import ThorFirewall.Lib.Mealy

/-!
# Resolution directives (`control_plane_client.rs`, `soar/isolation.rs`)

The agent freezes suspicious processes and waits for a directive of an administrator: terminate the process or let it
run on. `processResolution` checks the signature of a directive and carries it out. It keeps no record of the
directives it has seen, so every effective directive of a sequence causes a call (`calls_eq`), and a resolution id
causes at most one call exactly when no two effective directives of the sequence carry it (`resolution_once_iff`).

The answers of `kill` are a parameter: they may depend on every signal sent before.
-/

namespace ThorFirewall.Control

/-! ## The quarantine registry -/

inductive Signal
  | sigstop
  | sigcont
  | sigterm
  | sigkill
  deriving DecidableEq, Repr

structure QuarantineEntry where
  pid : UInt32
  suspendedAt : ℕ
  alertId : String
  xaiExplanation : String
  processName : String
  isNetworkIsolated : Bool

/-- What `kill` answers to a signal, after the signals sent so far. -/
abbrev Os := List (Int32 × Signal) → Int32 → Signal → Except String Unit

structure ProcessSuspender where
  activeQuarantines : AList fun _ : UInt32 => QuarantineEntry
  /-- The signals sent so far. -/
  signals : List (Int32 × Signal)

namespace ProcessSuspender

def new : ProcessSuspender := { activeQuarantines := ∅, signals := [] }

/-- `kill(Pid::from_raw(pid as i32), signal)`. -/
def kill (os : Os) (s : ProcessSuspender) (pid : UInt32) (signal : Signal) : ProcessSuspender × Except String Unit :=
  ({ s with signals := s.signals ++ [(pid.toInt32, signal)] }, os s.signals pid.toInt32 signal)

def suspendProcess (os : Os) (s : ProcessSuspender) (now : ℕ) (pid : UInt32)
    (alertId xaiExplanation processName : String) : ProcessSuspender × Except String Unit :=
  match s.kill os pid .sigstop with
  | (s, .error e) => (s, .error ("SIGSTOP failed for PID " ++ toString pid ++ ": " ++ e))
  | (s, .ok ()) =>
    let entry := { pid, suspendedAt := now, alertId, xaiExplanation, processName, isNetworkIsolated := false }
    ({ s with activeQuarantines := s.activeQuarantines.insert pid entry }, .ok ())

def resumeProcess (os : Os) (s : ProcessSuspender) (pid : UInt32) : ProcessSuspender × Except String Unit :=
  match s.kill os pid .sigcont with
  | (s, .error e) => (s, .error ("SIGCONT failed for PID " ++ toString pid ++ ": " ++ e))
  | (s, .ok ()) => ({ s with activeQuarantines := s.activeQuarantines.erase pid }, .ok ())

/-- `SIGTERM`, whatever comes of it, and then `SIGKILL`. -/
def terminateProcess (os : Os) (s : ProcessSuspender) (pid : UInt32) : ProcessSuspender × Except String Unit :=
  match (s.kill os pid .sigterm).1.kill os pid .sigkill with
  | (s, .error e) => (s, .error ("SIGKILL failed for PID " ++ toString pid ++ ": " ++ e))
  | (s, .ok ()) => ({ s with activeQuarantines := s.activeQuarantines.erase pid }, .ok ())

end ProcessSuspender

/-! ## Targets -/

/-- One more decimal digit of a number that has to stay below `2 ^ 32`. -/
def digitStep (n : ℕ) (c : Char) : Option ℕ :=
  if c.isDigit then
    let n := n * 10 + (c.toNat - '0'.toNat)
    if n < 2 ^ 32 then some n else none
  else none

/-- `str::parse::<u32>`: an optional plus sign and at least one digit. -/
def parseU32 (s : List Char) : Option UInt32 :=
  let digits := match s with
    | '+' :: digits => digits
    | digits => digits
  if digits = [] then none else (digits.foldlM digitStep 0).map UInt32.ofNat

/-- What comes after `pid:` in a target. -/
def pidPart (target : String) : Option (List Char) := target.toList.dropPrefix? "pid:".toList

/-! ## Processing a directive -/

/-- A call of `terminate_process` or `resume_process`. -/
inductive Call
  | terminate (pid : UInt32)
  | resume (pid : UInt32)
  deriving DecidableEq, Repr

structure Outcome where
  call : Option Call
  result : Except String Unit

section Process

variable (key : Ed25519) (os : Os)

def processResolution (s : ProcessSuspender) (r : Resolution) : ProcessSuspender × Outcome :=
  match verifyResolution key r with
  | .error e => (s, ⟨none, .error e⟩)
  | .ok () =>
    match pidPart r.target with
    | some pidStr =>
      match parseU32 pidStr with
      | none => (s, ⟨none, .error ("Invalid PID in resolution target: " ++ r.target)⟩)
      | some pid =>
        if r.action = 0 then
          let (s, result) := s.terminateProcess os pid
          (s, ⟨some (.terminate pid), result⟩)
        else if r.action = 1 then
          let (s, result) := s.resumeProcess os pid
          (s, ⟨some (.resume pid), result⟩)
        -- an escalation and an unknown action are only logged
        else (s, ⟨none, .ok ()⟩)
    -- directives for `ip:` targets and for other targets are only logged
    | none => (s, ⟨none, .ok ()⟩)

/-- The calls of a sequence of directives, each with the resolution id that caused it. -/
def calls (s : ProcessSuspender) (rs : List Resolution) : List (String × Call) :=
  (rs.zip (Mealy.outputs (processResolution key os) s rs)).filterMap fun p => p.2.call.map (p.1.resolutionId, ·)

/-! ## Effective directives -/

/-- The directive is validly signed, names a process and asks to terminate or to resume it. -/
def Effective (r : Resolution) : Prop :=
  verifyResolution key r = .ok () ∧ ((pidPart r.target).bind parseU32).isSome ∧ (r.action = 0 ∨ r.action = 1)

instance (r : Resolution) : Decidable (Effective key r) := inferInstanceAs (Decidable (_ ∧ _ ∧ _))

variable {key os}

/-- A directive causes a call exactly when it is effective, whatever has happened before. -/
theorem isSome_call_iff (s : ProcessSuspender) (r : Resolution) :
    (processResolution key os s r).2.call.isSome ↔ Effective key r := by
  unfold processResolution Effective
  cases hv : verifyResolution key r with
  | error e => simp
  | ok _ =>
    cases hp : pidPart r.target with
    | none => simp
    | some pidStr =>
      cases hn : parseU32 pidStr with
      | none => simp [hn]
      | some pid =>
        by_cases h0 : r.action = 0
        · simp [hn, h0]
        · by_cases h1 : r.action = 1
          · simp [hn, h1]
          · simp [hn, h0, h1]

/-- **Every sequence**: the calls are those of its effective directives, in order. -/
theorem calls_eq (rs : List Resolution) (s : ProcessSuspender) :
    (calls key os s rs).map (·.1) = (rs.filter (Effective key ·)).map (·.resolutionId) := by
  induction rs generalizing s with
  | nil => rfl
  | cons r rs ih =>
    have ih := ih (processResolution key os s r).1
    have hcall := @isSome_call_iff key os s r
    unfold calls at ih ⊢
    rw [Mealy.outputs, List.zip_cons_cons]
    cases hc : (processResolution key os s r).2.call with
    | none =>
      rw [hc] at hcall
      have hne : ¬ Effective key r := fun he => by simpa using hcall.2 he
      simp [hc, hne, ih]
    | some call =>
      rw [hc] at hcall
      have he : Effective key r := hcall.1 rfl
      simp [hc, he, ih]

end Process

/-- In every sequence of directives each resolution id causes at most one call exactly when no two effective
directives of the sequence have the same resolution id. -/
theorem resolution_once_iff (key : Ed25519) (os : Os) (s : ProcessSuspender) (rs : List Resolution) :
    (∀ id, ((calls key os s rs).map (·.1)).count id ≤ 1) ↔
      rs.Pairwise fun a b => Effective key a → Effective key b → a.resolutionId ≠ b.resolutionId := by
  rw [← List.nodup_iff_count_le_one, calls_eq, List.Nodup, List.pairwise_map, List.pairwise_filter]
  simp only [decide_eq_true_eq]

/-- A directive to terminate a process, sent twice. -/
theorem resolution_replayed : ¬ ∀ (key : Ed25519) (os : Os) (s : ProcessSuspender) (rs : List Resolution),
    (∀ r ∈ rs, verifyResolution key r = .ok ()) → ∀ id, ((calls key os s rs).map (·.1)).count id ≤ 1 := by
  intro h
  let r : Resolution := ⟨"res-1", "alert-1", "pid:1234", 0, "admin", List.replicate 64 0⟩
  have hcount := h (signedOnly [resolutionData r]) (fun _ _ _ => .ok ()) .new [r, r] (by decide +kernel) "res-1"
  revert hcount
  decide +kernel

end ThorFirewall.Control
