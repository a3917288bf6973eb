import ThorFirewall.Control.Resolution

/-!
# Who is signalled (`control_plane_client.rs`, `soar/isolation.rs`)

A directive to terminate or to resume a process should reach that process alone, and only if it is in quarantine. The
target names any number of 32 bits, which is cast to the signed argument of `kill`, and the registry of quarantined
processes is not asked.

- `onlyQuarantined_iff`: which directives reach a quarantined process only;
- `quarantine_iff`: which histories do, and with them the registry is exact.

The processes of a group are a parameter, as are the answers of `kill`.
-/

namespace ThorFirewall.Control

/-! ## Recipients -/

/-- Whom `kill` reaches. -/
inductive Recipient
  | process (pid : ℕ)
  | ownGroup
  | everyProcess
  | group (id : ℕ)
  deriving DecidableEq

/-- The first argument of `kill(2)`. -/
def recipient (arg : Int32) : Recipient :=
  if 0 < arg.toInt then .process arg.toInt.toNat
  else if arg.toInt = 0 then .ownGroup
  else if arg.toInt = -1 then .everyProcess
  else .group (-arg.toInt).toNat

/-- The process is one of those reached. -/
def Recipient.Reaches (inGroup : Recipient → UInt32 → Prop) (pid : UInt32) : Recipient → Prop
  | process n => pid.toNat = n
  | everyProcess => True
  | ownGroup => inGroup ownGroup pid
  | group id => inGroup (group id) pid

/-- The signals that `kill` accepts, after those that were sent before. -/
def delivered (os : Os) : List (Int32 × Signal) → List (Int32 × Signal) → List (Recipient × Signal)
  | _, [] => []
  | sent, x :: xs =>
    (if (os sent x.1 x.2).isOk then [(recipient x.1, x.2)] else []) ++ delivered os (sent ++ [x]) xs

/-- The signals delivered from one state to a later one. -/
def deliveredIn (os : Os) (s s' : ProcessSuspender) : List (Recipient × Signal) :=
  delivered os s.signals (s'.signals.drop s.signals.length)

/-- A number of 32 bits reaches the process of that number exactly if it is a positive signed one. -/
theorem recipient_eq_process_iff (pid : UInt32) (n : ℕ) :
    recipient pid.toInt32 = .process n ↔ n = pid.toNat ∧ 0 < pid.toNat ∧ pid.toNat < 2 ^ 31 := by
  have hint : pid.toInt32.toInt = if 2 * pid.toNat < 2 ^ 32 then (pid.toNat : ℤ) else pid.toNat - 2 ^ 32 := by
    exact BitVec.toInt_eq_toNat_cond pid.toBitVec
  have hlt : pid.toNat < 2 ^ 32 := pid.toNat_lt
  unfold recipient
  rw [hint]
  split_ifs <;> simp <;> omega

/-! ## Histories -/

inductive Input
  | suspend (now : ℕ) (pid : UInt32) (alertId xaiExplanation processName : String)
  | resolve (r : Resolution)

section History

variable (key : Ed25519) (os : Os) (inGroup : Recipient → UInt32 → Prop)

def stepInput (s : ProcessSuspender) : Input → ProcessSuspender
  | .suspend now pid alertId xaiExplanation processName =>
    (s.suspendProcess os now pid alertId xaiExplanation processName).1
  | .resolve r => (processResolution key os s r).1

def afterInputs (inputs : List Input) : ProcessSuspender := inputs.foldl (stepInput key os) .new

/-- The process that a target names. -/
def namedPid (r : Resolution) : Option UInt32 := (pidPart r.target).bind parseU32

/-- Every signal that the directive delivers reaches the process that its target names, no other, and this process is in
quarantine. -/
def OnlyQuarantined (s : ProcessSuspender) : Input → Prop
  | .suspend _ _ _ _ _ => True
  | .resolve r => ∀ x ∈ deliveredIn os s (processResolution key os s r).1,
      ∃ pid, namedPid r = some pid ∧ x.1 = .process pid.toNat ∧ pid ∈ s.activeQuarantines

/-- The processes suspended by a call that succeeded and not reached by a `SIGCONT` or `SIGKILL` since. -/
def stepSuspended (s : ProcessSuspender) (suspended : UInt32 → Prop) : Input → UInt32 → Prop
  | .suspend now pid alertId xaiExplanation processName, q =>
    suspended q ∨ q = pid ∧ (s.suspendProcess os now pid alertId xaiExplanation processName).2.isOk
  | .resolve r, q => suspended q ∧ ∀ x ∈ deliveredIn os s (processResolution key os s r).1,
      x.2 = .sigcont ∨ x.2 = .sigkill → ¬ x.1.Reaches inGroup q

def suspended (inputs : List Input) : UInt32 → Prop :=
  (inputs.foldl (fun x i => (stepInput key os x.1 i, stepSuspended key os inGroup x.1 x.2 i))
    (ProcessSuspender.new, fun _ => False)).2

/-- **The registry is exact.** -/
def RegistryExact (inputs : List Input) : Prop :=
  ∀ pid, pid ∈ (afterInputs key os inputs).activeQuarantines ↔ suspended key os inGroup inputs pid

/-! ## What a directive sends -/

def Call.pid : Call → UInt32
  | terminate pid | resume pid => pid

/-- The signals of a call. -/
def Call.signals : Call → List (Int32 × Signal)
  | terminate pid => [(pid.toInt32, .sigterm), (pid.toInt32, .sigkill)]
  | resume pid => [(pid.toInt32, .sigcont)]

/-- The call that a directive makes. -/
def callOf (r : Resolution) : Option Call :=
  if (verifyResolution key r).isOk then
    (namedPid r).bind fun pid =>
      if r.action = 0 then some (.terminate pid) else if r.action = 1 then some (.resume pid) else none
  else none

/-- If the directive makes a call and a signal of it is delivered, the process is in quarantine and its number is
between 1 and `2 ^ 31 - 1`. -/
def CallsQuarantined (s : ProcessSuspender) : Input → Prop
  | .suspend _ _ _ _ _ => True
  | .resolve r => ∀ call, callOf key r = some call → delivered os s.signals call.signals ≠ [] →
      call.pid ∈ s.activeQuarantines ∧ 0 < call.pid.toNat ∧ call.pid.toNat < 2 ^ 31

variable {key os inGroup} {s : ProcessSuspender} {r : Resolution}

/-- The state after a call. -/
def Call.run (os : Os) (s : ProcessSuspender) : Call → ProcessSuspender
  | terminate pid => (s.terminateProcess os pid).1
  | resume pid => (s.resumeProcess os pid).1

theorem processResolution_eq :
    (processResolution key os s r).1 = ((callOf key r).map (Call.run os s)).getD s := by
  unfold processResolution callOf namedPid
  cases hv : verifyResolution key r with
  | error e => rfl
  | ok _ =>
    cases hp : pidPart r.target with
    | none => rfl
    | some pidStr =>
      cases hn : parseU32 pidStr with
      | none => simp [hn]
      | some pid =>
        by_cases h0 : r.action = 0
        · simp [hn, h0, Call.run, Except.isOk, Except.toBool]
        · by_cases h1 : r.action = 1
          · simp [hn, h1, Call.run, Except.isOk, Except.toBool]
          · simp [hn, h0, h1]

theorem namedPid_of_callOf {call : Call} (h : callOf key r = some call) : namedPid r = some call.pid := by
  unfold callOf at h
  split_ifs at h <;> obtain ⟨pid, hpid, h⟩ := Option.bind_eq_some_iff.1 h <;> cases h <;> exact hpid

/-- The signal that ends the quarantine is delivered. -/
def Call.ends (os : Os) (s : ProcessSuspender) : Call → Bool
  | terminate pid => (os (s.signals ++ [(pid.toInt32, .sigterm)]) pid.toInt32 .sigkill).isOk
  | resume pid => (os s.signals pid.toInt32 .sigcont).isOk

/-- A call sends its signals, and takes the process out of the registry if the last one is delivered. -/
theorem run_eq (call : Call) : call.run os s =
    { activeQuarantines := if call.ends os s then s.activeQuarantines.erase call.pid else s.activeQuarantines
      signals := s.signals ++ call.signals } := by
  cases call with
  | terminate pid =>
    rcases h : os (s.signals ++ [(pid.toInt32, .sigterm)]) pid.toInt32 .sigkill with e | ⟨⟩ <;>
      simp [Call.run, ProcessSuspender.terminateProcess, ProcessSuspender.kill, Call.signals, Call.ends, Call.pid, h,
        Except.isOk, Except.toBool]
  | resume pid =>
    rcases h : os s.signals pid.toInt32 .sigcont with e | ⟨⟩ <;>
      simp [Call.run, ProcessSuspender.resumeProcess, ProcessSuspender.kill, Call.signals, Call.ends, Call.pid, h,
        Except.isOk, Except.toBool]

theorem deliveredIn_run (call : Call) : deliveredIn os s (call.run os s) = delivered os s.signals call.signals := by
  rw [deliveredIn, run_eq, List.drop_left]

/-- All signals of a call go to one recipient. -/
theorem recipient_of_delivered {call : Call} {x : Recipient × Signal} (h : x ∈ delivered os s.signals call.signals) :
    x.1 = recipient call.pid.toInt32 := by
  cases call with
  | terminate pid =>
    simp only [Call.signals, delivered, List.append_nil, List.mem_append, List.mem_ite_nil_right,
      List.mem_singleton] at h
    rcases h with ⟨-, rfl⟩ | ⟨-, rfl⟩ <;> rfl
  | resume pid =>
    simp only [Call.signals, delivered, List.append_nil, List.mem_ite_nil_right, List.mem_singleton] at h
    rw [h.2]
    rfl

/-- A `SIGCONT` or `SIGKILL` is delivered exactly if it ends the quarantine. -/
theorem exists_delivered_iff (call : Call) :
    (∃ x ∈ delivered os s.signals call.signals, x.2 = .sigcont ∨ x.2 = .sigkill) ↔ call.ends os s := by
  cases call with
  | terminate pid =>
    simp only [Call.signals, delivered, Call.ends, List.append_nil, List.mem_append, List.mem_ite_nil_right,
      List.mem_singleton]
    constructor
    · rintro ⟨x, ⟨-, rfl⟩ | ⟨hok, rfl⟩, hx⟩
      · simp at hx
      · exact hok
    · exact fun hok => ⟨_, Or.inr ⟨hok, rfl⟩, Or.inr rfl⟩
  | resume pid =>
    simp only [Call.signals, delivered, Call.ends, List.append_nil, List.mem_ite_nil_right, List.mem_singleton]
    constructor
    · rintro ⟨x, ⟨hok, -⟩, -⟩
      exact hok
    · exact fun hok => ⟨_, ⟨hok, rfl⟩, Or.inl rfl⟩

/-! ## One directive -/

theorem onlyQuarantined_iff (s : ProcessSuspender) (i : Input) :
    OnlyQuarantined key os s i ↔ CallsQuarantined key os s i := by
  cases i with
  | suspend now pid alertId xaiExplanation processName => exact Iff.rfl
  | resolve r =>
    simp only [OnlyQuarantined, CallsQuarantined]
    rw [processResolution_eq]
    cases hcall : callOf key r with
    | none => simp [deliveredIn, delivered]
    | some call =>
      rw [Option.map_some, Option.getD_some, deliveredIn_run, namedPid_of_callOf hcall]
      constructor
      · rintro h _ ⟨⟩ hne
        obtain ⟨x, hx⟩ := List.exists_mem_of_ne_nil _ hne
        obtain ⟨pid, hpid, hprocess, hmem⟩ := h x hx
        cases hpid
        rw [recipient_of_delivered hx, recipient_eq_process_iff] at hprocess
        exact ⟨hmem, hprocess.2⟩
      · intro h x hx
        obtain ⟨hmem, hpos, hlt⟩ := h call rfl (List.ne_nil_of_mem hx)
        refine ⟨call.pid, rfl, ?_, hmem⟩
        rw [recipient_of_delivered hx, recipient_eq_process_iff]
        exact ⟨rfl, hpos, hlt⟩

/-- A call that reaches only its own process takes out of the registry what it resumes or kills. -/
theorem mem_run_iff {call : Call} (h : delivered os s.signals call.signals ≠ [] →
    call.pid ∈ s.activeQuarantines ∧ 0 < call.pid.toNat ∧ call.pid.toNat < 2 ^ 31) (q : UInt32) :
    q ∈ (call.run os s).activeQuarantines ↔ q ∈ s.activeQuarantines ∧
      ∀ x ∈ delivered os s.signals call.signals, x.2 = .sigcont ∨ x.2 = .sigkill → ¬ x.1.Reaches inGroup q := by
  rw [run_eq]
  cases hends : call.ends os s with
  | false =>
    have hnone := mt (exists_delivered_iff call).1 (by rw [hends]; decide)
    simp only [Bool.false_eq_true, if_false, iff_self_and]
    exact fun _ x hx hsignal => absurd ⟨x, hx, hsignal⟩ hnone
  | true =>
    obtain ⟨x, hx, hsignal⟩ := (exists_delivered_iff call).2 hends
    have hrecipient : recipient call.pid.toInt32 = .process call.pid.toNat :=
      (recipient_eq_process_iff _ _).2 ⟨rfl, (h (List.ne_nil_of_mem hx)).2⟩
    have hreaches : ∀ y ∈ delivered os s.signals call.signals, (y.1.Reaches inGroup q ↔ q = call.pid) := by
      intro y hy
      rw [recipient_of_delivered hy, hrecipient]
      exact UInt32.toNat_inj
    rw [if_pos rfl, AList.mem_erase, and_comm]
    refine and_congr_right fun _ => ⟨fun hne y hy _ => ?_, fun hall heq => ?_⟩
    · rwa [hreaches y hy]
    · exact hall x hx hsignal ((hreaches x hx).2 heq)

/-! ## Histories -/

theorem afterInputs_concat (inputs : List Input) (i : Input) :
    afterInputs key os (inputs ++ [i]) = stepInput key os (afterInputs key os inputs) i := by
  simp [afterInputs]

theorem suspended_concat (inputs : List Input) (i : Input) :
    suspended key os inGroup (inputs ++ [i]) =
      stepSuspended key os inGroup (afterInputs key os inputs) (suspended key os inGroup inputs) i := by
  have hstate : ∀ (inputs : List Input) (x : ProcessSuspender × (UInt32 → Prop)),
      (inputs.foldl (fun x i => (stepInput key os x.1 i, stepSuspended key os inGroup x.1 x.2 i)) x).1 =
        inputs.foldl (stepInput key os) x.1 := by
    intro inputs
    induction inputs with
    | nil => exact fun _ => rfl
    | cons j inputs ih => exact fun x => ih _
  rw [suspended, List.foldl_concat, hstate]
  rfl

theorem registryExact_step {inputs : List Input} {i : Input} (h : RegistryExact key os inGroup inputs)
    (hi : CallsQuarantined key os (afterInputs key os inputs) i) : RegistryExact key os inGroup (inputs ++ [i]) := by
  intro q
  rw [afterInputs_concat, suspended_concat]
  cases i with
  | suspend now pid alertId xaiExplanation processName =>
    simp only [stepInput, stepSuspended, ProcessSuspender.suspendProcess, ProcessSuspender.kill]
    cases os (afterInputs key os inputs).signals pid.toInt32 .sigstop with
    | error e => simp [Except.isOk, Except.toBool, h q]
    | ok _ => simp [Except.isOk, Except.toBool, h q, AList.mem_insert, or_comm]
  | resolve r =>
    simp only [stepInput, stepSuspended]
    rw [processResolution_eq]
    cases hcall : callOf key r with
    | none => simp [deliveredIn, delivered, h q]
    | some call =>
      rw [Option.map_some, Option.getD_some, deliveredIn_run, mem_run_iff (hi call hcall), h q]

/-- **Directives and quarantine.** In a history of suspensions and directives, every directive signals the quarantined
process that it names, no other, and the registry is exact after every call, exactly if every call that delivers a
signal is for a quarantined process with a number between 1 and `2 ^ 31 - 1`. -/
theorem quarantine_iff (key : Ed25519) (os : Os) (inGroup : Recipient → UInt32 → Prop) (inputs : List Input) :
    ((∀ p i, p ++ [i] <+: inputs → OnlyQuarantined key os (afterInputs key os p) i) ∧
      ∀ p, p <+: inputs → RegistryExact key os inGroup p) ↔
    ∀ p i, p ++ [i] <+: inputs → CallsQuarantined key os (afterInputs key os p) i := by
  constructor
  · intro h p i hp
    exact (onlyQuarantined_iff _ i).1 (h.1 p i hp)
  · intro h
    refine ⟨fun p i hp => (onlyQuarantined_iff _ i).2 (h p i hp), fun p hp => ?_⟩
    induction p using List.reverseRecOn with
    | nil => exact fun pid => iff_of_false (AList.notMem_empty pid) id
    | append_singleton p i ih => exact registryExact_step (ih ((List.prefix_append _ _).trans hp)) (h p i hp)

end History

/-- A directive for the greatest number of 32 bits terminates every process. -/
theorem every_process_killed : ¬ ∀ (key : Ed25519) (os : Os) (inGroup : Recipient → UInt32 → Prop)
    (inputs : List Input), (∀ r, Input.resolve r ∈ inputs → verifyResolution key r = .ok ()) →
    (∀ p i, p ++ [i] <+: inputs → OnlyQuarantined key os (afterInputs key os p) i) ∧
      ∀ p, p <+: inputs → RegistryExact key os inGroup p := by
  intro h
  let r : Resolution := ⟨"res-1", "alert-1", "pid:4294967295", 0, "admin", List.replicate 64 0⟩
  have honly := (h (signedOnly [resolutionData r]) (fun _ _ _ => .ok ()) (fun _ _ => False) [.resolve r] ?_).1 []
    (.resolve r) List.prefix_rfl (.everyProcess, .sigkill) (by decide +kernel)
  · obtain ⟨pid, -, hprocess, -⟩ := honly
    cases hprocess
  · intro r' hr'
    cases List.mem_singleton.1 hr'
    decide +kernel

end ThorFirewall.Control
