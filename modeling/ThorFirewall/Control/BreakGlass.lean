import Mathlib
import ThorFirewall.Lib.Interleaving

/-!
# Break-glass tokens (`break_glass.rs`)

An administrator regains control with a token signed offline. `process` verifies the signature, parses the token, checks
its expiry, consumes its nonce, carries out its command and logs the activation. Any number of calls run at the same
time; the steps they take on the shared state are the nonce check under the write lock, each store to one of the four
flags, and the append to the log.

The signature check and the parser of the token are parameters. `process_cases` says what a step can do; from it, over
every schedule (`tokens_once`): the calls that passed the nonce check and the consumed nonces correspond one to one, the
log has one entry for each call that returned, and a call that fails has changed nothing.
-/

namespace ThorFirewall.BreakGlass

open Interleaving

/-! ## Tokens -/

inductive BreakGlassCommand
  | freezeAi
  | forceAllowAll
  | emergencyBlockAll
  | fullLockdown
  | revokeAgent (agentId : String)
  | restoreNormal
  deriving DecidableEq, Repr

structure BreakGlassToken where
  issuedAt : UInt64
  expiresAt : UInt64
  issuedBy : String
  command : BreakGlassCommand
  targetScope : String
  reason : String
  nonce : String
  deriving DecidableEq, Repr

inductive BreakGlassError
  | invalidSignature
  | tokenExpired
  | malformedToken
  | replayAttack
  deriving DecidableEq, Repr

structure BreakGlassActivation where
  timestamp : UInt64
  issuedBy : String
  command : String
  reason : String
  deriving DecidableEq, Repr

/-- The library functions `process` calls. -/
structure BreakGlassProcessor where
  /-- `verifying_key.verify` of a token and a signature. -/
  verify : List UInt8 → Vector UInt8 64 → Bool
  /-- `serde_json::from_slice`. -/
  fromSlice : List UInt8 → Option BreakGlassToken
  /-- The characters that `{:?}` of a text writes as they are. -/
  printable : Char → Bool

/-- A character in the `{:?}` of a text. -/
def escapeDebug (printable : Char → Bool) (c : Char) : String :=
  if c = '\x00' then "\\0" else if c = '\t' then "\\t" else if c = '\r' then "\\r" else if c = '\n' then "\\n"
  else if c = '"' then "\\\"" else if c = '\\' then "\\\\"
  else if printable c then c.toString
  else "\\u\x7b" ++ String.ofList (Nat.toDigits 16 c.toNat) ++ "\x7d"

/-- `{:?}` of a command. -/
def debug (printable : Char → Bool) : BreakGlassCommand → String
  | .freezeAi => "FreezeAi"
  | .forceAllowAll => "ForceAllowAll"
  | .emergencyBlockAll => "EmergencyBlockAll"
  | .fullLockdown => "FullLockdown"
  | .revokeAgent agentId =>
    "RevokeAgent \x7b agent_id: \"" ++ String.join (agentId.toList.map (escapeDebug printable)) ++ "\" \x7d"
  | .restoreNormal => "RestoreNormal"

/-! ## The emergency state -/

inductive Flag
  | active
  | aiFrozen
  | blockAll
  | allowAll
  deriving DecidableEq, Repr

structure SystemEmergencyState where
  flags : Flag → Bool
  consumedNonces : Finset String
  activationLog : List BreakGlassActivation

def SystemEmergencyState.new : SystemEmergencyState :=
  { flags := fun _ => false, consumedNonces := ∅, activationLog := [] }

/-- The stores of `apply_command`, in order. -/
def stores : BreakGlassCommand → List (Flag × Bool)
  | .freezeAi => [(.aiFrozen, true), (.active, true)]
  | .emergencyBlockAll => [(.blockAll, true), (.active, true)]
  | .forceAllowAll => [(.allowAll, true), (.active, true)]
  | .fullLockdown => [(.aiFrozen, true), (.blockAll, true), (.active, true)]
  | .revokeAgent _ => []
  | .restoreNormal => [(.aiFrozen, false), (.blockAll, false), (.allowAll, false), (.active, false)]

/-! ## Processing -/

/-- A call of `process`, and the time it reads. -/
structure Call where
  tokenJson : List UInt8
  signatureBytes : Vector UInt8 64
  now : UInt64

/-- Where a call of `process` stands. -/
inductive Pc
  | start
  | verified
  | parsed (token : BreakGlassToken)
  | unexpired (token : BreakGlassToken)
  /-- The nonce is consumed and the first `k` stores of the command are made. -/
  | applying (token : BreakGlassToken) (k : ℕ)
  | done (result : Except BreakGlassError BreakGlassCommand)
  deriving DecidableEq

section Process

variable {ι : Type*} (env : BreakGlassProcessor) (calls : ι → Call)

/-- The entry for an accepted token. -/
def activation (token : BreakGlassToken) (now : UInt64) : BreakGlassActivation :=
  { timestamp := now, issuedBy := token.issuedBy, command := debug env.printable token.command,
    reason := token.reason }

/-- One atomic step of `process`. -/
def process (i : ι) (pc : Pc) (s : SystemEmergencyState) : Option (Pc × SystemEmergencyState) :=
  match pc with
  | .start =>
    if env.verify (calls i).tokenJson (calls i).signatureBytes then some (.verified, s)
    else some (.done (.error .invalidSignature), s)
  | .verified =>
    match env.fromSlice (calls i).tokenJson with
    | some token => some (.parsed token, s)
    | none => some (.done (.error .malformedToken), s)
  | .parsed token =>
    if token.expiresAt < (calls i).now then some (.done (.error .tokenExpired), s) else some (.unexpired token, s)
  | .unexpired token =>
    -- one step: the write lock is held over the check and the insertion
    if token.nonce ∈ s.consumedNonces then some (.done (.error .replayAttack), s)
    else some (.applying token 0, { s with consumedNonces := insert token.nonce s.consumedNonces })
  | .applying token k =>
    match (stores token.command)[k]? with
    | some (flag, value) => some (.applying token (k + 1), { s with flags := Function.update s.flags flag value })
    | none =>
      some (.done (.ok token.command),
        { s with activationLog := s.activationLog ++ [activation env token (calls i).now] })
  | .done _ => none

variable [DecidableEq ι]

/-- All calls before their first step, on a state. -/
def begin (s : SystemEmergencyState) : Config ι SystemEmergencyState Pc := ⟨s, fun _ => .start⟩

/-- The configuration after a schedule of the calls, from the state of a new system. -/
def run (schedule : List ι) : Config ι SystemEmergencyState Pc := exec (process env calls) (begin .new) schedule

end Process

/-! ## One step -/

section Step

variable {ι : Type*} {env : BreakGlassProcessor} {calls : ι → Call} {i : ι} {pc : Pc} {s : SystemEmergencyState}
  {r : Pc × SystemEmergencyState}

/-- The call has consumed its nonce. -/
def Pc.Accepted : Pc → Prop
  | .applying _ _ | .done (.ok _) => True
  | _ => False

/-- The token a call works on is the one it was given. -/
def Pc.Knows (env : BreakGlassProcessor) (call : Call) : Pc → Prop
  | .parsed token | .unexpired token | .applying token _ => env.fromSlice call.tokenJson = some token
  | .done (.ok command) => ∃ token, env.fromSlice call.tokenJson = some token ∧ token.command = command
  | .start | .verified | .done (.error _) => True

/-- **What a step of `process` can do.** -/
inductive Processed (env : BreakGlassProcessor) (call : Call) (s : SystemEmergencyState) :
    Pc → Pc × SystemEmergencyState → Prop
  /-- A check before the nonce, or a failure. -/
  | silent (pc pc' : Pc) (hpc : ¬ pc.Accepted) (hpc' : ¬ pc'.Accepted) (hknows : pc.Knows env call → pc'.Knows env call) :
      Processed env call s pc (pc', s)
  | consume (token : BreakGlassToken) (hfresh : token.nonce ∉ s.consumedNonces) :
      Processed env call s (.unexpired token)
        (.applying token 0, { s with consumedNonces := insert token.nonce s.consumedNonces })
  | store (token : BreakGlassToken) (k : ℕ) (flag : Flag) (value : Bool)
      (hk : (stores token.command)[k]? = some (flag, value)) :
      Processed env call s (.applying token k)
        (.applying token (k + 1), { s with flags := Function.update s.flags flag value })
  | log (token : BreakGlassToken) (k : ℕ) (hk : (stores token.command)[k]? = none) :
      Processed env call s (.applying token k)
        (.done (.ok token.command), { s with activationLog := s.activationLog ++ [activation env token call.now] })

theorem process_cases (h : process env calls i pc s = some r) : Processed env (calls i) s pc r := by
  cases pc with
  | start =>
    simp only [process] at h
    split_ifs at h <;> cases h <;> exact .silent _ _ id id fun _ => trivial
  | verified =>
    simp only [process] at h
    split at h <;> cases h
    · rename_i token hparse
      exact .silent _ _ id id fun _ => hparse
    · exact .silent _ _ id id fun _ => trivial
  | parsed token =>
    simp only [process] at h
    split_ifs at h <;> cases h
    · exact .silent _ _ id id fun _ => trivial
    · exact .silent _ _ id id id
  | unexpired token =>
    simp only [process] at h
    split_ifs at h with hused <;> cases h
    · exact .silent _ _ id id fun _ => trivial
    · exact .consume token hused
  | applying token k =>
    simp only [process] at h
    split at h <;> cases h
    · rename_i flag value hk
      exact .store token k flag value hk
    · rename_i hk
      exact .log token k hk
  | done result => cases h

theorem Knows.step (hk : pc.Knows env (calls i)) (h : process env calls i pc s = some r) :
    r.1.Knows env (calls i) := by
  cases process_cases h with
  | silent _ _ _ _ hknows => exact hknows hk
  | consume token => exact hk
  | store token => exact hk
  | log token => exact ⟨token, hk, rfl⟩

theorem Accepted.step (ha : pc.Accepted) (h : process env calls i pc s = some r) : r.1.Accepted := by
  cases process_cases h with
  | silent _ _ hpc => exact absurd ha hpc
  | consume | store | log => trivial

/-- A step that does not lead to a consumed nonce changes nothing. -/
theorem shared_of_not_accepted (h : process env calls i pc s = some r) (hr : ¬ r.1.Accepted) : r.2 = s := by
  cases process_cases h with
  | silent => rfl
  | consume | store | log => exact absurd trivial hr

end Step

/-! ## Every schedule -/

section Once

variable {ι : Type*} [DecidableEq ι] (env : BreakGlassProcessor) (calls : ι → Call)

/-- The nonce of the token given to a call. -/
def nonceOf (i : ι) : Option String := (env.fromSlice (calls i).tokenJson).map (·.nonce)

/-- The log entry of the token given to a call. -/
def entryOf (i : ι) : Option BreakGlassActivation :=
  (env.fromSlice (calls i).tokenJson).map (activation env · (calls i).now)

/-- The calls that have consumed a nonce and the consumed nonces, one to one. -/
structure Matched (c : Config ι SystemEmergencyState Pc) : Prop where
  knows : ∀ i, (c.pc i).Knows env (calls i)
  consumed : ∀ i, (c.pc i).Accepted → ∃ n ∈ c.shared.consumedNonces, nonceOf env calls i = some n
  accepted : ∀ n ∈ c.shared.consumedNonces, ∃ i, (c.pc i).Accepted ∧ nonceOf env calls i = some n
  unique : ∀ i j, (c.pc i).Accepted → (c.pc j).Accepted → nonceOf env calls i = nonceOf env calls j → i = j

variable {env calls} {c : Config ι SystemEmergencyState Pc} {i : ι} {r : Pc × SystemEmergencyState}

/-- A step that changes neither the nonces nor who is accepted. -/
theorem Matched.keep (hm : Matched env calls c) (hk : r.1.Knows env (calls i))
    (hacc : r.1.Accepted ↔ (c.pc i).Accepted) (hn : r.2.consumedNonces = c.shared.consumedNonces) :
    Matched env calls (c.set i r) := by
  have hall : ∀ j, ((c.set i r).pc j).Accepted ↔ (c.pc j).Accepted := by
    intro j
    rw [Config.set_pc]
    split_ifs with hj
    · rw [hj, hacc]
    · rfl
  refine ⟨fun j => ?_, fun j hj => ?_, fun n hmem => ?_, fun j l hj hl => ?_⟩
  · rw [Config.set_pc]
    split_ifs with hj
    · exact hj ▸ hk
    · exact hm.knows j
  · rw [Config.set_shared, hn]
    exact hm.consumed j ((hall j).1 hj)
  · rw [Config.set_shared, hn] at hmem
    obtain ⟨j, hj, heq⟩ := hm.accepted n hmem
    exact ⟨j, (hall j).2 hj, heq⟩
  · exact hm.unique j l ((hall j).1 hj) ((hall l).1 hl)

/-- The nonce check. -/
theorem Matched.consume (hm : Matched env calls c) {token : BreakGlassToken} (hpc : c.pc i = .unexpired token)
    (hfresh : token.nonce ∉ c.shared.consumedNonces) :
    Matched env calls (c.set i
      (.applying token 0, { c.shared with consumedNonces := insert token.nonce c.shared.consumedNonces })) := by
  have hi : env.fromSlice (calls i).tokenJson = some token := by
    have hknows := hm.knows i
    rwa [hpc] at hknows
  have hnonce : nonceOf env calls i = some token.nonce := by simp [nonceOf, hi]
  -- no other accepted call has this nonce, it would be consumed
  have hother : ∀ j, (c.pc j).Accepted → nonceOf env calls j ≠ some token.nonce := by
    intro j hj heq
    obtain ⟨n, hmem, hn⟩ := hm.consumed j hj
    rw [heq] at hn
    cases hn
    exact hfresh hmem
  refine ⟨fun j => ?_, fun j hj => ?_, fun n hmem => ?_, fun j l hj hl heq => ?_⟩
  · rw [Config.set_pc]
    split_ifs with hji
    · exact hji ▸ hi
    · exact hm.knows j
  · rw [Config.set_pc] at hj
    split_ifs at hj with hji
    · exact ⟨token.nonce, by simp, hji ▸ hnonce⟩
    · obtain ⟨n, hmem, hn⟩ := hm.consumed j hj
      exact ⟨n, by simp [hmem], hn⟩
  · simp only [Config.set_shared, Finset.mem_insert] at hmem
    rcases hmem with rfl | hmem
    · exact ⟨i, by rw [Config.set_pc_self]; trivial, hnonce⟩
    · obtain ⟨j, hj, hn⟩ := hm.accepted n hmem
      have hji : j ≠ i := by
        rintro rfl
        rw [hpc] at hj
        exact hj
      exact ⟨j, by rwa [Config.set_pc_ne _ _ hji], hn⟩
  · rw [Config.set_pc] at hj hl
    split_ifs at hj hl with hji hli hli
    · rw [hji, hli]
    · rw [hji, hnonce] at heq
      exact absurd heq.symm (hother l hl)
    · rw [hli, hnonce] at heq
      exact absurd heq (hother j hj)
    · exact hm.unique j l hj hl heq

/-- One step. -/
theorem Matched.step (hm : Matched env calls c) (h : process env calls i (c.pc i) c.shared = some r) :
    Matched env calls (c.set i r) := by
  have hk := Knows.step (hm.knows i) h
  generalize hpc : c.pc i = pc at h
  cases process_cases h with
  | silent _ pc' hn hn' => exact hm.keep hk (by rw [hpc]; exact iff_of_false hn' hn) rfl
  | consume token hfresh => exact hm.consume hpc hfresh
  | store token => exact hm.keep hk (by rw [hpc]; exact Iff.rfl) rfl
  | log token => exact hm.keep hk (by rw [hpc]; exact Iff.rfl) rfl

theorem matched_run (env : BreakGlassProcessor) (calls : ι → Call) (schedule : List ι) :
    Matched env calls (run env calls schedule) :=
  exec_inv ⟨fun _ => trivial, fun _ h => h.elim, fun n h => by simp [begin, SystemEmergencyState.new] at h,
    fun _ _ h => h.elim⟩ (fun _ _ _ hm h => hm.step h) schedule

/-- The log has one entry for each call of a list, and the list is that of the calls that returned. -/
def Logged (env : BreakGlassProcessor) (calls : ι → Call) (c : Config ι SystemEmergencyState Pc) : Prop :=
  ∃ order : List ι, order.Nodup ∧ (∀ i, i ∈ order ↔ ∃ command, c.pc i = .done (.ok command)) ∧
    c.shared.activationLog.map some = order.map (entryOf env calls)

/-- A step that changes neither the log nor who has returned. -/
theorem Logged.keep (hl : Logged env calls c) (hlog : r.2.activationLog = c.shared.activationLog)
    (hpc : ∀ command, c.pc i ≠ .done (.ok command)) (hr : ∀ command, r.1 ≠ .done (.ok command)) :
    Logged env calls (c.set i r) := by
  obtain ⟨order, hnodup, hdone, hentries⟩ := hl
  refine ⟨order, hnodup, fun j => ?_, by rwa [Config.set_shared, hlog]⟩
  rw [hdone, Config.set_pc]
  split_ifs with hj
  · subst hj
    exact iff_of_false (fun ⟨command, h⟩ => hpc command h) fun ⟨command, h⟩ => hr command h
  · rfl

theorem Logged.step (hm : Matched env calls c) (hl : Logged env calls c)
    (h : process env calls i (c.pc i) c.shared = some r) : Logged env calls (c.set i r) := by
  have hknows := hm.knows i
  generalize hpc : c.pc i = pc at h hknows
  cases process_cases h with
  | silent _ pc' hn hn' =>
    refine hl.keep rfl (fun command hc => ?_) fun command hc => ?_
    · rw [hpc] at hc
      rw [hc] at hn
      exact hn trivial
    · simp only at hc
      rw [hc] at hn'
      exact hn' trivial
  | consume token => exact hl.keep rfl (by simp [hpc]) (by simp)
  | store token => exact hl.keep rfl (by simp [hpc]) (by simp)
  | log token =>
    obtain ⟨order, hnodup, hdone, hentries⟩ := hl
    have hnew : i ∉ order := fun hmem => by
      obtain ⟨command, hc⟩ := (hdone i).1 hmem
      rw [hpc] at hc
      cases hc
    have hentry : entryOf env calls i = some (activation env token (calls i).now) := by
      have hparse : env.fromSlice (calls i).tokenJson = some token := hknows
      simp [entryOf, hparse]
    refine ⟨order ++ [i], ?_, fun j => ?_, ?_⟩
    · exact List.nodup_append.2 ⟨hnodup, by simp, fun a ha b hb => by
        rw [List.mem_singleton] at hb
        rintro rfl
        exact hnew (hb ▸ ha)⟩
    · rw [Config.set_pc]
      split_ifs with hj
      · simp [hj]
      · simp [hj, hdone]
    · simp [hentries, hentry]

theorem logged_run (env : BreakGlassProcessor) (calls : ι → Call) (schedule : List ι) :
    Logged env calls (run env calls schedule) := by
  refine (exec_inv (P := fun c => Matched env calls c ∧ Logged env calls c) ⟨matched_run env calls [], ?_⟩
    (fun c i r h hs => ⟨h.1.step hs, h.2.step h.1 hs⟩) schedule).2
  exact ⟨[], by simp, fun i => by simp [run, begin], rfl⟩

/-- The steps of a call that ends in an error change nothing. -/
theorem shared_of_error (env : BreakGlassProcessor) (calls : ι → Call) {pre post : List ι} {e : BreakGlassError}
    (he : (run env calls (pre ++ i :: post)).pc i = .done (.error e)) :
    (run env calls (pre ++ [i])).shared = (run env calls pre).shared := by
  have hrun : run env calls (pre ++ i :: post) = exec (process env calls) (run env calls (pre ++ [i])) post := by
    rw [run, run, ← exec_append, List.append_assoc]
    rfl
  have hnot : ¬ ((run env calls (pre ++ [i])).pc i).Accepted := by
    intro ha
    have hstable : ((exec (process env calls) (run env calls (pre ++ [i])) post).pc i).Accepted :=
      pc_stable (fun _ _ _ hk h => Accepted.step hk h) ha post
    rw [← hrun, he] at hstable
    exact hstable
  rw [run, exec_concat] at hnot ⊢
  cases hn : process env calls i ((run env calls pre).pc i) (run env calls pre).shared with
  | none =>
    rw [run] at hn
    rw [step_of_none hn, run]
  | some r =>
    rw [run] at hn
    rw [step_of_some hn] at hnot ⊢
    rw [Config.set_pc_self] at hnot
    exact shared_of_not_accepted hn hnot

/-- **At most once.** For any calls and any schedule of their steps: the accepted calls and the consumed nonces
correspond one to one; the log has exactly one entry for each call that returned a command; and no step of a call that
returns an error has changed the flags, the log or the nonces. -/
theorem tokens_once (env : BreakGlassProcessor) (calls : ι → Call) (schedule : List ι) :
    ((∀ i, ((run env calls schedule).pc i).Accepted →
        ∃ n ∈ (run env calls schedule).shared.consumedNonces, nonceOf env calls i = some n) ∧
      ∀ n ∈ (run env calls schedule).shared.consumedNonces,
        ∃! i, ((run env calls schedule).pc i).Accepted ∧ nonceOf env calls i = some n) ∧
    Logged env calls (run env calls schedule) ∧
    ∀ pre i post e, schedule = pre ++ i :: post → (run env calls schedule).pc i = .done (.error e) →
      (run env calls (pre ++ [i])).shared = (run env calls pre).shared := by
  have hm := matched_run env calls schedule
  refine ⟨⟨hm.consumed, fun n hn => ?_⟩, logged_run env calls schedule, ?_⟩
  · obtain ⟨i, hi, heq⟩ := hm.accepted n hn
    exact ⟨i, ⟨hi, heq⟩, fun j ⟨hj, hjn⟩ => hm.unique j i hj hi (hjn.trans heq.symm)⟩
  · rintro pre i post e rfl he
    exact shared_of_error env calls he

end Once

end ThorFirewall.BreakGlass
