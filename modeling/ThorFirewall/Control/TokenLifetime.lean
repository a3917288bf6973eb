import Mathlib
import ThorFirewall.Control.BreakGlass

/-!
# The lifetime of a break-glass token (`break_glass.rs`)

A token names the time it was issued and the time it expires; `process` compares only the second with its clock. This is
about one call of `process`, from any emergency state, run to its end.

- `returns_ok_iff`: the tokens that are accepted;
- `short_lived_iff`: when acceptance implies what the token format promises, that the token was issued before, has not
  expired and is valid for ten minutes at most.
-/

namespace ThorFirewall.BreakGlass

open Interleaving

variable {env : BreakGlassProcessor} {call : Call} {s : SystemEmergencyState}

/-! ## A call run to its end -/

/-- The call alone, after this many of its steps. -/
def stepsOf (env : BreakGlassProcessor) (call : Call) (s : SystemEmergencyState) (n : ℕ) :
    Config Unit SystemEmergencyState Pc :=
  exec (process env fun _ => call) (begin s) (List.replicate n ())

/-- What the call returns. -/
def Returns (env : BreakGlassProcessor) (call : Call) (s : SystemEmergencyState)
    (result : Except BreakGlassError BreakGlassCommand) : Prop :=
  ∃ n, (stepsOf env call s n).pc () = .done result

theorem stepsOf_succ (env : BreakGlassProcessor) (call : Call) (s : SystemEmergencyState) (n : ℕ) :
    stepsOf env call s (n + 1) = step (process env fun _ => call) (stepsOf env call s n) () := by
  rw [stepsOf, List.replicate_succ', exec_concat, ← stepsOf]

/-- The token is signed, can be read, has not expired and was not used before. -/
structure Accepts (env : BreakGlassProcessor) (call : Call) (s : SystemEmergencyState) (token : BreakGlassToken) :
    Prop where
  signed : env.verify call.tokenJson call.signatureBytes = true
  read : env.fromSlice call.tokenJson = some token
  unexpired : call.now ≤ token.expiresAt
  fresh : token.nonce ∉ s.consumedNonces

/-- What a call that stands here has checked. The state it found is the one it started from. -/
def HasChecked (env : BreakGlassProcessor) (call : Call) (s : SystemEmergencyState)
    (c : Config Unit SystemEmergencyState Pc) : Prop :=
  match c.pc () with
  | .start => c.shared = s
  | .verified => c.shared = s ∧ env.verify call.tokenJson call.signatureBytes = true
  | .parsed token =>
    c.shared = s ∧ env.verify call.tokenJson call.signatureBytes = true ∧ env.fromSlice call.tokenJson = some token
  | .unexpired token =>
    c.shared = s ∧ env.verify call.tokenJson call.signatureBytes = true ∧
      env.fromSlice call.tokenJson = some token ∧ call.now ≤ token.expiresAt
  | .applying token _ => Accepts env call s token
  | .done (.ok _) => ∃ token, Accepts env call s token
  | .done (.error _) => ∀ token, ¬ Accepts env call s token

theorem HasChecked.step {c : Config Unit SystemEmergencyState Pc} (h : HasChecked env call s c)
    {r : Pc × SystemEmergencyState} (hr : process env (fun _ => call) () (c.pc ()) c.shared = some r) :
    HasChecked env call s (c.set () r) := by
  unfold HasChecked at h ⊢
  rw [Config.set_pc_self, Config.set_shared]
  generalize c.pc () = pc at h hr
  cases pc with
  | start =>
    simp only [process] at hr
    split_ifs at hr with hv <;> cases hr
    · exact ⟨h, hv⟩
    · exact fun token ha => hv ha.signed
  | verified =>
    simp only [process] at hr
    split at hr <;> cases hr
    · rename_i token hread
      exact ⟨h.1, h.2, hread⟩
    · rename_i hread
      exact fun token ha => by rw [ha.read] at hread; cases hread
  | parsed token =>
    simp only [process] at hr
    split_ifs at hr with hlate <;> cases hr
    · intro token' ha
      rw [ha.read] at h
      obtain ⟨-, -, heq⟩ := h
      cases heq
      exact UInt64.not_le.2 hlate ha.unexpired
    · exact ⟨h.1, h.2.1, h.2.2, UInt64.not_lt.1 hlate⟩
  | unexpired token =>
    obtain ⟨rfl, hv, hread, hle⟩ := h
    simp only [process] at hr
    split_ifs at hr with hused <;> cases hr
    · intro token' ha
      rw [ha.read] at hread
      cases hread
      exact ha.fresh hused
    · exact ⟨hv, hread, hle, hused⟩
  | applying token k =>
    simp only [process] at hr
    split at hr <;> cases hr
    · exact h
    · exact ⟨token, h⟩
  | done result => cases hr

theorem hasChecked_stepsOf (env : BreakGlassProcessor) (call : Call) (s : SystemEmergencyState) (n : ℕ) :
    HasChecked env call s (stepsOf env call s n) := by
  have hbegin : HasChecked env call s (begin s) := by simp only [HasChecked, begin]
  exact exec_inv hbegin (fun _ _ _ h hr => HasChecked.step h hr) _

/-! ## The accepted tokens -/

theorem stepsOf_next (n : ℕ) {r : Pc × SystemEmergencyState}
    (h : process env (fun _ => call) () ((stepsOf env call s n).pc ()) (stepsOf env call s n).shared = some r) :
    (stepsOf env call s (n + 1)).pc () = r.1 ∧ (stepsOf env call s (n + 1)).shared = r.2 := by
  rw [stepsOf_succ, step_of_some h]
  exact ⟨Config.set_pc_self _ _ _, rfl⟩

/-- An accepted token is applied, store by store. -/
theorem applying_of_accepts {token : BreakGlassToken} (ha : Accepts env call s token) {k : ℕ}
    (hk : k ≤ (stores token.command).length) : (stepsOf env call s (4 + k)).pc () = .applying token k := by
  induction k with
  | zero =>
    have hstart : (stepsOf env call s 0).pc () = .start ∧ (stepsOf env call s 0).shared = s := ⟨rfl, rfl⟩
    have hverified := stepsOf_next 0 (r := (.verified, s)) (by
      rw [hstart.1, hstart.2]
      simp [process, ha.signed])
    have hparsed := stepsOf_next 1 (r := (.parsed token, s)) (by
      rw [hverified.1, hverified.2]
      simp [process, ha.read])
    have hunexpired := stepsOf_next 2 (r := (.unexpired token, s)) (by
      rw [hparsed.1, hparsed.2]
      simp [process, UInt64.not_lt.2 ha.unexpired])
    exact (stepsOf_next 3 (by
      rw [hunexpired.1, hunexpired.2]
      simp only [process, if_neg ha.fresh]
      rfl)).1
  | succ k ih =>
    have hget := List.getElem?_eq_getElem (Nat.lt_of_succ_le hk)
    exact (stepsOf_next (4 + k) (by
      rw [ih (Nat.le_of_succ_le hk)]
      simp only [process, hget]
      rfl)).1

/-- **Which tokens are accepted.** -/
theorem returns_ok_iff : (∃ command, Returns env call s (.ok command)) ↔ ∃ token, Accepts env call s token := by
  constructor
  · rintro ⟨command, n, hn⟩
    have hchecked := hasChecked_stepsOf env call s n
    rwa [HasChecked, hn] at hchecked
  · rintro ⟨token, ha⟩
    have happlied := applying_of_accepts ha le_rfl
    have hget : (stores token.command)[(stores token.command).length]? = none := List.getElem?_eq_none le_rfl
    exact ⟨token.command, _, (stepsOf_next _ (by
      rw [happlied]
      simp only [process, hget]
      rfl)).1⟩

/-! ## The lifetime -/

/-- The token was issued before this time, has not expired, and is valid for ten minutes at most. -/
def ShortLived (token : BreakGlassToken) (now : UInt64) : Prop :=
  token.issuedAt ≤ now ∧ now ≤ token.expiresAt ∧ (token.expiresAt.toNat : ℤ) - token.issuedAt.toNat ≤ 600

instance (token : BreakGlassToken) (now : UInt64) : Decidable (ShortLived token now) :=
  inferInstanceAs (Decidable (_ ∧ _ ∧ _))

/-- **When an accepted token is short-lived.** A signed token that can be read is short-lived whenever it is accepted,
exactly if it is rejected for its expiry or its nonce, or the signer has issued it before the clock's time and for ten
minutes at most: the code looks at neither. -/
theorem short_lived_iff (env : BreakGlassProcessor) (call : Call) (s : SystemEmergencyState) (token : BreakGlassToken)
    (hsigned : env.verify call.tokenJson call.signatureBytes = true)
    (hread : env.fromSlice call.tokenJson = some token) :
    ((∃ command, Returns env call s (.ok command)) → ShortLived token call.now) ↔
      (call.now ≤ token.expiresAt → token.nonce ∉ s.consumedNonces →
        token.issuedAt ≤ call.now ∧ token.expiresAt.toNat ≤ token.issuedAt.toNat + 600) := by
  rw [returns_ok_iff]
  constructor
  · intro h hle hfresh
    obtain ⟨hissued, -, hwindow⟩ := h ⟨token, hsigned, hread, hle, hfresh⟩
    exact ⟨hissued, by omega⟩
  · rintro h ⟨token', ha⟩
    obtain rfl : token = token' := Option.some.inj (hread.symm.trans ha.read)
    obtain ⟨hissued, hwindow⟩ := h ha.unexpired ha.fresh
    exact ⟨hissued, ha.unexpired, by omega⟩

/-- The token of the documentation with these times, and its text. -/
def tokenFor (issuedAt expiresAt : UInt64) : BreakGlassToken :=
  { issuedAt, expiresAt, issuedBy := "CISO_ALICE", command := .fullLockdown, targetScope := "global",
    reason := "Suspected Control Plane compromise", nonce := "9f86d081884c7d659a2feaa0c55ad015" }

def textFor (issuedAt expiresAt : UInt64) : List UInt8 :=
  ("\x7b\"issued_at\":" ++ toString issuedAt ++ ",\"expires_at\":" ++ toString expiresAt ++
    ",\"issued_by\":\"CISO_ALICE\",\"command\":\"FULL_LOCKDOWN\",\"target_scope\":\"global\"," ++
    "\"reason\":\"Suspected Control Plane compromise\"," ++
    "\"nonce\":\"9f86d081884c7d659a2feaa0c55ad015\"\x7d").toUTF8.toList

/-- A processor for the one token that the officer has signed. -/
def processorFor (issuedAt expiresAt : UInt64) : BreakGlassProcessor where
  verify json sig := json = textFor issuedAt expiresAt ∧ sig = Vector.replicate 64 0
  fromSlice json := if json = textFor issuedAt expiresAt then some (tokenFor issuedAt expiresAt) else none
  printable _ := true

def callAt (issuedAt expiresAt now : UInt64) : Call := ⟨textFor issuedAt expiresAt, Vector.replicate 64 0, now⟩

theorem signed_for (issuedAt expiresAt : UInt64) :
    (processorFor issuedAt expiresAt).verify (textFor issuedAt expiresAt) (Vector.replicate 64 0) = true :=
  decide_eq_true ⟨rfl, rfl⟩

theorem read_for (issuedAt expiresAt : UInt64) :
    (processorFor issuedAt expiresAt).fromSlice (textFor issuedAt expiresAt) = some (tokenFor issuedAt expiresAt) :=
  if_pos rfl

/-- The token of the documentation, at the time it was issued. -/
theorem short_lived_documented : (processorFor 1734567890 1734568490).verify (textFor 1734567890 1734568490)
    (Vector.replicate 64 0) ∧ ShortLived (tokenFor 1734567890 1734568490) 1734567890 := by
  refine ⟨signed_for .., (short_lived_iff (processorFor 1734567890 1734568490)
    (callAt 1734567890 1734568490 1734567890) .new _ (signed_for ..) (read_for ..)).2 (fun _ _ => ⟨?_, ?_⟩) ?_⟩
  · decide
  · decide
  · exact returns_ok_iff.2 ⟨_, signed_for .., read_for .., by decide, by decide⟩

/-- A token that is issued tomorrow and never expires is accepted today. -/
theorem long_lived_accepted : ¬ ∀ (env : BreakGlassProcessor) (call : Call) (s : SystemEmergencyState)
    (token : BreakGlassToken), env.verify call.tokenJson call.signatureBytes = true →
    env.fromSlice call.tokenJson = some token → (∃ command, Returns env call s (.ok command)) →
    ShortLived token call.now := by
  intro h
  have hshort := h (processorFor 1734654290 18446744073709551615)
    (callAt 1734654290 18446744073709551615 1734567890) .new _ (signed_for ..) (read_for ..)
    (returns_ok_iff.2 ⟨_, signed_for .., read_for .., by decide, by decide⟩)
  exact absurd hshort (by decide)

end ThorFirewall.BreakGlass
