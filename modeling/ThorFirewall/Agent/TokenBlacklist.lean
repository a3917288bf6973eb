import Mathlib.Data.Finset.Insert
import ThorFirewall.Lib.Interleaving
import ThorFirewall.Lib.Mealy

/-!
# The token blacklist (`db/token_blacklist.rs`)

Revoked tokens are rows of a database table, and the ids of those that have not expired are mirrored in a cache, which is
all that a request is checked against. `revoke` inserts the row and then the cache entry; every five minutes
`sync_from_db` fetches the rows, clears the cache and inserts what it fetched, row by row. Nothing orders these steps: a
check can come between any two of them.

- `revokedStay_step_iff`: a step keeps every revocation that has returned unless it clears the cache while one of them
  has not expired;
- `revokedStay_iff`: so does a run.
-/

namespace ThorFirewall.Agent

open Interleaving

/-! ## The table and the cache -/

/-- A row of `token_blacklist`. -/
structure TokenRow where
  jti : String
  expiresAt : ℕ
  deriving DecidableEq

/-- The cache and the table, with the time of `NOW()`. -/
structure TokenBlacklist where
  cache : Finset String
  db : List TokenRow
  now : ℕ

namespace TokenBlacklist

def isRevoked (bl : TokenBlacklist) (jti : String) : Bool := decide (jti ∈ bl.cache)

/-- `INSERT .. ON CONFLICT (jti) DO NOTHING`. -/
def insertRow (bl : TokenBlacklist) (jti : String) (expiresAt : ℕ) : TokenBlacklist :=
  if bl.db.any (·.jti = jti) then bl else { bl with db := bl.db ++ [⟨jti, expiresAt⟩] }

/-- `SELECT jti .. WHERE expires_at > NOW()`. -/
def fetchAll (bl : TokenBlacklist) : List String := (bl.db.filter (bl.now < ·.expiresAt)).map (·.jti)

def cacheInsert (bl : TokenBlacklist) (jti : String) : TokenBlacklist := { bl with cache := insert jti bl.cache }

def cacheClear (bl : TokenBlacklist) : TokenBlacklist := { bl with cache := ∅ }

/-- `DELETE .. WHERE expires_at < NOW()`. -/
def purgeExpired (bl : TokenBlacklist) : TokenBlacklist := { bl with db := bl.db.filter (bl.now ≤ ·.expiresAt) }

def tick (bl : TokenBlacklist) : TokenBlacklist := { bl with now := bl.now + 1 }

@[simp] theorem insertRow_cache (bl : TokenBlacklist) (jti : String) (e : ℕ) : (bl.insertRow jti e).cache = bl.cache := by
  unfold insertRow
  split_ifs <;> rfl

@[simp] theorem insertRow_now (bl : TokenBlacklist) (jti : String) (e : ℕ) : (bl.insertRow jti e).now = bl.now := by
  unfold insertRow
  split_ifs <;> rfl

/-! ## Calls -/

/-- What runs beside what: revocations, syncs and purges, and the clock. -/
inductive Call
  | revoke (jti : String) (expiresAt : ℕ)
  | syncFromDb
  | purgeExpired
  | clock

/-- Where a call stands. A call whose query fails does not move again. -/
inductive Pc
  | insertRow (jti : String) (expiresAt : ℕ)
  | cacheInsert (jti : String) (expiresAt : ℕ)
  /-- `revoke` has returned `Ok(())`. -/
  | revoked (jti : String) (expiresAt : ℕ)
  | fetchAll
  | cacheClear (rows : List String)
  | cacheInsertAll (rows : List String)
  | purge
  | clock
  | done
  deriving DecidableEq

def Call.start : Call → Pc
  | .revoke jti expiresAt => .insertRow jti expiresAt
  | .syncFromDb => .fetchAll
  | .purgeExpired => .purge
  | .clock => .clock

def next (_ : ℕ) : Pc → TokenBlacklist → Option (Pc × TokenBlacklist)
  | .insertRow jti expiresAt, bl => some (.cacheInsert jti expiresAt, bl.insertRow jti expiresAt)
  | .cacheInsert jti expiresAt, bl => some (.revoked jti expiresAt, bl.cacheInsert jti)
  | .fetchAll, bl => some (.cacheClear bl.fetchAll, bl)
  | .cacheClear rows, bl => some (.cacheInsertAll rows, bl.cacheClear)
  | .cacheInsertAll (jti :: rows), bl => some (.cacheInsertAll rows, bl.cacheInsert jti)
  | .cacheInsertAll [], bl => some (.done, bl)
  | .purge, bl => some (.done, bl.purgeExpired)
  | .clock, bl => some (.clock, bl.tick)
  | .revoked _ _, _ => none
  | .done, _ => none

def init (bl : TokenBlacklist) (calls : ℕ → Call) : Config ℕ TokenBlacklist Pc := ⟨bl, fun i => (calls i).start⟩

/-! ## Revocations stay -/

/-- A token whose revocation has returned is revoked until it expires. -/
def RevokedStay (c : Config ℕ TokenBlacklist Pc) : Prop :=
  ∀ i jti expiresAt, c.pc i = .revoked jti expiresAt → c.shared.now < expiresAt → c.shared.isRevoked jti = true

/-- Call `i` does not clear the cache next, or every token whose revocation has returned has expired. -/
def ClearsExpired (c : Config ℕ TokenBlacklist Pc) (i : ℕ) : Prop :=
  ∀ rows, c.pc i = .cacheClear rows → ∀ j jti expiresAt, c.pc j = .revoked jti expiresAt → expiresAt ≤ c.shared.now

variable {c : Config ℕ TokenBlacklist Pc} {i : ℕ} {r : Pc × TokenBlacklist}

/-- What a step does that does not clear the cache: entries and time only grow, and a revocation that returns is cached. -/
theorem next_cases (h : next i (c.pc i) c.shared = some r) (hclear : ∀ rows, c.pc i ≠ .cacheClear rows) :
    c.shared.cache ⊆ r.2.cache ∧ c.shared.now ≤ r.2.now ∧ ∀ jti e, r.1 = .revoked jti e → jti ∈ r.2.cache := by
  cases hpc : c.pc i with
  | insertRow jti e =>
    rw [hpc] at h
    cases h
    exact ⟨by simp, by simp, by simp⟩
  | cacheInsert jti e =>
    rw [hpc] at h
    cases h
    refine ⟨Finset.subset_insert _ _, Nat.le_refl _, fun jti' e' heq => ?_⟩
    cases heq
    exact Finset.mem_insert_self _ _
  | fetchAll =>
    rw [hpc] at h
    cases h
    exact ⟨Finset.Subset.refl _, Nat.le_refl _, by simp⟩
  | cacheClear rows => exact absurd hpc (hclear rows)
  | cacheInsertAll rows =>
    rw [hpc] at h
    cases rows with
    | nil =>
      cases h
      exact ⟨Finset.Subset.refl _, Nat.le_refl _, by simp⟩
    | cons jti rows =>
      cases h
      exact ⟨Finset.subset_insert _ _, Nat.le_refl _, by simp⟩
  | purge =>
    rw [hpc] at h
    cases h
    exact ⟨Finset.Subset.refl _, Nat.le_refl _, by simp⟩
  | clock =>
    rw [hpc] at h
    cases h
    exact ⟨Finset.Subset.refl _, Nat.le_succ _, by simp⟩
  | revoked jti e =>
    rw [hpc] at h
    cases h
  | done =>
    rw [hpc] at h
    cases h

theorem revokedStay_init (bl : TokenBlacklist) (calls : ℕ → Call) : RevokedStay (init bl calls) := by
  intro i jti e h
  simp only [init] at h
  cases hc : calls i <;> simp [hc, Call.start] at h

/-- A cleared cache revokes nothing. -/
theorem revokedStay_clear_iff {rows : List String} (hpc : c.pc i = .cacheClear rows) :
    RevokedStay (Interleaving.step next c i) ↔
      ∀ j jti e, c.pc j = .revoked jti e → e ≤ c.shared.now := by
  have hstep : Interleaving.step next c i = c.set i (.cacheInsertAll rows, c.shared.cacheClear) :=
    step_of_some (by rw [hpc]; rfl)
  have hj : ∀ j jti e, (c.set i (Pc.cacheInsertAll rows, c.shared.cacheClear)).pc j = .revoked jti e ↔
      c.pc j = .revoked jti e := by
    intro j jti e
    rw [Config.set_pc]
    split_ifs with hij
    · rw [hij, hpc]
      simp
    · rfl
  rw [hstep]
  constructor
  · intro h j jti e hrevoked
    by_contra hlate
    have := h j jti e ((hj j jti e).2 hrevoked) (Nat.lt_of_not_le hlate)
    simp [isRevoked, cacheClear] at this
  · intro h j jti e hrevoked hlive
    have hle := h j jti e ((hj j jti e).1 hrevoked)
    have hlt : c.shared.now < e := hlive
    omega

theorem revokedStay_step_iff (h : RevokedStay c) : RevokedStay (Interleaving.step next c i) ↔ ClearsExpired c i := by
  by_cases hclear : ∃ rows, c.pc i = .cacheClear rows
  · obtain ⟨rows, hrows⟩ := hclear
    rw [revokedStay_clear_iff hrows]
    exact ⟨fun hall _ _ => hall, fun hall => hall rows hrows⟩
  · have hne : ∀ rows, c.pc i ≠ .cacheClear rows := fun rows hrows => hclear ⟨rows, hrows⟩
    refine iff_of_true ?_ fun rows hrows => absurd hrows (hne rows)
    cases hn : next i (c.pc i) c.shared with
    | none => rwa [step_of_none hn]
    | some r =>
      obtain ⟨hcache, hnow, hreturned⟩ := next_cases hn hne
      rw [step_of_some hn]
      intro j jti e hrevoked hlive
      rw [Config.set_pc] at hrevoked
      split_ifs at hrevoked with hij
      · exact decide_eq_true (hreturned jti e hrevoked)
      · have hbefore := of_decide_eq_true (h j jti e hrevoked (Nat.lt_of_le_of_lt hnow hlive))
        exact decide_eq_true (hcache hbefore)

/-- **Revoked tokens.** In every interleaving, a token whose revocation has returned is revoked at every later moment
before its expiry exactly if whenever a sync clears the cache, every such token has expired. -/
theorem revokedStay_iff (bl : TokenBlacklist) (calls : ℕ → Call) (schedule : List ℕ) :
    (∀ p, p <+: schedule → RevokedStay (exec next (init bl calls) p)) ↔
      ∀ p i, p ++ [i] <+: schedule → ClearsExpired (exec next (init bl calls) p) i := by
  refine List.forall_prefix_iff (revokedStay_init bl calls) (fun p i hp => ?_) schedule
  rw [exec_concat]
  exact revokedStay_step_iff hp

/-- The sync fetched its rows before the revocation and clears the cache after it: the token is accepted again, until the
next sync. -/
theorem revocation_lost : ¬ ∀ (bl : TokenBlacklist) (calls : ℕ → Call) (schedule p : List ℕ), p <+: schedule →
    RevokedStay (exec next (init bl calls) p) := by
  intro h
  have hlost := h ⟨∅, [], 0⟩ (fun i => if i = 0 then .syncFromDb else .revoke "t" 3600) [0, 1, 1, 0, 0] [0, 1, 1, 0, 0]
    List.prefix_rfl 1 "t" 3600 (by decide +kernel) (by decide +kernel)
  exact absurd hlost (by decide +kernel)

end TokenBlacklist

end ThorFirewall.Agent
