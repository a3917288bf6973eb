import Mathlib
import ThorFirewall.Lib.HashChain
import ThorFirewall.Lib.Interleaving
import ThorFirewall.Lib.Sha256
import ThorFirewall.Lib.SortedMap
import ThorFirewall.Lib.Wire

/-!
# The agent's audit log (`audit/mod.rs`)

`log` stores one entry per audited action under a generated id, with a digest of the entry and of the digest before it.
`verify_chain` walks the entries in the order of their ids and checks every digest; `open` takes up the chain at the last
id. Calls of `log` run at the same time. Each draws its id first, and takes the lock on the last digest after that.

- `raw`: the text that is hashed, and what of it determines the fields (`AuditEntry.raw_inj`, `AuditEntry.raw_eq_iff`);
- `verifyChain_iff`: `verify_chain` checks a hash chain from `GENESIS` over the values in the order of their keys;
- `next`, `next_cases`: the steps of a call, and of reopening the database between calls.
-/

namespace ThorFirewall.Audit

open Interleaving HashChain Std

/-! ## Entries -/

inductive AuditAction
  | login
  | loginFailed
  | logout
  | alertAcknowledged
  | alertExported
  | ruleInjected
  | ruleApproved
  | ruleRejected
  | ipBlocked
  | ipUnblocked
  | iocAdded
  | iocRemoved
  | agentIsolated
  | agentRestored
  | configChanged
  | forensicsExported
  | apiAccess
  deriving DecidableEq, Repr

def AuditAction.debug : AuditAction → String
  | login => "Login"
  | loginFailed => "LoginFailed"
  | logout => "Logout"
  | alertAcknowledged => "AlertAcknowledged"
  | alertExported => "AlertExported"
  | ruleInjected => "RuleInjected"
  | ruleApproved => "RuleApproved"
  | ruleRejected => "RuleRejected"
  | ipBlocked => "IpBlocked"
  | ipUnblocked => "IpUnblocked"
  | iocAdded => "IocAdded"
  | iocRemoved => "IocRemoved"
  | agentIsolated => "AgentIsolated"
  | agentRestored => "AgentRestored"
  | configChanged => "ConfigChanged"
  | forensicsExported => "ForensicsExported"
  | apiAccess => "ApiAccess"

inductive AuditResult
  | success
  | failure
  | denied
  deriving DecidableEq, Repr

def AuditResult.debug : AuditResult → String
  | success => "Success"
  | failure => "Failure"
  | denied => "Denied"

/-- `{:?}` of an action and of a result. -/
instance : ToString AuditAction := ⟨AuditAction.debug⟩
instance : ToString AuditResult := ⟨AuditResult.debug⟩

structure AuditEntry where
  id : UInt64
  timestampUtc : String
  user : String
  role : String
  action : AuditAction
  target : String
  result : AuditResult
  sourceIp : String
  detail : String
  chainHash : String
  deriving DecidableEq, Repr

/-- The text that is hashed, in `log` and in `verify_chain`. -/
def raw (id : UInt64) (timestamp user : String) (action : AuditAction) (target : String) (result : AuditResult)
    (sourceIp detail prev : String) : String :=
  s!"{id}|{timestamp}|{user}|{action}|{target}|{result}|{sourceIp}|{detail}|{prev}"

def AuditEntry.raw (e : AuditEntry) (prev : String) : String :=
  Audit.raw e.id e.timestampUtc e.user e.action e.target e.result e.sourceIp e.detail prev

/-- The part of the text between the id and the previous hash. -/
def AuditEntry.covered (e : AuditEntry) : String :=
  s!"{e.timestampUtc}|{e.user}|{e.action}|{e.target}|{e.result}|{e.sourceIp}|{e.detail}"

theorem AuditEntry.toList_raw (e : AuditEntry) (prev : String) :
    (e.raw prev).toList = (toString e.id).toList ++ '|' :: (e.covered.toList ++ '|' :: prev.toList) := by
  have hbar : (toString "|").toList = ['|'] := rfl
  have hprev : toString prev = prev := rfl
  delta AuditEntry.raw Audit.raw AuditEntry.covered
  simp only [String.toList_append, List.append_assoc, hbar, hprev, List.cons_append, List.nil_append]

/-- The id is the text before the first bar. -/
theorem AuditEntry.raw_inj {e e' : AuditEntry} {p p' : String} : e.raw p = e'.raw p' ↔
    e.id = e'.id ∧ e.covered.toList ++ '|' :: p.toList = e'.covered.toList ++ '|' :: p'.toList := by
  rw [← String.toList_inj, toList_raw, toList_raw,
    Wire.append_cons_inj (Wire.notMem_toString rfl _) (Wire.notMem_toString rfl _), String.toList_inj]
  exact and_congr_left fun _ => ⟨Wire.toString_inj, fun h => by rw [h]⟩

theorem AuditEntry.raw_prev_inj {e : AuditEntry} {p p' : String} (h : e.raw p = e.raw p') : p = p' := by
  have h := (raw_inj.1 h).2
  rw [List.append_cancel_left_eq, List.cons.injEq] at h
  exact String.toList_inj.1 h.2

/-- After the same hash, entries of one id have the same text exactly if what is between the two is the same. -/
theorem AuditEntry.raw_eq_iff {e e' : AuditEntry} (hid : e.id = e'.id) (p : String) :
    e.raw p = e'.raw p ↔ e.covered = e'.covered := by
  rw [raw_inj, List.append_cancel_right_eq, String.toList_inj]
  exact and_iff_right hid

/-! ## The database -/

/-- The database by key; a key is the big-endian id, so that the order of the keys is that of the ids. A value is given
by what `serde_json::from_slice` makes of it: `none` if it does not parse. -/
abbrev Db := TreeMap UInt64 (Option AuditEntry)

/-- The values in the order of their keys. -/
def stored (db : Db) : List (Option AuditEntry) := db.toList.map (·.2)

def genesis : String := "GENESIS"

/-- `open`: the hash to go on from, or `none` if it panics. With info logging on, the first eight bytes of the hash are
printed. -/
def openDb (infoEnabled : Bool) (db : Db) : Option String :=
  let prevHash := (((stored db).getLast?.bind id).map (·.chainHash)).getD genesis
  if infoEnabled && !String.Pos.Raw.isValid prevHash ⟨8⟩ then none else some prevHash

section Verify

variable (digest : String → String)

def verifyFrom : String → List (Option AuditEntry) → Bool
  | _, [] => true
  | _, none :: _ => false
  | prev, some entry :: rest =>
    let expected := digest (entry.raw prev)
    if expected ≠ entry.chainHash then false else verifyFrom entry.chainHash rest

def verifyChain (db : Db) : Bool := verifyFrom digest genesis (stored db)

/-- A stored value that passes the check after `prev`. -/
def Passes (prev : String) (v : Option AuditEntry) : Prop := ∃ e, v = some e ∧ digest (e.raw prev) = e.chainHash

/-- The hash a stored value is followed by. -/
def carried (v : Option AuditEntry) : String := (v.map (·.chainHash)).getD genesis

theorem verifyFrom_iff (prev : String) (vs : List (Option AuditEntry)) :
    verifyFrom digest prev vs = true ↔ Chain (Passes digest) carried prev vs := by
  induction vs generalizing prev with
  | nil => simp [verifyFrom]
  | cons v vs ih =>
    cases v with
    | none => simp [verifyFrom, Passes]
    | some e =>
      rw [chain_cons, verifyFrom]
      by_cases he : digest (e.raw prev) = e.chainHash
      · simp [he, ih, Passes, carried]
      · simp [he, Passes]

theorem verifyChain_iff (db : Db) :
    verifyChain digest db = true ↔ Chain (Passes digest) carried genesis (stored db) :=
  verifyFrom_iff digest genesis (stored db)

end Verify

/-- `p` starts a chain, or is the hash of a stored entry. -/
def Root (db : Db) (p : String) : Prop := p = genesis ∨ ∃ e, some e ∈ stored db ∧ p = e.chainHash

theorem Root.mono {db db' : Db} {p : String} (hp : Root db p) (h : stored db ⊆ stored db') : Root db' p := by
  rcases hp with hp | ⟨e, he, hp⟩
  · exact Or.inl hp
  · exact Or.inr ⟨e, h he, hp⟩

/-- `open` goes on from the hash of the last key. -/
theorem openDb_eq {infoEnabled : Bool} {db : Db} {prevHash : String} (h : openDb infoEnabled db = some prevHash) :
    prevHash = lastHash carried genesis (stored db) := by
  simp only [openDb] at h
  split at h
  · cases h
  · rw [← Option.some.inj h]
    rcases List.eq_nil_or_concat (stored db) with hnil | ⟨vs, v, hv⟩
    · simp [hnil]
    · simp [hv, carried]

/-! ## Concurrent calls of `log` -/

/-- The arguments of a call, and what it is given on its way: the answer of `generate_id`, the time, and whether the
entry is serialised and inserted. -/
structure LogCall where
  user : String
  role : String
  action : AuditAction
  target : String
  result : AuditResult
  sourceIp : String
  detail : String
  generateId : Option UInt64
  timestamp : String
  serializeOk : Bool
  insertOk : Bool
  deriving DecidableEq, Repr

def LogCall.id (l : LogCall) : UInt64 := l.generateId.getD 0

/-- Neither of the two errors that `log` reports. -/
def LogCall.stores (l : LogCall) : Bool := l.serializeOk && l.insertOk

/-- The entry that a call makes after the hash `prev`. -/
def LogCall.entry (digest : String → String) (l : LogCall) (prev : String) : AuditEntry where
  id := l.id
  timestampUtc := l.timestamp
  user := l.user
  role := l.role
  action := l.action
  target := l.target
  result := l.result
  sourceIp := l.sourceIp
  detail := l.detail
  chainHash := digest (raw l.id l.timestamp l.user l.action l.target l.result l.sourceIp l.detail prev)

inductive Pc
  | start
  | generated
  | locked
  | inserted (chainHash : String)
  | done
  deriving DecidableEq, Repr

structure Shared (ι : Type*) where
  db : Db
  prevHash : String
  /-- The call that holds the lock on `prevHash`. -/
  lock : Option ι
  /-- The last id that was generated. -/
  lastId : Option UInt64
  /-- The calls that have begun and not returned; the logger cannot be opened again while there are some. -/
  inFlight : Finset ι

/-- A call of `log`, or the program opening the database again. -/
inductive Actor (ι : Type*)
  | caller (i : ι)
  | opener (infoEnabled : Bool)
  deriving DecidableEq

section Steps

variable {ι : Type*} [DecidableEq ι] (digest : String → String) (calls : ι → LogCall)

/-- A call that returns unlocks. -/
def Shared.leave (s : Shared ι) (i : ι) : Shared ι := { s with lock := none, inFlight := s.inFlight.erase i }

/-- The next step of an actor. Ids come out of `generate_id` in increasing order. -/
def next : Actor ι → Pc → Shared ι → Option (Pc × Shared ι)
  | .opener infoEnabled, pc, s =>
    if s.inFlight = ∅ then (openDb infoEnabled s.db).map fun prevHash => (pc, { s with prevHash, lock := none }) else none
  | .caller i, .start, s =>
    if s.lastId.all fun l => l < (calls i).id then
      some (.generated, { s with lastId := some (calls i).id, inFlight := insert i s.inFlight })
    else none
  | .caller i, .generated, s => if s.lock = none then some (.locked, { s with lock := some i }) else none
  | .caller i, .locked, s =>
    let entry := (calls i).entry digest s.prevHash
    if (calls i).stores then
      some (.inserted entry.chainHash, { s with db := s.db.insert (calls i).id (some entry) })
    else some (.done, s.leave i)
  | .caller i, .inserted chainHash, s => some (.done, { s.leave i with prevHash := chainHash })
  | .caller _, .done, _ => none

/-- An empty database that has just been opened. -/
def initial : Config (Actor ι) (Shared ι) Pc :=
  ⟨{ db := ∅, prevHash := genesis, lock := none, lastId := none, inFlight := ∅ }, fun _ => .start⟩

def run (schedule : List (Actor ι)) : Config (Actor ι) (Shared ι) Pc := exec (next digest calls) initial schedule

/-- What a step can do, and when. -/
theorem next_cases {a : Actor ι} {pc : Pc} {s : Shared ι} {r : Pc × Shared ι} (h : next digest calls a pc s = some r) :
    (∃ infoEnabled prevHash, a = .opener infoEnabled ∧ s.inFlight = ∅ ∧ openDb infoEnabled s.db = some prevHash ∧
      r = (pc, { s with prevHash, lock := none })) ∨
    ∃ i, a = .caller i ∧
      ((pc = .start ∧ (∀ l, s.lastId = some l → l < (calls i).id) ∧
          r = (.generated, { s with lastId := some (calls i).id, inFlight := insert i s.inFlight })) ∨
        (pc = .generated ∧ s.lock = none ∧ r = (.locked, { s with lock := some i })) ∨
        (pc = .locked ∧ (calls i).stores = true ∧ r = (.inserted ((calls i).entry digest s.prevHash).chainHash,
          { s with db := s.db.insert (calls i).id (some ((calls i).entry digest s.prevHash)) })) ∨
        (pc = .locked ∧ (calls i).stores = false ∧ r = (.done, s.leave i)) ∨
        ∃ chainHash, pc = .inserted chainHash ∧ r = (.done, { s.leave i with prevHash := chainHash })) := by
  cases a with
  | opener infoEnabled =>
    simp only [next, Option.ite_none_right_eq_some, Option.map_eq_some_iff] at h
    obtain ⟨hempty, prevHash, hopen, rfl⟩ := h
    exact Or.inl ⟨infoEnabled, prevHash, rfl, hempty, hopen, rfl⟩
  | caller i =>
    refine Or.inr ⟨i, rfl, ?_⟩
    cases pc with
    | start =>
      simp only [next, Option.ite_none_right_eq_some, Option.some.injEq, Option.all_eq_true, decide_eq_true_eq] at h
      exact Or.inl ⟨rfl, h.1, h.2.symm⟩
    | generated =>
      simp only [next, Option.ite_none_right_eq_some, Option.some.injEq] at h
      exact Or.inr (Or.inl ⟨rfl, h.1, h.2.symm⟩)
    | locked =>
      cases hst : (calls i).stores with
      | true =>
        simp only [next, hst, if_true, Option.some.injEq] at h
        exact Or.inr (Or.inr (Or.inl ⟨rfl, rfl, h.symm⟩))
      | false =>
        simp only [next, hst, Bool.false_eq_true, if_false, Option.some.injEq] at h
        exact Or.inr (Or.inr (Or.inr (Or.inl ⟨rfl, rfl, h.symm⟩)))
    | inserted chainHash =>
      simp only [next, Option.some.injEq] at h
      exact Or.inr (Or.inr (Or.inr (Or.inr ⟨chainHash, rfl, h.symm⟩)))
    | done => simp [next] at h

end Steps

end ThorFirewall.Audit
