import ThorFirewall.Lib.Interleaving
import ThorFirewall.Lib.SortedMap

/-!
# The IOC database (`state/ioc.rs`)

A Bloom filter in front of a map: `check` asks the filter first and the map only if the filter says yes. Entries go to
both, and leave the map only. The filter is a parameter that may say yes to anything, but says yes to what was set
(`Bloom.NoFalseNegatives`).

- `check_run`: after any calls, `check` returns what was inserted last and not removed since;
- `checked_at`: with calls interleaved, `check` returns the map's entry at one of its own steps;
- `checked_old_or_new`: beside a single insert of the value, that is the old entry or the new one;
- `check_returns`, `releases`: a check returns by its second step behind one at which no bulk load holds the filter, and a
  bulk load that holds it is not blocked.
-/

namespace ThorFirewall.Agent

open Std Interleaving

inductive IocType
  | ipAddress
  | domain
  | fileHash
  | url
  deriving DecidableEq

structure IocEntry where
  value : String
  iocType : IocType
  threatLevel : String
  source : String
  tags : List String
  deriving DecidableEq

/-- What the database uses of a Bloom filter. -/
structure Bloom (β : Type) where
  empty : β
  set : β → String → β
  check : β → String → Bool

/-- What was set is found from then on. -/
structure Bloom.NoFalseNegatives {β : Type} (B : Bloom β) : Prop where
  check_set : ∀ b v, B.check (B.set b v) v
  check_set_of_check : ∀ b v w, B.check b w → B.check (B.set b v) w

structure IocDatabase (β : Type) where
  bloom : β
  iocs : TreeMap String IocEntry

namespace IocDatabase

variable {β : Type} (B : Bloom β)

def new : IocDatabase β := { bloom := B.empty, iocs := ∅ }

variable (db : IocDatabase β)

def setBloom (value : String) : IocDatabase β := { db with bloom := B.set db.bloom value }

def insertIoc (ioc : IocEntry) : IocDatabase β := { db with iocs := db.iocs.insert ioc.value ioc }

def insert (ioc : IocEntry) : IocDatabase β := (db.setBloom B ioc.value).insertIoc ioc

/-- The entry that a bulk load makes of an address. -/
def bulkEntry (source ip : String) : IocEntry where
  value := ip
  iocType := .ipAddress
  threatLevel := "HIGH"
  source := source
  tags := ["bulk"]

/-- The database after a bulk load, and the number of addresses. -/
def bulkInsertIps (ips : List String) (source : String) : IocDatabase β × ℕ :=
  ips.foldl (fun r ip => (r.1.insert B (bulkEntry source ip), r.2 + 1)) (db, 0)

def check (value : String) : Option IocEntry := if B.check db.bloom value then db.iocs[value]? else none

/-- The database without the entry, and whether there was one. -/
def remove (value : String) : IocDatabase β × Bool :=
  ({ db with iocs := db.iocs.erase value }, db.iocs.contains value)

def len : ℕ := db.iocs.size

/-! ## Calls -/

/-- The calls that change the database. -/
inductive Op
  | insert (ioc : IocEntry)
  | bulkInsertIps (ips : List String) (source : String)
  | remove (value : String)

def apply : Op → IocDatabase β
  | .insert ioc => db.insert B ioc
  | .bulkInsertIps ips source => (db.bulkInsertIps B ips source).1
  | .remove value => (db.remove value).1

def run (ops : List Op) : IocDatabase β := ops.foldl (apply B) (new B)

/-- The entry that a call inserts for `v`. -/
def Op.inserted (v : String) : Op → Option IocEntry
  | .insert ioc => if ioc.value = v then some ioc else none
  | .bulkInsertIps ips source => if v ∈ ips then some (bulkEntry source v) else none
  | .remove _ => none

/-- The call inserts or removes `v`. -/
def Op.Concerns (v : String) : Op → Prop
  | .insert ioc => ioc.value = v
  | .bulkInsertIps ips _ => v ∈ ips
  | .remove value => value = v

instance (v : String) (op : Op) : Decidable (op.Concerns v) := by
  cases op <;> unfold Op.Concerns <;> infer_instance

/-- `e` was inserted for `v`, and no later call concerns `v`. -/
def InsertedLast (ops : List Op) (v : String) (e : IocEntry) : Prop :=
  ∃ pre op post, ops = pre ++ op :: post ∧ op.inserted v = some e ∧ ∀ later ∈ post, ¬ later.Concerns v

theorem Op.concerns_of_inserted {op : Op} {v : String} {e : IocEntry} (h : op.inserted v = some e) : op.Concerns v := by
  cases op with
  | insert ioc =>
    by_contra hne
    simp [Op.inserted, show ¬ ioc.value = v from hne] at h
  | bulkInsertIps ips source =>
    by_contra hne
    simp [Op.inserted, show v ∉ ips from hne] at h
  | remove value => cases h

/-- The last call decides if it concerns the value. -/
theorem insertedLast_concat {ops : List Op} {op : Op} {v : String} {e : IocEntry} :
    InsertedLast (ops ++ [op]) v e ↔ if op.Concerns v then op.inserted v = some e else InsertedLast ops v e := by
  constructor
  · rintro ⟨pre, o, post, hops, ho, hpost⟩
    rcases List.eq_nil_or_concat post with rfl | ⟨post', last, rfl⟩
    · obtain ⟨rfl, hlast⟩ := List.append_inj' hops rfl
      obtain rfl : op = o := by simpa using hlast
      rwa [if_pos (Op.concerns_of_inserted ho)]
    · have hops' : ops ++ [op] = (pre ++ o :: post') ++ [last] := by simpa using hops
      obtain ⟨rfl, hlast⟩ := List.append_inj' hops' rfl
      obtain rfl : op = last := by simpa using hlast
      rw [if_neg (hpost op (by simp))]
      exact ⟨pre, o, post', rfl, ho, fun later hl => hpost later (by simp [hl])⟩
  · intro h
    split_ifs at h with hc
    · exact ⟨ops, op, [], rfl, h, by simp⟩
    · obtain ⟨pre, o, post, rfl, ho, hpost⟩ := h
      refine ⟨pre, o, post ++ [op], by simp, ho, fun later hl => ?_⟩
      rcases List.mem_append.1 hl with hl | hl
      · exact hpost later hl
      · rwa [List.mem_singleton.1 hl]

/-! ## The map behind the filter -/

variable {db} {v : String}

@[simp] theorem getElem?_insertIoc (ioc : IocEntry) :
    (db.insertIoc ioc).iocs[v]? = if ioc.value = v then some ioc else db.iocs[v]? := by
  rw [insertIoc, TreeMap.getElem?_insert]
  simp

@[simp] theorem getElem?_insert (ioc : IocEntry) :
    (db.insert B ioc).iocs[v]? = if ioc.value = v then some ioc else db.iocs[v]? :=
  getElem?_insertIoc ioc

@[simp] theorem getElem?_remove (value : String) :
    (db.remove value).1.iocs[v]? = if value = v then none else db.iocs[v]? := by
  rw [remove, TreeMap.getElem?_erase]
  simp

/-- A bulk load is one insert after the other. -/
theorem bulkInsertIps_eq (ips : List String) (source : String) :
    db.bulkInsertIps B ips source = (ips.foldl (fun db ip => db.insert B (bulkEntry source ip)) db, ips.length) := by
  have hfold : ∀ n, ips.foldl (fun r ip => (r.1.insert B (bulkEntry source ip), r.2 + 1)) (db, n) =
      (ips.foldl (fun db ip => db.insert B (bulkEntry source ip)) db, n + ips.length) := by
    induction ips generalizing db with
    | nil => exact fun n => rfl
    | cons ip ips ih =>
      intro n
      rw [List.foldl_cons, List.foldl_cons, ih (n + 1), List.length_cons]
      simp only [Prod.mk.injEq, true_and]
      omega
  rw [bulkInsertIps, hfold 0, Nat.zero_add]

theorem getElem?_bulkInsertIps (ips : List String) (source : String) :
    (db.bulkInsertIps B ips source).1.iocs[v]? = if v ∈ ips then some (bulkEntry source v) else db.iocs[v]? := by
  rw [bulkInsertIps_eq]
  induction ips generalizing db with
  | nil => simp
  | cons ip ips ih =>
    simp only [List.foldl_cons, List.mem_cons] at ih ⊢
    rw [ih, getElem?_insert]
    by_cases hv : v ∈ ips
    · simp [hv]
    · by_cases hip : ip = v
      · simp [hv, hip, bulkEntry]
      · simp [hv, hip, Ne.symm hip, bulkEntry]

/-- What one call does to the map. -/
theorem getElem?_apply (op : Op) :
    (db.apply B op).iocs[v]? = if op.Concerns v then op.inserted v else db.iocs[v]? := by
  cases op with
  | insert ioc =>
    simp only [apply, getElem?_insert, Op.Concerns, Op.inserted]
    split_ifs <;> rfl
  | bulkInsertIps ips source =>
    simp only [apply, getElem?_bulkInsertIps, Op.Concerns, Op.inserted]
    split_ifs <;> rfl
  | remove value =>
    simp only [apply, getElem?_remove, Op.Concerns, Op.inserted]

theorem getElem?_run (ops : List Op) (v : String) (e : IocEntry) :
    (run B ops).iocs[v]? = some e ↔ InsertedLast ops v e := by
  induction ops using List.reverseRecOn with
  | nil =>
    simp only [run, new, List.foldl_nil, InsertedLast, TreeMap.getElem?_emptyc, reduceCtorEq, false_iff]
    rintro ⟨pre, op, post, h, -⟩
    exact absurd h.symm (by simp)
  | append_singleton ops op ih =>
    rw [insertedLast_concat, run, List.foldl_concat, getElem?_apply]
    split_ifs
    · rfl
    · exact ih

/-! ## The filter in front of the map -/

/-- The filter says yes to every value in the map. -/
def Covers (db : IocDatabase β) : Prop := ∀ v, v ∈ db.iocs → B.check db.bloom v

variable {B}

theorem check_eq (h : Covers B db) (v : String) : db.check B v = db.iocs[v]? := by
  rw [check]
  split_ifs with hb
  · rfl
  · exact (TreeMap.getElem?_eq_none fun hv => hb (h v hv)).symm

theorem covers_new : Covers B (new B) := fun _ h => absurd h TreeMap.not_mem_emptyc

variable (hB : B.NoFalseNegatives)
include hB

theorem Covers.setBloom (h : Covers B db) (value : String) : Covers B (db.setBloom B value) :=
  fun v hv => hB.check_set_of_check _ _ _ (h v hv)

omit hB in
theorem Covers.insertIoc (h : Covers B db) {ioc : IocEntry} (hset : B.check db.bloom ioc.value) :
    Covers B (db.insertIoc ioc) := by
  intro v hv
  rcases TreeMap.mem_insert.1 hv with heq | hv
  · rw [← Std.compare_eq_iff_eq.1 heq]
    exact hset
  · exact h v hv

theorem Covers.insert (h : Covers B db) (ioc : IocEntry) : Covers B (db.insert B ioc) :=
  (h.setBloom hB ioc.value).insertIoc (hB.check_set _ _)

omit hB in
theorem Covers.remove (h : Covers B db) (value : String) : Covers B (db.remove value).1 :=
  fun v hv => h v (TreeMap.mem_of_mem_erase hv)

theorem Covers.apply (h : Covers B db) (op : Op) : Covers B (db.apply B op) := by
  cases op with
  | insert ioc => exact h.insert hB ioc
  | bulkInsertIps ips source =>
    rw [IocDatabase.apply, bulkInsertIps_eq]
    exact List.foldlRecOn ips _ h fun db hdb ip _ => Covers.insert hB hdb (bulkEntry source ip)
  | remove value => exact h.remove value

theorem covers_run (ops : List Op) : Covers B (run B ops) :=
  List.foldlRecOn ops _ covers_new fun _ hdb op _ => Covers.apply hB hdb op

theorem check_run (ops : List Op) (v : String) (e : IocEntry) :
    (run B ops).check B v = some e ↔ InsertedLast ops v e := by
  rw [check_eq (covers_run hB ops), getElem?_run]

omit hB in
/-- The size of the map is the number of values that were inserted and not removed since. -/
theorem len_run (ops : List Op) : (run B ops).len = Set.ncard {v | ∃ e, InsertedLast ops v e} := by
  have hkeys : {v | ∃ e, InsertedLast ops v e} = ↑(run B ops).iocs.keys.toFinset := by
    ext v
    rw [Finset.mem_coe, List.mem_toFinset, TreeMap.mem_keys, ← TreeMap.isSome_getElem?_iff_mem, Option.isSome_iff_exists]
    exact exists_congr fun e => (getElem?_run B ops v e).symm
  rw [hkeys, Set.ncard_coe_finset, List.toFinset_card_of_nodup TreeMap.nodup_keys, TreeMap.length_keys, len]

/-! ## Interleaved calls -/

/-- The database and its filter's lock. -/
structure Shared (β : Type) where
  db : IocDatabase β
  /-- A bulk load holds the write lock. -/
  writing : Bool

/-- What runs beside what. -/
inductive Call
  | update (op : Op)
  | check (value : String)

/-- Where a call stands. -/
inductive Pc
  | setBloom (ioc : IocEntry)
  | insertIoc (ioc : IocEntry)
  | inserted
  | lockBloom (ips : List String) (source : String)
  | bulkSet (ips : List String) (source : String) (count : ℕ)
  | bulkInsert (ip : String) (ips : List String) (source : String) (count : ℕ)
  | bulkInserted (count : ℕ)
  | removeIoc (value : String)
  | removed (found : Bool)
  | checkBloom (value : String)
  | getIoc (value : String)
  | checked (value : String) (result : Option IocEntry)
  deriving DecidableEq

def Call.start : Call → Pc
  | .update (.insert ioc) => .setBloom ioc
  | .update (.bulkInsertIps ips source) => .lockBloom ips source
  | .update (.remove value) => .removeIoc value
  | .check value => .checkBloom value

variable (B)

/-- The next step of a call, if no bulk load holds the lock that it needs. -/
def next (_ : ℕ) : Pc → Shared β → Option (Pc × Shared β)
  | .setBloom ioc, s =>
    if s.writing then none else some (.insertIoc ioc, { s with db := s.db.setBloom B ioc.value })
  | .insertIoc ioc, s => some (.inserted, { s with db := s.db.insertIoc ioc })
  | .lockBloom ips source, s => if s.writing then none else some (.bulkSet ips source 0, { s with writing := true })
  | .bulkSet (ip :: ips) source count, s =>
    some (.bulkInsert ip ips source count, { s with db := s.db.setBloom B ip })
  | .bulkSet [] _ count, s => some (.bulkInserted count, { s with writing := false })
  | .bulkInsert ip ips source count, s =>
    some (.bulkSet ips source (count + 1), { s with db := s.db.insertIoc (bulkEntry source ip) })
  | .removeIoc value, s => some (.removed (s.db.remove value).2, { s with db := (s.db.remove value).1 })
  | .checkBloom value, s =>
    if s.writing then none
    else if B.check s.db.bloom value then some (.getIoc value, s) else some (.checked value none, s)
  | .getIoc value, s => some (.checked value s.db.iocs[value]?, s)
  | .inserted, _ | .bulkInserted _, _ | .removed _, _ | .checked _ _, _ => none

omit hB

def init (db : IocDatabase β) (calls : ℕ → Call) : Config ℕ (Shared β) Pc :=
  ⟨⟨db, false⟩, fun i => (calls i).start⟩

/-- What the map is about to get was set in the filter. -/
def Pc.Covered (db : IocDatabase β) : Pc → Prop
  | .insertIoc ioc => B.check db.bloom ioc.value
  | .bulkInsert ip _ _ _ => B.check db.bloom ip
  | _ => True

/-- The call that a program counter still has to do. -/
def Pc.pending : Pc → Option Op
  | .setBloom ioc | .insertIoc ioc => some (.insert ioc)
  | .lockBloom ips source | .bulkSet ips source _ => some (.bulkInsertIps ips source)
  | .bulkInsert ip ips source _ => some (.bulkInsertIps (ip :: ips) source)
  | .removeIoc value => some (.remove value)
  | _ => none

variable {B}

section Step

variable {i : ℕ} {k : Pc} {s : Shared β} {r : Pc × Shared β}

include hB in
/-- A step sets a value in the filter before the map gets it. -/
theorem covers_next (h : next B i k s = some r) (hs : Covers B s.db) (hk : k.Covered B s.db) :
    Covers B r.2.db ∧ r.1.Covered B r.2.db ∧ ∀ v, B.check s.db.bloom v → B.check r.2.db.bloom v := by
  cases k with
  | setBloom ioc =>
    simp only [next, Option.ite_none_left_eq_some, Option.some.injEq] at h
    obtain ⟨-, rfl⟩ := h
    exact ⟨hs.setBloom hB _, hB.check_set _ _, fun v => hB.check_set_of_check _ _ v⟩
  | insertIoc ioc =>
    cases h
    exact ⟨hs.insertIoc hk, trivial, fun v hv => hv⟩
  | lockBloom ips source =>
    simp only [next, Option.ite_none_left_eq_some, Option.some.injEq] at h
    obtain ⟨-, rfl⟩ := h
    exact ⟨hs, trivial, fun v hv => hv⟩
  | bulkSet ips source count =>
    cases ips with
    | nil =>
      cases h
      exact ⟨hs, trivial, fun v hv => hv⟩
    | cons ip ips =>
      cases h
      exact ⟨hs.setBloom hB _, hB.check_set _ _, fun v => hB.check_set_of_check _ _ v⟩
  | bulkInsert ip ips source count =>
    cases h
    exact ⟨hs.insertIoc hk, trivial, fun v hv => hv⟩
  | removeIoc value =>
    cases h
    exact ⟨hs.remove value, trivial, fun v hv => hv⟩
  | checkBloom value =>
    simp only [next, Option.ite_none_left_eq_some] at h
    obtain ⟨-, h⟩ := h
    split at h <;> cases h <;> exact ⟨hs, trivial, fun v hv => hv⟩
  | getIoc value =>
    cases h
    exact ⟨hs, trivial, fun v hv => hv⟩
  | inserted | bulkInserted count | removed found | checked value result => cases h

/-- What a check returns is what the map holds when it does its last step. -/
theorem next_checked (h : next B i k s = some r) (hs : Covers B s.db) {v : String} {x : Option IocEntry}
    (hr : r.1 = .checked v x) : s.db.iocs[v]? = x := by
  cases k with
  | setBloom ioc | lockBloom ips source =>
    simp only [next, Option.ite_none_left_eq_some, Option.some.injEq] at h
    obtain ⟨-, rfl⟩ := h
    cases hr
  | insertIoc ioc | bulkInsert ip ips source count | removeIoc value =>
    cases h
    cases hr
  | bulkSet ips source count => cases ips <;> cases h <;> cases hr
  | checkBloom value =>
    simp only [next, Option.ite_none_left_eq_some] at h
    obtain ⟨-, h⟩ := h
    split at h
    · cases h
      cases hr
    · rename_i hb
      cases h
      cases hr
      rw [← check_eq hs, check, if_neg hb]
  | getIoc value =>
    cases h
    cases hr
    rfl
  | inserted | bulkInserted count | removed found | checked value result => cases h

/-- The entry of a value changes only by a call that concerns the value, to what this call makes of it. -/
theorem next_getElem? (h : next B i k s = some r) (v : String) :
    r.2.db.iocs[v]? = s.db.iocs[v]? ∨
      ∃ op, k.pending = some op ∧ op.Concerns v ∧ r.2.db.iocs[v]? = op.inserted v := by
  cases k with
  | setBloom ioc | lockBloom ips source =>
    simp only [next, Option.ite_none_left_eq_some, Option.some.injEq] at h
    obtain ⟨-, rfl⟩ := h
    exact Or.inl rfl
  | insertIoc ioc =>
    cases h
    by_cases hv : ioc.value = v
    · exact Or.inr ⟨_, rfl, hv, by simp [Op.inserted, hv]⟩
    · exact Or.inl (by simp [hv])
  | bulkSet ips source count => cases ips <;> cases h <;> exact Or.inl rfl
  | bulkInsert ip ips source count =>
    cases h
    by_cases hv : ip = v
    · exact Or.inr ⟨_, rfl, by simp [Op.Concerns, hv], by simp [Op.inserted, hv, bulkEntry]⟩
    · exact Or.inl (by simp [bulkEntry, hv])
  | removeIoc value =>
    cases h
    by_cases hv : value = v
    · exact Or.inr ⟨_, rfl, hv, by simp [Op.inserted, hv]⟩
    · exact Or.inl (by simp [hv])
  | checkBloom value =>
    simp only [next, Option.ite_none_left_eq_some] at h
    obtain ⟨-, h⟩ := h
    split at h <;> cases h <;> exact Or.inl rfl
  | getIoc value =>
    cases h
    exact Or.inl rfl
  | inserted | bulkInserted count | removed found | checked value result => cases h

/-- What a call still has to do concerns a value only if the call does, and makes the same of it. -/
theorem next_pending (h : next B i k s = some r) {v : String} {op' : Op} (hop : r.1.pending = some op')
    (hv : op'.Concerns v) : ∃ op, k.pending = some op ∧ op.Concerns v ∧ op.inserted v = op'.inserted v := by
  cases k with
  | setBloom ioc | lockBloom ips source =>
    simp only [next, Option.ite_none_left_eq_some, Option.some.injEq] at h
    obtain ⟨-, rfl⟩ := h
    exact ⟨op', hop, hv, rfl⟩
  | bulkSet ips source count =>
    cases ips with
    | nil =>
      cases h
      cases hop
    | cons ip ips =>
      cases h
      exact ⟨op', hop, hv, rfl⟩
  | bulkInsert ip ips source count =>
    cases h
    cases hop
    have hmem : v ∈ ips := hv
    exact ⟨_, rfl, List.mem_cons_of_mem ip hmem, by simp [Op.inserted, hmem]⟩
  | checkBloom value =>
    simp only [next, Option.ite_none_left_eq_some] at h
    obtain ⟨-, h⟩ := h
    split at h <;> cases h <;> cases hop
  | insertIoc ioc | removeIoc value | getIoc value =>
    cases h
    cases hop
  | inserted | bulkInserted count | removed found | checked value result => cases h

end Step

/-! ## Every schedule -/

section Schedule

variable {calls : ℕ → Call} {schedule : List ℕ}

theorem covered_start (c : Call) : c.start.Covered B db := by
  rcases c with (_ | _ | _) | _ <;> trivial

theorem covered_mono {db' : IocDatabase β} (hset : ∀ v, B.check db.bloom v → B.check db'.bloom v) {k : Pc}
    (hk : k.Covered B db) : k.Covered B db' := by
  cases k with
  | insertIoc ioc => exact hset _ hk
  | bulkInsert ip ips source count => exact hset _ hk
  | _ => trivial

include hB in
/-- The filter covers the map and what every call is about to enter in it. -/
theorem covers_exec (hdb : Covers B db) (calls : ℕ → Call) (schedule : List ℕ) :
    Covers B (exec (next B) (init db calls) schedule).shared.db ∧
      ∀ i, ((exec (next B) (init db calls) schedule).pc i).Covered B
        (exec (next B) (init db calls) schedule).shared.db := by
  refine exec_inv (P := fun c : Config ℕ (Shared β) Pc => Covers B c.shared.db ∧ ∀ i, (c.pc i).Covered B c.shared.db)
    ⟨hdb, fun i => covered_start (calls i)⟩ (fun c i r hc hn => ?_) schedule
  obtain ⟨hcovers, hpc, hmono⟩ := covers_next hB hn hc.1 (hc.2 i)
  refine ⟨hcovers, fun j => ?_⟩
  rw [Config.set_pc]
  split_ifs with hij
  · exact hpc
  · exact covered_mono hmono (hc.2 j)

include hB in
/-- **A check reads the map** at one of its own steps. -/
theorem checked_at (hdb : Covers B db) {i : ℕ} {v : String} {x : Option IocEntry}
    (h : (exec (next B) (init db calls) schedule).pc i = .checked v x) :
    ∃ p, p ++ [i] <+: schedule ∧ (exec (next B) (init db calls) p).shared.db.iocs[v]? = x := by
  induction schedule using List.reverseRecOn with
  | nil =>
    have hstart : (calls i).start = .checked v x := h
    rcases hc : calls i with (_ | _ | _) | _ <;> simp [hc, Call.start] at hstart
  | append_singleton is j ih =>
    rw [exec_concat] at h
    have hbefore (h : (exec (next B) (init db calls) is).pc i = .checked v x) :
        ∃ p, p ++ [i] <+: is ++ [j] ∧ (exec (next B) (init db calls) p).shared.db.iocs[v]? = x := by
      obtain ⟨p, hp, hx⟩ := ih h
      exact ⟨p, hp.trans (List.prefix_append _ _), hx⟩
    cases hn : next B j ((exec (next B) (init db calls) is).pc j) (exec (next B) (init db calls) is).shared with
    | none =>
      rw [step_of_none hn] at h
      exact hbefore h
    | some r =>
      rw [step_of_some hn, Config.set_pc] at h
      split_ifs at h with hij
      · subst hij
        exact ⟨is, List.prefix_rfl, next_checked hn (covers_exec hB hdb calls is).1 h⟩
      · exact hbefore h

/-- What one of the calls makes of a value. -/
def FromCall (calls : ℕ → Call) (v : String) (x : Option IocEntry) : Prop :=
  ∃ j op, calls j = .update op ∧ op.Concerns v ∧ x = op.inserted v

/-- The entry of a value is the old one, or what one of the calls makes of it. -/
theorem getElem?_exec (calls : ℕ → Call) (schedule : List ℕ) (v : String) :
    (exec (next B) (init db calls) schedule).shared.db.iocs[v]? = db.iocs[v]? ∨
      FromCall calls v (exec (next B) (init db calls) schedule).shared.db.iocs[v]? := by
  refine (exec_inv
    (P := fun c : Config ℕ (Shared β) Pc =>
      (c.shared.db.iocs[v]? = db.iocs[v]? ∨ FromCall calls v c.shared.db.iocs[v]?) ∧
        ∀ i op, (c.pc i).pending = some op → op.Concerns v → FromCall calls v (op.inserted v))
    ⟨Or.inl rfl, fun i op hop hv => ?_⟩ (fun c i r hc hn => ⟨?_, fun j op hop hv => ?_⟩) schedule).1
  · have hstart : (calls i).start.pending = some op := hop
    rcases hcall : calls i with (ioc | ⟨ips, source⟩ | value) | value <;>
      simp only [hcall, Call.start, Pc.pending, Option.some.injEq, reduceCtorEq] at hstart <;>
      exact ⟨i, op, by rw [hcall, ← hstart], hv, rfl⟩
  · rcases next_getElem? hn v with heq | ⟨op, hop, hv, heq⟩
    · rw [Config.set_shared, heq]
      exact hc.1
    · rw [Config.set_shared, heq]
      exact Or.inr (hc.2 i op hop hv)
  · rw [Config.set_pc] at hop
    split_ifs at hop with hij
    · obtain ⟨op', hop', hv', heq⟩ := next_pending hn hop hv
      rw [← heq]
      exact hc.2 i op' hop' hv'
    · exact hc.2 j op hop hv

include hB in
/-- Beside one insert of the value, a check returns the old entry or the new one. -/
theorem checked_old_or_new (hdb : Covers B db) {i : ℕ} {v : String} {x : Option IocEntry}
    (h : (exec (next B) (init db calls) schedule).pc i = .checked v x) {j : ℕ} {ioc : IocEntry}
    (hj : calls j = .update (.insert ioc)) (hioc : ioc.value = v)
    (hothers : ∀ k op, k ≠ j → calls k = .update op → ¬ op.Concerns v) : x = db.check B v ∨ x = some ioc := by
  obtain ⟨p, -, rfl⟩ := checked_at hB hdb h
  rcases getElem?_exec calls p v with hold | ⟨k, op, hk, hv, hnew⟩
  · left
    rw [hold, check_eq hdb]
  · right
    obtain rfl : k = j := by
      by_contra hkj
      exact hothers k op hkj hk hv
    rw [hj] at hk
    cases hk
    rw [hnew, Op.inserted, if_pos hioc]

/-! ### Progress -/

/-- The check has read the filter. -/
def Pc.Past (v : String) (k : Pc) : Prop := k = .getIoc v ∨ ∃ x, k = .checked v x

theorem past_next {v : String} {i : ℕ} {k : Pc} {s : Shared β} {r : Pc × Shared β} (hk : k.Past v)
    (h : next B i k s = some r) : r.1.Past v := by
  rcases hk with rfl | ⟨x, rfl⟩
  · cases h
    exact .inr ⟨_, rfl⟩
  · cases h

theorem past_step {v : String} {i : ℕ} {c : Config ℕ (Shared β) Pc}
    (hpc : c.pc i = .checkBloom v ∨ (c.pc i).Past v) (hfree : c.shared.writing = false) :
    ((step (next B) c i).pc i).Past v := by
  rcases hpc with hpc | hpc
  · by_cases hb : B.check c.shared.db.bloom v
    · have hn : next B i (c.pc i) c.shared = some (.getIoc v, c.shared) := by simp [hpc, next, hfree, hb]
      rw [step_of_some hn, Config.set_pc_self]
      exact .inl rfl
    · have hn : next B i (c.pc i) c.shared = some (.checked v none, c.shared) := by simp [hpc, next, hfree, hb]
      rw [step_of_some hn, Config.set_pc_self]
      exact .inr ⟨none, rfl⟩
  · exact pc_stable (fun _ _ _ hk hn => past_next hk hn) hpc [i]

/-- Past the filter, the next step returns. -/
theorem checked_step {v : String} {i : ℕ} {c : Config ℕ (Shared β) Pc} (hpc : (c.pc i).Past v) :
    ∃ x, (step (next B) c i).pc i = .checked v x := by
  rcases hpc with hpc | ⟨x, hpc⟩
  · have hn : next B i (c.pc i) c.shared = some (.checked v c.shared.db.iocs[v]?, c.shared) := by rw [hpc]; rfl
    exact ⟨_, by rw [step_of_some hn, Config.set_pc_self]⟩
  · have hn : next B i (c.pc i) c.shared = none := by rw [hpc]; rfl
    exact ⟨x, by rw [step_of_none hn, hpc]⟩

/-- **A check returns** by its second step behind one at which no bulk load holds the filter. -/
theorem check_returns {i : ℕ} {v : String} (hi : calls i = .check v) {p q : List ℕ} (hp : p ++ [i] <+: q)
    (hq : q ++ [i] <+: schedule) (hfree : (exec (next B) (init db calls) p).shared.writing = false) :
    ∃ x, (exec (next B) (init db calls) schedule).pc i = .checked v x := by
  have hbegun : (exec (next B) (init db calls) p).pc i = .checkBloom v ∨
      ((exec (next B) (init db calls) p).pc i).Past v := by
    refine pc_stable (Q := fun k : Pc => k = .checkBloom v ∨ k.Past v) (fun k s r hk hn => ?_) (.inl ?_) p
    · rcases hk with rfl | hk
      · simp only [next, Option.ite_none_left_eq_some] at hn
        obtain ⟨-, hn⟩ := hn
        split at hn <;> cases hn
        · exact .inr (.inl rfl)
        · exact .inr (.inr ⟨none, rfl⟩)
      · exact .inr (past_next hk hn)
    · change (calls i).start = _
      rw [hi]
      rfl
  obtain ⟨between, rfl⟩ := hp
  obtain ⟨behind, rfl⟩ := hq
  have hpast : ((exec (next B) (init db calls) (p ++ [i] ++ between)).pc i).Past v := by
    rw [exec_append, exec_concat]
    exact pc_stable (fun _ _ _ hk hn => past_next hk hn) (past_step hbegun hfree) between
  obtain ⟨x, hx⟩ := checked_step (B := B) hpast
  refine ⟨x, ?_⟩
  rw [exec_append, exec_concat]
  refine pc_stable (Q := fun k : Pc => k = .checked v x) (fun k s r hk hn => ?_) hx behind
  subst hk
  cases hn

/-- A bulk load that holds the filter. -/
def Pc.Holds : Pc → Prop
  | .bulkSet _ _ _ | .bulkInsert _ _ _ _ => True
  | _ => False

/-- The steps of a bulk load up to the release of the filter. -/
def Pc.left : Pc → ℕ
  | .bulkSet ips _ _ => 2 * ips.length + 1
  | .bulkInsert _ ips _ _ => 2 * ips.length + 2
  | _ => 0

/-- Who holds the filter keeps it up to the last step, by which it is released. -/
theorem holds_next {i : ℕ} {k : Pc} {s : Shared β} {r : Pc × Shared β} (h : next B i k s = some r) :
    (r.2.writing = true → s.writing = true ∧ (k.Holds → r.1.Holds) ∨ r.1.Holds) := by
  cases k with
  | setBloom ioc | lockBloom ips source =>
    simp only [next, Option.ite_none_left_eq_some, Option.some.injEq] at h
    obtain ⟨-, rfl⟩ := h
    simp [Pc.Holds]
  | insertIoc ioc | bulkInsert ip ips source count | removeIoc value | getIoc value =>
    cases h
    simp [Pc.Holds]
  | bulkSet ips source count => cases ips <;> cases h <;> simp [Pc.Holds]
  | checkBloom value =>
    simp only [next, Option.ite_none_left_eq_some] at h
    obtain ⟨-, h⟩ := h
    split at h <;> cases h <;> simp [Pc.Holds]
  | inserted | bulkInserted count | removed found | checked value result => cases h

/-- A filter that is held is held by a bulk load. -/
theorem exists_holder (db : IocDatabase β) (calls : ℕ → Call) (schedule : List ℕ) :
    (exec (next B) (init db calls) schedule).shared.writing = true →
      ∃ j, ((exec (next B) (init db calls) schedule).pc j).Holds := by
  refine exec_inv (P := fun c : Config ℕ (Shared β) Pc => c.shared.writing = true → ∃ j, (c.pc j).Holds)
    (fun h => by cases h) (fun c i r hc hn hwriting => ?_) schedule
  rcases holds_next hn hwriting with ⟨hbefore, hkeeps⟩ | hnow
  · obtain ⟨j, hj⟩ := hc hbefore
    refine ⟨j, ?_⟩
    rw [Config.set_pc]
    split_ifs with hij
    · exact hkeeps (hij ▸ hj)
    · exact hj
  · exact ⟨i, by rwa [Config.set_pc_self]⟩

theorem holds_step {c : Config ℕ (Shared β) Pc} {j : ℕ} (h : (c.pc j).Holds) :
    (c.pc j).left = 1 ∧ (step (next B) c j).shared.writing = false ∨
      ((step (next B) c j).pc j).Holds ∧ (c.pc j).left = ((step (next B) c j).pc j).left + 1 := by
  cases hpc : c.pc j with
  | bulkSet ips source count =>
    cases ips with
    | nil =>
      have hn : next B j (c.pc j) c.shared = some (.bulkInserted count, { c.shared with writing := false }) := by
        rw [hpc]
        rfl
      rw [step_of_some hn]
      exact .inl ⟨rfl, rfl⟩
    | cons ip ips =>
      have hn : next B j (c.pc j) c.shared =
          some (.bulkInsert ip ips source count, { c.shared with db := c.shared.db.setBloom B ip }) := by
        rw [hpc]
        rfl
      rw [step_of_some hn, Config.set_pc_self]
      refine .inr ⟨trivial, ?_⟩
      simp only [Pc.left, List.length_cons]
      omega
  | bulkInsert ip ips source count =>
    have hn : next B j (c.pc j) c.shared = some (.bulkSet ips source (count + 1),
        { c.shared with db := c.shared.db.insertIoc (bulkEntry source ip) }) := by
      rw [hpc]
      rfl
    rw [step_of_some hn, Config.set_pc_self]
    exact .inr ⟨trivial, rfl⟩
  | _ =>
    rw [hpc] at h
    exact h.elim

/-- **A bulk load that holds the filter** is not blocked, and releases it. -/
theorem releases {c : Config ℕ (Shared β) Pc} {j : ℕ} (h : (c.pc j).Holds) :
    (exec (next B) c (List.replicate (c.pc j).left j)).shared.writing = false := by
  induction hn : (c.pc j).left generalizing c with
  | zero => rcases holds_step (B := B) h with ⟨hleft, -⟩ | ⟨-, hleft⟩ <;> omega
  | succ n ih =>
    have hcons : exec (next B) c (List.replicate (n + 1) j) =
        exec (next B) (step (next B) c j) (List.replicate n j) := rfl
    rw [hcons]
    rcases holds_step (B := B) h with ⟨hleft, hfree⟩ | ⟨hholds, hleft⟩
    · obtain rfl : n = 0 := by omega
      exact hfree
    · exact ih hholds (by omega)

end Schedule

include hB in
/-- **The database is a map.** After any calls, `check` returns the entry inserted last for a value and not removed
since, and `len` counts the values that have one. With calls interleaved in any way, a check returns by its second step
behind one at which no bulk load holds the filter, and one that holds it releases it by steps of its own; what the check
returns is the entry that the map has at one of the check's own steps. Where a single insert is all that concerns the
value, that is the old or the new entry. -/
theorem iocDatabase_is_map :
    (∀ ops v e, (run B ops).check B v = some e ↔ InsertedLast ops v e) ∧
    (∀ ops, (run B ops).len = Set.ncard {v | ∃ e, InsertedLast ops v e}) ∧
    (∀ ops calls schedule i v, calls i = .check v →
      (∀ p q, p ++ [i] <+: q → q ++ [i] <+: schedule →
        (exec (next B) (init (run B ops) calls) p).shared.writing = false →
          ∃ x, (exec (next B) (init (run B ops) calls) schedule).pc i = .checked v x) ∧
      ((exec (next B) (init (run B ops) calls) schedule).shared.writing = true →
        ∃ j n, (exec (next B) (init (run B ops) calls) (schedule ++ List.replicate n j)).shared.writing = false)) ∧
    ∀ ops calls schedule i v x, (exec (next B) (init (run B ops) calls) schedule).pc i = .checked v x →
      (∃ p, p ++ [i] <+: schedule ∧ (exec (next B) (init (run B ops) calls) p).shared.db.iocs[v]? = x) ∧
      ∀ j ioc, calls j = .update (.insert ioc) → ioc.value = v →
        (∀ k op, k ≠ j → calls k = .update op → ¬ op.Concerns v) → x = (run B ops).check B v ∨ x = some ioc := by
  refine ⟨fun ops v e => check_run hB ops v e, len_run, fun ops calls schedule i v hi =>
    ⟨fun p q hp hq hfree => check_returns hi hp hq hfree, fun hwriting => ?_⟩, fun ops _ _ _ _ _ h =>
    ⟨checked_at hB (covers_run hB ops) h, fun _ _ hj hioc => checked_old_or_new hB (covers_run hB ops) h hj hioc⟩⟩
  obtain ⟨j, hj⟩ := exists_holder (run B ops) calls schedule hwriting
  exact ⟨j, _, by rw [exec_append]; exact releases hj⟩

/-- A filter of 64 bits, one for each value. -/
def bits : Bloom ℕ where
  empty := 0
  set b v := b ||| 2 ^ ((v.toList.map Char.toNat).sum % 64)
  check b v := b.testBit ((v.toList.map Char.toNat).sum % 64)

theorem bits_noFalseNegatives : bits.NoFalseNegatives where
  check_set b v := by simp [bits]
  check_set_of_check b v w h := by
    simp only [bits] at h ⊢
    simp [h]

/-- A new entry is inserted beside a check, which has read the filter before and reads the map behind. -/
def besideInsert : ℕ → Call
  | 0 => .update (.insert ⟨"10.0.0.1", .ipAddress, "HIGH", "feodo", []⟩)
  | _ => .check "10.0.0.1"

/-- `check` finds the entry inserted again after its removal; a check that is overtaken by an insert returns. -/
theorem check_inserted_again : bits.NoFalseNegatives ∧
    (run bits [.insert ⟨"10.0.0.1", .ipAddress, "LOW", "otx", []⟩, .remove "10.0.0.1",
      .bulkInsertIps ["10.0.0.1", "10.0.0.1"] "feodo"]).check bits "10.0.0.1" = some (bulkEntry "feodo" "10.0.0.1") ∧
    ∃ x, (exec (next bits) (init (run bits [.bulkInsertIps ["10.0.0.1"] "otx"]) besideInsert) [1, 0, 0, 1]).pc 1 =
        .checked "10.0.0.1" x ∧
      (x = some (bulkEntry "otx" "10.0.0.1") ∨ x = some ⟨"10.0.0.1", .ipAddress, "HIGH", "feodo", []⟩) := by
  obtain ⟨hmap, -, hreturns, hresult⟩ := iocDatabase_is_map bits_noFalseNegatives
  refine ⟨bits_noFalseNegatives, (hmap _ _ _).2 ⟨[_, _], .bulkInsertIps _ _, [], rfl, by simp [Op.inserted], by simp⟩, ?_⟩
  obtain ⟨x, hx⟩ := (hreturns [.bulkInsertIps ["10.0.0.1"] "otx"] besideInsert [1, 0, 0, 1] 1 "10.0.0.1" rfl).1
    [] [1, 0, 0] ⟨[0, 0], rfl⟩ List.prefix_rfl rfl
  have hold : (run bits [.bulkInsertIps ["10.0.0.1"] "otx"]).check bits "10.0.0.1" =
      some (bulkEntry "otx" "10.0.0.1") :=
    (hmap _ _ _).2 ⟨[], .bulkInsertIps _ _, [], rfl, by simp [Op.inserted], by simp⟩
  refine ⟨x, hx, hold ▸ (hresult _ _ _ _ _ _ hx).2 0 _ rfl rfl fun k op hk hop => ?_⟩
  cases k with
  | zero => exact absurd rfl hk
  | succ k => cases hop

end IocDatabase

end ThorFirewall.Agent
