import Mathlib
import ThorFirewall.Lib.Interleaving
import ThorFirewall.Lib.Sha256

/-!
# The audit log of the SOC (`thor-soc-slm`)

Every handler of the SOC appends to one audit log. `append_audit` draws a sequence number, reads the last hash, computes
its record, writes the new last hash and pushes the record: four steps on three shared cells, with nothing held from one
step to the next, so that those of concurrent calls interleave.

- `next_cases`: the steps of a call;
- `Numbered`: while the counter has not gone round, every number below it belongs to one call;
- `Ordered`: if moreover no call reads or pushes ahead of a smaller number, the hashes were written in the order of the
  numbers and the log is a part of that chain, from its start;
- `one_chain_of_in_turn`: then the log is one hash chain.
-/

namespace ThorFirewall.Soc

open Interleaving

/-! ## Records -/

structure AuditRecord where
  sequence : UInt64
  prevHash : String
  timestamp : UInt64
  eventId : String
  agentId : String
  category : String
  action : String
  decision : String
  analyst : Option String
  xaiSummary : Option String
  entryHash : String
  deriving DecidableEq, Repr

/-- The text that `compute_hash` and `verify` hash. -/
def AuditRecord.text (r : AuditRecord) : String :=
  s!"{r.sequence}|{r.prevHash}|{r.timestamp}|{r.eventId}|{r.agentId}|{r.category}|{r.action}|{r.decision}"

def AuditRecord.computeHash (digest : String → String) (r : AuditRecord) : AuditRecord :=
  { r with entryHash := digest r.text }

def AuditRecord.verify (digest : String → String) (r : AuditRecord) : Bool := digest r.text == r.entryHash

/-! ## Concurrent calls of `append_audit` -/

/-- The arguments of a call, and the time it is given. -/
structure AppendCall where
  eventId : String
  agentId : String
  category : String
  action : String
  decision : String
  analyst : Option String
  xai : Option String
  now : UInt64
  deriving DecidableEq, Repr

/-- `"0".repeat(64)`. -/
def zeros : String := String.ofList (List.replicate 64 '0')

structure Shared where
  auditSeq : UInt64
  auditPrev : String
  auditLog : List AuditRecord

inductive Pc
  | start
  | fetched (seq : UInt64)
  | read (seq : UInt64) (prev : String)
  | written (record : AuditRecord)
  | pushed (record : AuditRecord)
  deriving DecidableEq

section Steps

variable {ι : Type*} (digest : String → String) (calls : ι → AppendCall)

def record (l : AppendCall) (seq : UInt64) (prev : String) : AuditRecord :=
  AuditRecord.computeHash digest
    { sequence := seq, prevHash := prev, timestamp := l.now, eventId := l.eventId, agentId := l.agentId,
      category := l.category, action := l.action, decision := l.decision, analyst := l.analyst, xaiSummary := l.xai,
      entryHash := "" }

def next (i : ι) : Pc → Shared → Option (Pc × Shared)
  | .start, s => some (.fetched s.auditSeq, { s with auditSeq := s.auditSeq + 1 })
  | .fetched seq, s => some (.read seq s.auditPrev, s)
  | .read seq prev, s =>
    let r := record digest (calls i) seq prev
    some (.written r, { s with auditPrev := r.entryHash })
  | .written r, s => some (.pushed r, { s with auditLog := s.auditLog ++ [r] })
  | .pushed _, _ => none

def initial : Config ι Shared Pc := ⟨{ auditSeq := 0, auditPrev := zeros, auditLog := [] }, fun _ => .start⟩

def run [DecidableEq ι] (schedule : List ι) : Config ι Shared Pc := exec (next digest calls) initial schedule

/-- What a step can do. -/
theorem next_cases {i : ι} {pc : Pc} {s : Shared} {r : Pc × Shared} (h : next digest calls i pc s = some r) :
    (pc = .start ∧ r = (.fetched s.auditSeq, { s with auditSeq := s.auditSeq + 1 })) ∨
    (∃ seq, pc = .fetched seq ∧ r = (.read seq s.auditPrev, s)) ∨
    (∃ seq prev, pc = .read seq prev ∧ r = (.written (record digest (calls i) seq prev),
      { s with auditPrev := (record digest (calls i) seq prev).entryHash })) ∨
    ∃ rec, pc = .written rec ∧ r = (.pushed rec, { s with auditLog := s.auditLog ++ [rec] }) := by
  cases pc <;> simp [next] at h <;> simp [← h]

end Steps

/-! ## One chain -/

/-- The hash of the record before position `i`. -/
def hashBefore (log : List AuditRecord) : ℕ → String
  | 0 => zeros
  | i + 1 => (log[i]?.map (·.entryHash)).getD zeros

/-- Record `i` has the sequence number `i`, and the hash of the record before it. -/
def OneChain (log : List AuditRecord) : Prop :=
  ∀ i r, log[i]? = some r → r.sequence.toNat = i ∧ r.prevHash = hashBefore log i

theorem hashBefore_append {l m : List AuditRecord} {i : ℕ} (hi : i ≤ l.length) :
    hashBefore (l ++ m) i = hashBefore l i := by
  cases i with
  | zero => rfl
  | succ i =>
    rw [hashBefore, hashBefore, List.getElem?_append_left hi]

theorem OneChain.of_prefix {l m : List AuditRecord} (hm : OneChain m) (h : l <+: m) : OneChain l := by
  obtain ⟨t, rfl⟩ := h
  intro i r hi
  have hlt : i < l.length := (List.getElem?_eq_some_iff.1 hi).1
  have hr := hm i r (by rw [List.getElem?_append_left hlt, hi])
  rwa [hashBefore_append hlt.le] at hr

theorem OneChain.concat {l : List AuditRecord} (hl : OneChain l) {r : AuditRecord}
    (hseq : r.sequence.toNat = l.length) (hprev : r.prevHash = hashBefore l l.length) : OneChain (l ++ [r]) := by
  intro i r' hi
  rcases Nat.lt_or_ge i l.length with hlt | hge
  · rw [List.getElem?_append_left hlt] at hi
    rw [hashBefore_append hlt.le]
    exact hl i r' hi
  · have hlt := (List.getElem?_eq_some_iff.1 hi).1
    rw [List.length_append, List.length_singleton] at hlt
    obtain rfl : i = l.length := by omega
    rw [List.getElem?_concat_length] at hi
    rw [hashBefore_append le_rfl, ← Option.some.inj hi]
    exact ⟨hseq, hprev⟩

/-! ## Numbers -/

section Runs

variable {ι : Type*} {digest : String → String} {calls : ι → AppendCall} {c : Config ι Shared Pc}

/-- The number a call has drawn. -/
def Pc.sequence : Pc → Option UInt64
  | .start => none
  | .fetched seq => some seq
  | .read seq _ => some seq
  | .written r => some r.sequence
  | .pushed r => some r.sequence

/-- The call has written its hash. -/
def Pc.hasWritten : Pc → Bool
  | .written _ => true
  | .pushed _ => true
  | _ => false

/-- The call has pushed its record. -/
def Pc.hasPushed : Pc → Bool
  | .pushed _ => true
  | _ => false

/-- `n` calls have drawn the numbers below `n`. -/
structure Numbered (c : Config ι Shared Pc) (n : ℕ) : Prop where
  auditSeq : c.shared.auditSeq = UInt64.ofNat n
  le : n ≤ 2 ^ 64
  lt : ∀ i s, (c.pc i).sequence = some s → s.toNat < n
  all : ∀ k < n, ∃ i s, (c.pc i).sequence = some s ∧ s.toNat = k
  inj : ∀ i j s, (c.pc i).sequence = some s → (c.pc j).sequence = some s → i = j

theorem numbered_initial : Numbered (initial : Config ι Shared Pc) 0 := by
  constructor <;> simp [initial, Pc.sequence]

/-- A step behind the first one keeps all numbers. -/
theorem Numbered.keep [DecidableEq ι] {n : ℕ} (hc : Numbered c n) {i : ι} {r : Pc × Shared}
    (hpc : r.1.sequence = (c.pc i).sequence) (hseq : r.2.auditSeq = c.shared.auditSeq) : Numbered (c.set i r) n := by
  have hsame : ∀ j, ((c.set i r).pc j).sequence = (c.pc j).sequence := by
    intro j
    rw [Config.set_pc]
    split_ifs with hj
    · rw [hj, hpc]
    · rfl
  constructor
  · rw [Config.set_shared, hseq, hc.auditSeq]
  · exact hc.le
  · intro j s hj
    exact hc.lt j s (by rwa [hsame] at hj)
  · intro k hk
    obtain ⟨j, s, hj, hs⟩ := hc.all k hk
    exact ⟨j, s, by rw [hsame, hj], hs⟩
  · intro j j' s hj hj'
    rw [hsame] at hj hj'
    exact hc.inj j j' s hj hj'

/-- The counter has not gone round when a call draws its number. -/
theorem Numbered.lt_of_fetch {n : ℕ} (hc : Numbered c n) (hturn : c.shared.auditSeq = 0 → ∀ j, c.pc j = .start) :
    n < 2 ^ 64 := by
  apply lt_of_le_of_ne hc.le
  rintro rfl
  obtain ⟨i, s, hi, -⟩ := hc.all 0 (by decide)
  rw [hturn hc.auditSeq i] at hi
  cases hi

theorem Numbered.fetch [DecidableEq ι] {n : ℕ} (hc : Numbered c n) {i : ι} (hpc : c.pc i = .start) (hn : n < 2 ^ 64) :
    Numbered (c.set i (.fetched c.shared.auditSeq, { c.shared with auditSeq := c.shared.auditSeq + 1 })) (n + 1) := by
  have hnum : c.shared.auditSeq.toNat = n := by
    rw [hc.auditSeq, UInt64.toNat_ofNat']
    exact Nat.mod_eq_of_lt hn
  constructor
  · rw [Config.set_shared, hc.auditSeq]
    apply UInt64.toNat_inj.1
    simp
  · exact hn
  · intro j s hj
    rw [Config.set_pc] at hj
    split_ifs at hj with hji
    · rw [← Option.some.inj hj, hnum]
      exact Nat.lt_succ_self n
    · exact (hc.lt j s hj).trans (Nat.lt_succ_self n)
  · intro k hk
    rcases Nat.lt_succ_iff_lt_or_eq.1 hk with hk | rfl
    · obtain ⟨j, s, hj, hs⟩ := hc.all k hk
      refine ⟨j, s, ?_, hs⟩
      rw [Config.set_pc_ne]
      · exact hj
      · rintro rfl
        rw [hpc] at hj
        cases hj
    · exact ⟨i, c.shared.auditSeq, by rw [Config.set_pc_self]; rfl, hnum⟩
  · -- the new number is not below `n`, the old ones are
    intro j j' s hj hj'
    rw [Config.set_pc] at hj hj'
    split_ifs at hj hj' with h1 h2 h2
    · rw [h1, h2]
    · have hlt := hc.lt j' s hj'
      rw [← Option.some.inj hj, hnum] at hlt
      omega
    · have hlt := hc.lt j s hj
      rw [← Option.some.inj hj', hnum] at hlt
      omega
    · exact hc.inj j j' s hj hj'

/-! ## Calls in turn -/

/-- The step of a call is in turn: the counter has not gone round when it draws its number, every smaller number has
written its hash when it reads the last one, and every smaller number has pushed its record when it does. -/
def InTurn (c : Config ι Shared Pc) (i : ι) : Prop :=
  match c.pc i with
  | .start => c.shared.auditSeq = 0 → ∀ j, c.pc j = .start
  | .fetched seq => ∀ j s, (c.pc j).sequence = some s → s < seq → (c.pc j).hasWritten = true
  | .written r => ∀ j s, (c.pc j).sequence = some s → s < r.sequence → (c.pc j).hasPushed = true
  | _ => True

/-- `hist` are the records in the order in which their hashes were written. -/
structure Ordered (c : Config ι Shared Pc) (n : ℕ) (hist : List AuditRecord) : Prop where
  chain : OneChain hist
  le : hist.length ≤ n
  log : c.shared.auditLog <+: hist
  prev : c.shared.auditPrev = hashBefore hist hist.length
  fetched : ∀ i s, c.pc i = .fetched s → hist.length ≤ s.toNat
  read : ∀ i s p, c.pc i = .read s p → s.toNat = hist.length ∧ p = c.shared.auditPrev
  written : ∀ i r, c.pc i = .written r → hist[r.sequence.toNat]? = some r ∧
    c.shared.auditLog.length ≤ r.sequence.toNat
  pushed : ∀ i r, c.pc i = .pushed r → r.sequence.toNat < c.shared.auditLog.length

variable {n : ℕ} {hist : List AuditRecord}

theorem ordered_initial : Ordered (initial : Config ι Shared Pc) 0 [] := by
  constructor <;> simp [initial, OneChain, hashBefore]

/-- A call that has written its hash has a number below those that have not. -/
theorem Ordered.lt_of_hasWritten (ho : Ordered c n hist) {i : ι} {s : UInt64} (hs : (c.pc i).sequence = some s)
    (hw : (c.pc i).hasWritten = true) : s.toNat < hist.length := by
  cases hpc : c.pc i with
  | written r =>
    rw [hpc] at hs
    rw [← Option.some.inj hs]
    exact (List.getElem?_eq_some_iff.1 (ho.written i r hpc).1).1
  | pushed r =>
    rw [hpc] at hs
    rw [← Option.some.inj hs]
    exact (ho.pushed i r hpc).trans_le ho.log.length_le
  | _ => simp [hpc, Pc.hasWritten] at hw

/-- A call that reads in turn has the number of the next hash. -/
theorem Ordered.eq_of_read (hn : Numbered c n) (ho : Ordered c n hist) {i : ι} {seq : UInt64}
    (hpc : c.pc i = .fetched seq)
    (hturn : ∀ j s, (c.pc j).sequence = some s → s < seq → (c.pc j).hasWritten = true) : seq.toNat = hist.length := by
  have hge := ho.fetched i seq hpc
  by_contra hne
  have hlt : hist.length < seq.toNat := by omega
  have hseq := hn.lt i seq (by rw [hpc]; rfl)
  obtain ⟨j, s, hj, hs⟩ := hn.all hist.length (by omega)
  have hw := hturn j s hj (UInt64.lt_iff_toNat_lt.2 (by omega))
  have := ho.lt_of_hasWritten hj hw
  omega

/-- A call that pushes in turn has the number of the next record. -/
theorem Ordered.eq_of_push (hn : Numbered c n) (ho : Ordered c n hist) {i : ι} {r : AuditRecord}
    (hpc : c.pc i = .written r)
    (hturn : ∀ j s, (c.pc j).sequence = some s → s < r.sequence → (c.pc j).hasPushed = true) :
    r.sequence.toNat = c.shared.auditLog.length := by
  have hge := (ho.written i r hpc).2
  by_contra hne
  have hlt : c.shared.auditLog.length < r.sequence.toNat := by omega
  have hseq := hn.lt i r.sequence (by rw [hpc]; rfl)
  obtain ⟨j, s, hj, hs⟩ := hn.all c.shared.auditLog.length (by omega)
  have hp := hturn j s hj (UInt64.lt_iff_toNat_lt.2 (by omega))
  cases hpj : c.pc j with
  | pushed r' =>
    rw [hpj] at hj
    have := ho.pushed j r' hpj
    rw [Option.some.inj hj] at this
    omega
  | _ => simp [hpj, Pc.hasPushed] at hp

section Steps

variable [DecidableEq ι]

theorem Ordered.fetch (hn : Numbered c n) (ho : Ordered c n hist) {i : ι} (hlt : n < 2 ^ 64) :
    Ordered (c.set i (.fetched c.shared.auditSeq, { c.shared with auditSeq := c.shared.auditSeq + 1 })) (n + 1) hist := by
  have hnum : c.shared.auditSeq.toNat = n := by
    rw [hn.auditSeq, UInt64.toNat_ofNat']
    exact Nat.mod_eq_of_lt hlt
  obtain ⟨hchain, hle, hlog, hprev, hfetched, hread, hwritten, hpushed⟩ := ho
  constructor <;> try simp only [Config.set_shared, Config.set_pc]
  · exact hchain
  · omega
  · exact hlog
  · exact hprev
  · intro j s hj
    split_ifs at hj
    · rw [← Pc.fetched.inj hj]
      omega
    · exact hfetched j s hj
  · intro j s p hj
    split_ifs at hj
    exact hread j s p hj
  · intro j r hj
    split_ifs at hj
    exact hwritten j r hj
  · intro j r hj
    split_ifs at hj
    exact hpushed j r hj

theorem Ordered.readPrev (ho : Ordered c n hist) {i : ι} {seq : UInt64} (hseq : seq.toNat = hist.length) :
    Ordered (c.set i (.read seq c.shared.auditPrev, c.shared)) n hist := by
  obtain ⟨hchain, hle, hlog, hprev, hfetched, hread, hwritten, hpushed⟩ := ho
  constructor <;> try simp only [Config.set_shared, Config.set_pc]
  · exact hchain
  · exact hle
  · exact hlog
  · exact hprev
  · intro j s hj
    split_ifs at hj
    exact hfetched j s hj
  · intro j s p hj
    split_ifs at hj
    · obtain ⟨rfl, rfl⟩ := Pc.read.inj hj
      exact ⟨hseq, rfl⟩
    · exact hread j s p hj
  · intro j r hj
    split_ifs at hj
    exact hwritten j r hj
  · intro j r hj
    split_ifs at hj
    exact hpushed j r hj

/-- A call that has read in turn writes the next hash of the chain. -/
theorem Ordered.write (hn : Numbered c n) (ho : Ordered c n hist) {i : ι} {seq : UInt64} {prev : String}
    (hpc : c.pc i = .read seq prev) :
    Ordered (c.set i (.written (record digest (calls i) seq prev),
      { c.shared with auditPrev := (record digest (calls i) seq prev).entryHash })) n
      (hist ++ [record digest (calls i) seq prev]) := by
  set r := record digest (calls i) seq prev with hr
  have hrseq : r.sequence = seq := rfl
  obtain ⟨hseq, hprev⟩ := ho.read i seq prev hpc
  have hlt := hn.lt i seq (by rw [hpc]; rfl)
  -- another call with this number is this one
  have hself : ∀ j s, (c.pc j).sequence = some s → s.toNat = hist.length → j = i := by
    intro j s hj hs
    obtain rfl : s = seq := UInt64.toNat_inj.1 (hs.trans hseq.symm)
    exact hn.inj j i s hj (by rw [hpc]; rfl)
  constructor <;> try simp only [Config.set_shared, Config.set_pc]
  · apply ho.chain.concat
    · rw [hrseq, hseq]
    · rw [← ho.prev, ← hprev]
      rfl
  · rw [List.length_append, List.length_singleton]
    omega
  · exact ho.log.trans (List.prefix_append _ _)
  · simp [hashBefore]
  · intro j s hj
    split_ifs at hj with hji
    have hge := ho.fetched j s hj
    have hne : s.toNat ≠ hist.length := fun h => hji (hself j s (by rw [hj]; rfl) h)
    rw [List.length_append, List.length_singleton]
    omega
  · intro j s p hj
    split_ifs at hj with hji
    exact absurd (hself j s (by rw [hj]; rfl) (ho.read j s p hj).1) hji
  · intro j r' hj
    split_ifs at hj with hji
    · rw [← Pc.written.inj hj, hrseq, hseq, List.getElem?_concat_length]
      exact ⟨rfl, ho.log.length_le⟩
    · obtain ⟨hget, hle⟩ := ho.written j r' hj
      rw [List.getElem?_append_left (List.getElem?_eq_some_iff.1 hget).1]
      exact ⟨hget, hle⟩
  · intro j r' hj
    split_ifs at hj
    exact ho.pushed j r' hj

/-- A call that pushes in turn makes the log longer by the next record of the chain. -/
theorem Ordered.push (hn : Numbered c n) (ho : Ordered c n hist) {i : ι} {r : AuditRecord}
    (hpc : c.pc i = .written r) (hseq : r.sequence.toNat = c.shared.auditLog.length) :
    Ordered (c.set i (.pushed r, { c.shared with auditLog := c.shared.auditLog ++ [r] })) n hist := by
  have hlen : (c.shared.auditLog ++ [r]).length = c.shared.auditLog.length + 1 := by simp
  constructor <;> try simp only [Config.set_shared, Config.set_pc, hlen]
  · exact ho.chain
  · exact ho.le
  · obtain ⟨t, ht⟩ := ho.log
    have hget := (ho.written i r hpc).1
    rw [hseq, ← ht, List.getElem?_append_right le_rfl, Nat.sub_self] at hget
    cases t with
    | nil => cases hget
    | cons x t =>
      rw [List.getElem?_cons_zero] at hget
      rw [← ht, ← Option.some.inj hget]
      exact ⟨t, by simp⟩
  · exact ho.prev
  · intro j s hj
    split_ifs at hj
    exact ho.fetched j s hj
  · intro j s p hj
    split_ifs at hj
    exact ho.read j s p hj
  · intro j r' hj
    split_ifs at hj with hji
    obtain ⟨hget, hge⟩ := ho.written j r' hj
    refine ⟨hget, ?_⟩
    have hne : r'.sequence.toNat ≠ c.shared.auditLog.length := by
      intro h
      have heq : r'.sequence = r.sequence := UInt64.toNat_inj.1 (h.trans hseq.symm)
      exact hji (hn.inj j i r'.sequence (by rw [hj]; rfl) (by rw [hpc, heq]; rfl))
    omega
  · intro j r' hj
    split_ifs at hj
    · rw [← Pc.pushed.inj hj]
      omega
    · exact (ho.pushed j r' hj).trans (Nat.lt_succ_self _)

/-- One step in turn. -/
theorem Ordered.step (hn : Numbered c n) (ho : Ordered c n hist) {i : ι} {r : Pc × Shared} (hturn : InTurn c i)
    (h : next digest calls i (c.pc i) c.shared = some r) :
    ∃ n' hist', Numbered (c.set i r) n' ∧ Ordered (c.set i r) n' hist' := by
  obtain ⟨hpc, rfl⟩ | ⟨seq, hpc, rfl⟩ | ⟨seq, prev, hpc, rfl⟩ | ⟨rec, hpc, rfl⟩ := next_cases digest calls h
  all_goals simp only [InTurn, hpc] at hturn
  · have hlt := hn.lt_of_fetch hturn
    exact ⟨n + 1, hist, hn.fetch hpc hlt, ho.fetch hn hlt⟩
  · exact ⟨n, hist, hn.keep (by rw [hpc]; rfl) rfl, ho.readPrev (ho.eq_of_read hn hpc hturn)⟩
  · exact ⟨n, _, hn.keep (by rw [hpc]; rfl) rfl, ho.write hn hpc⟩
  · exact ⟨n, hist, hn.keep (by rw [hpc]; rfl) rfl, ho.push hn hpc (ho.eq_of_push hn hpc hturn)⟩

theorem one_chain_of_in_turn (digest : String → String) (calls : ι → AppendCall) (schedule : List ι)
    (hturn : ∀ pre i, pre ++ [i] <+: schedule → InTurn (run digest calls pre) i) :
    OneChain (run digest calls schedule).shared.auditLog := by
  have hinv : ∃ n hist, Numbered (run digest calls schedule) n ∧ Ordered (run digest calls schedule) n hist := by
    refine exec_inv_of (P := fun c => ∃ n hist, Numbered c n ∧ Ordered c n hist)
      ⟨0, [], numbered_initial, ordered_initial⟩ ?_ hturn
    rintro c i r ⟨n, hist, hn, ho⟩ ht h
    exact ho.step hn ht h
  obtain ⟨n, hist, -, ho⟩ := hinv
  exact ho.chain.of_prefix ho.log

/-- An analyst approves one decision and rejects another. -/
def reviews (second : Bool) : AppendCall where
  eventId := if second then "ev-2" else "ev-1"
  agentId := "agent-1"
  category := "HumanDecision"
  action := if second then "REJECT" else "BLOCK"
  decision := if second then "rejected" else "approved"
  analyst := some "ana"
  xai := none
  now := 1735689600

/-- One review after the other. -/
theorem one_chain_reviews : OneChain (run Sha256.hexDigest reviews
    [false, false, false, false, true, true, true, true]).shared.auditLog := by
  apply one_chain_of_in_turn
  intro pre i h
  rcases pre with _ | ⟨a, _ | ⟨b, _ | ⟨c, _ | ⟨d, _ | ⟨e, _ | ⟨f, _ | ⟨g, _ | ⟨k, pre⟩⟩⟩⟩⟩⟩⟩⟩ <;>
    simp [List.cons_prefix_cons] at h
  all_goals
    try casesm* _ ∧ _
    subst_vars
    simp [InTurn, run, exec, step, next, initial, Config.set, Pc.sequence, Pc.hasWritten, Pc.hasPushed, record,
      AuditRecord.computeHash, Function.update_apply]

/-- Both read the last hash before either writes it; and the second pushes its record before the first. -/
theorem one_chain_forked :
    (∀ i, ((run Sha256.hexDigest reviews [false, true, false, true, false, true, false, true]).pc i).hasPushed = true) ∧
    ¬ OneChain (run Sha256.hexDigest reviews [false, true, false, true, false, true, false, true]).shared.auditLog := by
  refine ⟨by decide, fun h => ?_⟩
  have h1 := (h 1 _ rfl).2
  revert h1
  show ¬ (zeros = _)
  decide +kernel

end Steps

end Runs

end ThorFirewall.Soc
