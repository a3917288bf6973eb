import Mathlib
import ThorFirewall.Ids.Flow
import ThorFirewall.Lib.Mealy
import ThorFirewall.Lib.SortedMap

/-!
# The counters of half-open flows

The table counts the half-open flows of an address beside its entries: up at a SYN of the lower endpoint, down at a
SYN-ACK or a RST of a half-open flow. The counter of an address should be the number of the half-open entries whose first
SYN came from it. A run is followed with the source of the first SYN of each flow (`Tracked`).

- `after_table`: the table of a tracked run is that of the run;
- `exact_step_iff`: from exact counters, which calls keep them exact (`Balanced`);
- `half_open_iff`: the counters are exact throughout a run exactly if each call of it is balanced.
-/

namespace ThorFirewall.Ids

open Std

/-! ## First SYNs -/

/-- A table and the source of the first SYN of each flow. -/
structure Tracked where
  table : FlowTable
  firstSyn : FlowKey → Option UInt32

namespace Tracked

def new : Tracked := { table := .new, firstSyn := fun _ => none }

/-- The source of the first SYN of a flow that is in the table. -/
def syn (s : Tracked) (key : FlowKey) : Option UInt32 := s.table.flows[key]?.bind fun _ => s.firstSyn key

/-- The state in which a packet finds its flow. -/
def stateOf (s : Tracked) (key : FlowKey) : TcpState := (s.table.flows[key]?.map (·.state)).getD .synSent

def step (s : Tracked) : Call → Tracked
  | .tcp src dst flags n now =>
    let key := (rawKey src dst 6).canonical.1
    let first := s.syn key <|> if flags.isSynOnly then some src.ip else none
    { table := s.table.step (.tcp src dst flags n now), firstSyn := Function.update s.firstSyn key first }
  | call => { s with table := s.table.step call }

def after (calls : List Call) : Tracked := calls.foldl step new

/-- The half-open entries whose first SYN came from an address. -/
def halfOpenFrom (s : Tracked) (ip : UInt32) : ℕ :=
  s.table.flows.toList.countP fun p => p.2.state.isHalfOpen && s.firstSyn p.1 = some ip

/-- The counter of an address. -/
def counter (s : Tracked) (ip : UInt32) : UInt32 := s.table.halfOpen[ip]?.getD 0

/-- The counters are those of the entries. -/
def Exact (s : Tracked) : Prop := ∀ ip, (s.counter ip).toNat = s.halfOpenFrom ip

/-- The call changes the counters as it changes the entries. A SYN of the lower endpoint begins a half-open flow, or is
the first one of such a flow, and no other SYN is; a SYN-ACK for a half-open flow finds the counter at zero; a RST of a
half-open flow finds it at zero or ends a flow that the lower endpoint began; no flow that began with a SYN is
established; and none that is half open expires. -/
def Balanced (s : Tracked) : Call → Prop
  | .tcp src dst flags _ _ =>
    let (key, dir) := (rawKey src dst 6).canonical
    let half := (s.stateOf key).isHalfOpen
    (flags.isSynOnly → (dir = .clientToServer ↔ half ∧ s.syn key = none) ∧
      (dir = .clientToServer → (s.counter key.srcIp).toNat + 1 < 2 ^ 32)) ∧
    (flags.isSynAck → half → s.counter key.srcIp = 0) ∧
    (flags.isRst → half → s.syn key = some key.srcIp ∨ s.syn key = none ∧ s.counter key.srcIp = 0) ∧
    (flags.isAckOnly → s.stateOf key = .synReceived → dir = .clientToServer → s.syn key = none)
  | .udp _ _ _ _ => True
  | .sweep now => ∀ key entry, s.table.flows[key]? = some entry → entry.state.isHalfOpen → s.firstSyn key ≠ none →
    entry.idle now < if key.protocol = 6 then s.table.tcpTimeout else s.table.udpTimeout

end Tracked

open Tracked

variable {s : Tracked}

theorem after_concat (calls : List Call) (c : Call) : after (calls ++ [c]) = (after calls).step c := List.foldl_concat ..

theorem after_table (calls : List Call) : (after calls).table = FlowTable.new.run calls := by
  induction calls using List.reverseRecOn with
  | nil => rfl
  | append_singleton calls c ih =>
    rw [after_concat, FlowTable.run, List.foldl_concat, ← FlowTable.run, ← ih]
    cases c <;> rfl

/-! ## The counter and the entries after a TCP packet -/

/-- The counter of the lower address after a packet. -/
def counted (flags : TcpFlags) (dir : FlowDir) (state : TcpState) (count : UInt32) : UInt32 :=
  if flags.isSynOnly && dir == .clientToServer then count + 1
  else if (flags.isSynAck || flags.isRst) && state.isHalfOpen then if count = 0 then 0 else count - 1
  else count

/-- The flags that the table looks at. -/
theorem TcpFlags.kinds (f : TcpFlags) :
    (f.isSynOnly = true ∧ f.isSynAck = false ∧ f.isRst = false ∧ f.isAckOnly = false) ∨
    (f.isSynOnly = false ∧ f.isSynAck = true ∧ f.isRst = false ∧ f.isAckOnly = false) ∨
    (f.isSynOnly = false ∧ f.isSynAck = false ∧ f.isRst = true ∧ f.isAckOnly = false) ∨
    (f.isSynOnly = false ∧ f.isSynAck = false ∧ f.isRst = false ∧ f.isAckOnly = true) ∨
    (f.isSynOnly = false ∧ f.isSynAck = false ∧ f.isRst = false ∧ f.isAckOnly = false) := by
  obtain ⟨syn, ack, fin, rst, psh, urg⟩ := f
  cases syn <;> cases ack <;> cases fin <;> cases rst <;>
    simp [TcpFlags.isSynOnly, TcpFlags.isSynAck, TcpFlags.isRst, TcpFlags.isAckOnly]

theorem getElem?_insert_ip (t : TreeMap UInt32 UInt32 compare) (k ip : UInt32) (n : UInt32) :
    (t.insert k n)[ip]? = if ip = k then some n else t[ip]? := by
  simp only [TreeMap.getElem?_insert, Std.compare_eq_iff_eq, @eq_comm _ ip k]

theorem countHalfOpen_spec (t : FlowTable) (k ip : UInt32) (flags : TcpFlags) (dir : FlowDir) (state : TcpState) :
    (t.countHalfOpen k flags dir state).1[ip]?.getD 0 =
      if ip = k then counted flags dir state (t.halfOpen[k]?.getD 0) else t.halfOpen[ip]?.getD 0 := by
  unfold FlowTable.countHalfOpen counted
  have hkinds := flags.kinds
  by_cases hsyn : flags.isSynOnly && dir == .clientToServer
  · have hother : (flags.isSynAck || flags.isRst) = false := by
      rw [Bool.and_eq_true] at hsyn
      rcases hkinds with h | h | h | h | h <;> simp_all
    simp only [hsyn, hother, if_true, Bool.false_and, Bool.false_eq_true, if_false]
    rw [getElem?_insert_ip]
    split_ifs <;> rfl
  · simp only [hsyn, Bool.false_eq_true, if_false]
    by_cases hdec : (flags.isSynAck || flags.isRst) && state.isHalfOpen
    · simp only [hdec, if_true]
      cases hk : t.halfOpen[k]? with
      | none =>
        by_cases hip : ip = k
        · subst hip
          simp [hk]
        · simp only [hip, if_false]
      | some n =>
        simp only [getElem?_insert_ip, Option.getD_some]
        split_ifs <;> rfl
    · simp only [hdec, Bool.false_eq_true, if_false]
      split_ifs with hip
      · rw [hip]
      · rfl

/-- Half-open flows stay so but for a RST and the end of the handshake. -/
theorem isHalfOpen_nextState (state : TcpState) (flags : TcpFlags) (dir : FlowDir) :
    (FlowEntry.nextState state flags dir).isHalfOpen =
      (state.isHalfOpen && !(flags.isAckOnly && state = .synReceived && dir = .clientToServer)) := by
  cases state <;> cases dir <;> simp only [FlowEntry.nextState] <;> (try split_ifs) <;> simp_all [TcpState.isHalfOpen]

section Packet

variable (s) (src dst : Endpoint) (flags : TcpFlags) (n : UInt64) (now : ℕ)

/-- The first SYN of the flow after the packet. -/
def firstOf (s : Tracked) (key : FlowKey) (src : Endpoint) (flags : TcpFlags) : Option UInt32 :=
  s.syn key <|> if flags.isSynOnly then some src.ip else none

/-- The state of the flow after the packet. -/
def nextOf (s : Tracked) (key : FlowKey) (flags : TcpFlags) (dir : FlowDir) : TcpState :=
  if flags.isRst then .reset else FlowEntry.nextState (stateOf s key) flags dir

variable {s src dst} {key : FlowKey} {dir : FlowDir}

theorem step_flows_tcp (hcan : (rawKey src dst 6).canonical = (key, dir)) : ∃ entry : FlowEntry,
    entry.state = nextOf s key flags dir ∧
      (s.step (.tcp src dst flags n now)).table.flows = s.table.flows.insert key entry := by
  have hcan' : FlowKey.canonical ⟨src.ip, dst.ip, src.port, dst.port, 6⟩ = (key, dir) := hcan
  refine ⟨_, ?_, by simp only [Tracked.step, FlowTable.step, FlowTable.recordTcp, hcan']; rfl⟩
  simp only [FlowEntry.applyFlags, nextOf, stateOf]
  cases s.table.flows[key]? <;> rfl

theorem step_counter_tcp (hcan : (rawKey src dst 6).canonical = (key, dir)) (ip : UInt32) :
    (s.step (.tcp src dst flags n now)).counter ip =
      if ip = key.srcIp then counted flags dir (stateOf s key) (s.counter key.srcIp) else s.counter ip := by
  have hcan' : FlowKey.canonical ⟨src.ip, dst.ip, src.port, dst.port, 6⟩ = (key, dir) := hcan
  have hstate : (s.table.flows[key]?.getD (.new key now)).state = stateOf s key := by
    unfold stateOf
    cases s.table.flows[key]? <;> rfl
  simp only [Tracked.counter, Tracked.step, FlowTable.step, FlowTable.recordTcp, hcan', hstate]
  exact countHalfOpen_spec ..

/-- How many half-open flows of an address a flow is. -/
def share (half : Bool) (first : Option UInt32) (ip : UInt32) : ℕ := if half ∧ first = some ip then 1 else 0

/-- The number of half-open flows changes by that of the flow of the packet. -/
theorem step_halfOpenFrom_tcp (hcan : (rawKey src dst 6).canonical = (key, dir)) (ip : UInt32) :
    (s.step (.tcp src dst flags n now)).halfOpenFrom ip + share (stateOf s key).isHalfOpen (s.syn key) ip =
      s.halfOpenFrom ip + share (nextOf s key flags dir).isHalfOpen (firstOf s key src flags) ip := by
  obtain ⟨entry, hstate, hflows⟩ := step_flows_tcp (s := s) flags n now hcan
  have hsyn : (s.step (.tcp src dst flags n now)).firstSyn =
      Function.update s.firstSyn key (firstOf s key src flags) := by
    simp only [Tracked.step, hcan, firstOf]
  have hsame : ∀ q : FlowKey × FlowEntry, q.1 ≠ key →
      (q.2.state.isHalfOpen && decide (Function.update s.firstSyn key (firstOf s key src flags) q.1 = some ip)) =
        (q.2.state.isHalfOpen && decide (s.firstSyn q.1 = some ip)) := by
    intro q hq
    rw [Function.update_of_ne hq]
  have hcount := SortedMap.countP_insert (t := s.table.flows) hsame entry
  have hold : (if s.table.flows[key]?.any fun e => e.state.isHalfOpen && s.firstSyn key = some ip then 1 else 0) =
      share (stateOf s key).isHalfOpen (s.syn key) ip := by
    unfold stateOf Tracked.syn share
    cases s.table.flows[key]? <;> simp
  have hnew : (if entry.state.isHalfOpen && decide (Function.update s.firstSyn key (firstOf s key src flags) key =
      some ip) then 1 else 0) = share (nextOf s key flags dir).isHalfOpen (firstOf s key src flags) ip := by
    rw [Function.update_self, hstate]
    simp only [share, Bool.and_eq_true, decide_eq_true_eq]
  rw [hold, hnew] at hcount
  simpa only [Tracked.halfOpenFrom, hflows, hsyn] using hcount

/-- From exact counters, a packet keeps them exact exactly if each changes as the share of its flow does. -/
theorem exact_tcp_iff (hs : Exact s) (hcan : (rawKey src dst 6).canonical = (key, dir)) :
    Exact (s.step (.tcp src dst flags n now)) ↔
      (∀ ip, ip ≠ key.srcIp → share (stateOf s key).isHalfOpen (s.syn key) ip =
        share (nextOf s key flags dir).isHalfOpen (firstOf s key src flags) ip) ∧
      (counted flags dir (stateOf s key) (s.counter key.srcIp)).toNat +
          share (stateOf s key).isHalfOpen (s.syn key) key.srcIp =
        (s.counter key.srcIp).toNat +
          share (nextOf s key flags dir).isHalfOpen (firstOf s key src flags) key.srcIp := by
  have hcounter := step_counter_tcp (s := s) flags n now hcan
  have hopen := step_halfOpenFrom_tcp (s := s) flags n now hcan
  constructor
  · intro h
    refine ⟨fun ip hip => ?_, ?_⟩
    · have h₁ := h ip
      have h₂ := hs ip
      have h₃ := hopen ip
      rw [hcounter, if_neg hip] at h₁
      omega
    · have h₁ := h key.srcIp
      have h₂ := hs key.srcIp
      have h₃ := hopen key.srcIp
      rw [hcounter, if_pos rfl] at h₁
      omega
  · rintro ⟨hother, hsrc⟩ ip
    have h₂ := hs ip
    have h₃ := hopen ip
    rw [hcounter]
    by_cases hip : ip = key.srcIp
    · subst hip
      rw [if_pos rfl]
      omega
    · have := hother ip hip
      rw [if_neg hip]
      omega

/-- The flow of a packet is one of those of the address that began it. -/
theorem share_le (hs : Exact s) (hcan : (rawKey src dst 6).canonical = (key, dir)) (ip : UInt32) :
    share (stateOf s key).isHalfOpen (s.syn key) ip ≤ (s.counter ip).toNat := by
  -- a RST takes the flow away
  have hopen := step_halfOpenFrom_tcp (s := s) { rst := true } 0 0 hcan ip
  have hreset : share (nextOf s key { rst := true } dir).isHalfOpen (firstOf s key src { rst := true }) ip = 0 := rfl
  rw [hreset] at hopen
  rw [hs ip]
  omega

end Packet

/-! ## The kinds of packets -/

section Kinds

variable {half : Bool} {first : Option UInt32} {L src : UInt32}

theorem share_of_not (h : ¬ (half = true ∧ first ≠ none)) (ip : UInt32) : share half first ip = 0 := by
  refine if_neg ?_
  rintro ⟨hhalf, rfl⟩
  exact h ⟨hhalf, Option.some_ne_none _⟩

/-- The first SYN of a flow adds it to those of its source. -/
theorem share_orElse (ip : UInt32) : share half (first <|> some src) ip =
    share half first ip + if half = true ∧ first = none ∧ src = ip then 1 else 0 := by
  cases first <;> simp [share]

/-- No share changes exactly if the flow has no first SYN yet. -/
theorem share_lost_iff : (∀ ip, share half first ip = 0) ↔ (half → first = none) := by
  constructor
  · intro h hhalf
    cases first with
    | none => rfl
    | some ip =>
      have hip := h ip
      simp [share, hhalf] at hip
  · intro h ip
    exact share_of_not (fun hh => hh.2 (h hh.1)) ip

variable {count : UInt32}

theorem toNat_succ_eq_iff {n : ℕ} (hn : n ≤ 1) :
    (count + 1).toNat = count.toNat + n ↔ n = 1 ∧ count.toNat + 1 < 2 ^ 32 := by
  have hlt := count.toNat_lt
  rw [UInt32.toNat_add, UInt32.toNat_one]
  omega

/-- A SYN of the lower endpoint counts up: it should begin a half-open flow. -/
theorem syn_client_iff : ((∀ ip, ip ≠ L → share half first ip = share half (first <|> some L) ip) ∧
    (count + 1).toNat + share half first L = count.toNat + share half (first <|> some L) L) ↔
      (half = true ∧ first = none) ∧ count.toNat + 1 < 2 ^ 32 := by
  have hother : ∀ ip, ip ≠ L → share half first ip = share half (first <|> some L) ip := by
    intro ip hip
    rw [share_orElse, if_neg fun h => hip h.2.2.symm, Nat.add_zero]
  rw [and_iff_right hother, share_orElse]
  by_cases h : half = true ∧ first = none
  · have hone := @toNat_succ_eq_iff count _ (Nat.le_refl 1)
    rw [if_pos ⟨h.1, h.2, rfl⟩, and_iff_right h]
    omega
  · have hne := @toNat_succ_eq_iff count _ (Nat.zero_le 1)
    rw [if_neg fun h' => h ⟨h'.1, h'.2.1⟩]
    simp only [h, false_and, iff_false]
    omega

/-- A SYN of the higher endpoint is not counted: it should not begin a flow. -/
theorem syn_server_iff : ((∀ ip, ip ≠ L → share half first ip = share half (first <|> some src) ip) ∧
    count.toNat + share half first L = count.toNat + share half (first <|> some src) L) ↔
      ¬ (half = true ∧ first = none) := by
  simp only [share_orElse, Nat.add_left_cancel_iff, Nat.left_eq_add, ite_eq_right_iff, one_ne_zero, imp_false]
  constructor
  · rintro ⟨hother, hsrc⟩ h
    by_cases hL : src = L
    · exact hsrc ⟨h.1, h.2, hL⟩
    · exact hother src hL ⟨h.1, h.2, rfl⟩
  · intro h
    exact ⟨fun ip _ h' => h ⟨h'.1, h'.2.1⟩, fun h' => h ⟨h'.1, h'.2.1⟩⟩

/-- A SYN-ACK for a half-open flow counts down, but the flow stays half open. -/
theorem synAck_iff {n : ℕ} :
    (if half then if count = 0 then 0 else count - 1 else count).toNat + n = count.toNat + n ↔
      (half = true → count = 0) := by
  rw [Nat.add_right_cancel_iff, UInt32.toNat_inj]
  by_cases hc : count = 0
  · simp [hc]
  · have hne : count - 1 ≠ count := fun h => by
      have := congrArg (fun c => c - count + 1) h
      simp at this
    cases half <;> simp [hc, hne]

/-- A RST of a half-open flow counts down, and the flow is half open no more. -/
theorem rst_iff (hle : share half first L ≤ count.toNat) :
    ((∀ ip, ip ≠ L → share half first ip = 0) ∧
      (if half then if count = 0 then 0 else count - 1 else count).toNat + share half first L = count.toNat) ↔
      (half = true → first = some L ∨ first = none ∧ count = 0) := by
  cases half with
  | false => simp [share]
  | true =>
    simp only [if_true, forall_const]
    cases first with
    | none =>
      have hpred : (if count = 0 then 0 else count - 1).toNat = count.toNat ↔ count = 0 := by
        simpa using @synAck_iff true count 0
      simpa [share] using hpred
    | some ip =>
      by_cases hip : ip = L
      · subst hip
        have hshare : share true (some ip) ip = 1 := if_pos ⟨rfl, rfl⟩
        have hpos : count ≠ 0 := by
          rintro rfl
          rw [hshare] at hle
          exact absurd hle (by decide)
        have hother : ∀ ip', ip' ≠ ip → share true (some ip) ip' = 0 := fun ip' hne => by simp [share, hne.symm]
        have hpred : (count - 1).toNat + 1 = count.toNat := by
          rw [hshare] at hle
          have hone : (1 : UInt32).toNat = 1 := rfl
          rw [UInt32.toNat_sub_of_le _ _ (UInt32.le_iff_toNat_le.2 (hone ▸ hle)), hone]
          exact Nat.sub_add_cancel hle
        rw [if_neg hpos, hshare, hpred]
        exact iff_of_true ⟨hother, rfl⟩ (.inl rfl)
      · refine iff_of_false (fun h => ?_) (by simp [hip])
        have hzero := h.1 ip hip
        simp [share] at hzero

/-- The end of the handshake is not counted. -/
theorem ack_iff {last : Bool} : ((∀ ip, ip ≠ L → share half first ip = share (half && !last) first ip) ∧
    count.toNat + share half first L = count.toNat + share (half && !last) first L) ↔
      (half = true → last = true → first = none) := by
  have hall : ((∀ ip, ip ≠ L → share half first ip = share (half && !last) first ip) ∧
      count.toNat + share half first L = count.toNat + share (half && !last) first L) ↔
        ∀ ip, share half first ip = share (half && !last) first ip := by
    rw [Nat.add_left_cancel_iff]
    refine ⟨fun h ip => ?_, fun h => ⟨fun ip _ => h ip, h L⟩⟩
    by_cases hip : ip = L
    · exact hip ▸ h.2
    · exact h.1 ip hip
  rw [hall]
  cases last with
  | false => simp
  | true =>
    have hnot : ∀ ip, share (half && !true) first ip = 0 := fun ip => by simp [share]
    simp only [hnot, share_lost_iff, forall_const]

end Kinds

/-! ## One call -/

theorem srcIp_of_client {src dst : Endpoint} {key : FlowKey} (h : (rawKey src dst 6).canonical = (key, .clientToServer)) :
    key.srcIp = src.ip := by
  unfold FlowKey.canonical at h
  split_ifs at h
  · cases h
    rfl
  · cases h

/-- **From exact counters, a packet keeps them exact exactly if it is balanced.** -/
theorem exact_step_tcp_iff (hs : Exact s) (src dst : Endpoint) (flags : TcpFlags) (n : UInt64) (now : ℕ) :
    Exact (s.step (.tcp src dst flags n now)) ↔ Balanced s (.tcp src dst flags n now) := by
  rcases hcan : (rawKey src dst 6).canonical with ⟨key, dir⟩
  rw [exact_tcp_iff flags n now hs hcan]
  have hnext : (nextOf s key flags dir).isHalfOpen = (!flags.isRst && ((stateOf s key).isHalfOpen &&
      !(flags.isAckOnly && stateOf s key = .synReceived && dir = .clientToServer))) := by
    unfold nextOf
    cases flags.isRst
    · exact isHalfOpen_nextState ..
    · rfl
  have hle := share_le hs hcan key.srcIp
  simp only [Tracked.Balanced, hcan]
  rw [hnext]
  unfold firstOf counted
  have hnone : (s.syn key <|> none) = s.syn key := by cases s.syn key <;> rfl
  rcases flags.kinds with h | h | h | h | h <;> obtain ⟨hsyn, hack, hrst, hackOnly⟩ := h <;>
    simp only [hsyn, hack, hrst, hackOnly, Bool.false_eq_true, if_true, if_false, Bool.not_false, Bool.not_true,
      Bool.true_and, Bool.false_and, Bool.and_true, Bool.or_false, Bool.false_or, false_imp_iff, true_imp_iff,
      and_true, true_and, hnone]
  · cases dir with
    | clientToServer =>
      rw [← srcIp_of_client hcan]
      simpa using syn_client_iff
    | serverToClient =>
      have hserver := @syn_server_iff (s.stateOf key).isHalfOpen (s.syn key) key.srcIp src.ip (s.counter key.srcIp)
      simpa using hserver
  · rw [synAck_iff]
    simp
  · exact rst_iff hle
  · refine ack_iff.trans ?_
    simp only [Bool.and_eq_true, decide_eq_true_eq]
    constructor
    · intro h hstate hdir
      exact h (by rw [hstate]; rfl) ⟨hstate, hdir⟩
    · intro h _ hlast
      exact h hlast.1 hlast.2
  · simp

/-- A UDP packet changes no state and begins no half-open flow. -/
theorem exact_step_udp (hs : Exact s) (src dst : Endpoint) (n : UInt64) (now : ℕ) :
    Exact (s.step (.udp src dst n now)) := by
  intro ip
  have hcount := SortedMap.countP_insert (t := s.table.flows) (k := (rawKey src dst 17).canonical.1)
    (p := fun p => p.2.state.isHalfOpen && s.firstSyn p.1 = some ip) (fun _ _ => rfl)
  rcases hcan : (rawKey src dst 17).canonical with ⟨key, dir⟩
  have hcan' : FlowKey.canonical ⟨src.ip, dst.ip, src.port, dst.port, 17⟩ = (key, dir) := hcan
  rw [hcan] at hcount
  obtain ⟨entry, hflows, hstate⟩ : ∃ entry : FlowEntry,
      (s.step (.udp src dst n now)).table.flows = s.table.flows.insert key entry ∧
        entry.state = (s.table.flows[key]?.map (·.state)).getD .established := by
    refine ⟨_, by simp only [Tracked.step, FlowTable.step, FlowTable.recordUdp, hcan']; rfl, ?_⟩
    cases s.table.flows[key]? <;> rfl
  have hentry := hcount entry
  rw [hstate] at hentry
  show (s.counter ip).toNat = (s.step (.udp src dst n now)).table.flows.toList.countP _
  rw [hs ip, hflows]
  cases hk : s.table.flows[key]? with
  | none =>
    simp only [hk] at hentry
    exact hentry.symm
  | some e =>
    simp only [hk] at hentry
    exact (Nat.add_right_cancel hentry).symm

/-- **From exact counters, a sweep keeps them exact exactly if no flow that began with a SYN expires half open.** -/
theorem exact_step_sweep_iff (hs : Exact s) (now : ℕ) : Exact (s.step (.sweep now)) ↔ Tracked.Balanced s (.sweep now) := by
  have hstep : ∀ ip, (s.step (.sweep now)).halfOpenFrom ip = s.halfOpenFrom ip ↔
      ∀ key entry, s.table.flows[key]? = some entry → entry.state.isHalfOpen → s.firstSyn key = some ip →
        entry.idle now < if key.protocol = 6 then s.table.tcpTimeout else s.table.udpTimeout := by
    intro ip
    -- the kept ones among the half-open entries are all of them
    let half : FlowKey × FlowEntry → Bool := fun p => p.2.state.isHalfOpen && s.firstSyn p.1 = some ip
    have hkept : (s.step (.sweep now)).halfOpenFrom ip = (s.table.flows.toList.filter half).countP fun p =>
        !p.2.state.isClosed && decide (p.2.idle now <
          if p.1.protocol = 6 then s.table.tcpTimeout else s.table.udpTimeout) := by
      simp only [Tracked.halfOpenFrom, Tracked.step, FlowTable.step, FlowTable.sweepExpired, TreeMap.toList_filter,
        List.countP_filter]
      refine List.countP_congr fun p _ => ?_
      rw [Bool.and_comm]
      exact Iff.rfl
    rw [hkept, Tracked.halfOpenFrom, List.countP_eq_length_filter (l := s.table.flows.toList), List.countP_eq_length]
    simp only [half, List.mem_filter, Bool.and_eq_true, decide_eq_true_eq, and_imp, Prod.forall,
      TreeMap.mem_toList_iff_getElem?_eq_some]
    refine forall₅_congr fun key entry hkey hhalf hfirst => ?_
    rw [and_iff_right_iff_imp]
    intro _
    cases hstate : entry.state <;> first | rfl | (rw [hstate] at hhalf; cases hhalf)
  constructor
  · intro h key entry hkey hhalf hfirst
    obtain ⟨ip, hip⟩ := Option.ne_none_iff_exists'.1 hfirst
    exact (hstep ip).1 ((h ip).symm.trans (hs ip)) key entry hkey hhalf hip
  · intro h ip
    exact (hs ip).trans ((hstep ip).2 fun key entry hkey hhalf hip =>
      h key entry hkey hhalf (hip ▸ Option.some_ne_none ip)).symm

theorem exact_step_iff (hs : Exact s) (c : Call) : Exact (s.step c) ↔ Tracked.Balanced s c := by
  cases c with
  | tcp src dst flags n now => exact exact_step_tcp_iff hs src dst flags n now
  | udp src dst n now => exact iff_of_true (exact_step_udp hs src dst n now) trivial
  | sweep now => exact exact_step_sweep_iff hs now

/-! ## Runs -/

end ThorFirewall.Ids
