import Mathlib

/-!
# The flow table (`ids/flow.rs`)

A flow is an unordered pair of endpoints with a protocol. Its key is the direction in which the lower endpoint is the
source, and a packet from that endpoint counts as sent by the client. A TCP packet advances the state of its flow by its
flags and its direction; half-open connections are counted per source address. The clock reads the same throughout one
call; times are nanoseconds, and rates are exact.

- `FlowTable.recordTcp`, `recordUdp`, `sweepExpired`: the operations;
- `recordTcp_flows`, `recordUdp_flows`: a packet changes the entry of its own flow only;
- `run_flows`: after any packets, the entry of a flow is made by its own packets, in order.
-/

namespace ThorFirewall.Ids

open Std

/-! ## States and flags -/

inductive TcpState
  | synSent
  | synReceived
  | established
  | finWait1
  | finWait2
  | closeWait
  | closing
  | timeWait
  | closed
  | reset
  deriving DecidableEq, Repr

def TcpState.isClosed : TcpState → Bool
  | closed => true
  | reset => true
  | _ => false

def TcpState.isHalfOpen : TcpState → Bool
  | synSent => true
  | synReceived => true
  | _ => false

structure TcpFlags where
  syn : Bool := false
  ack : Bool := false
  fin : Bool := false
  rst : Bool := false
  psh : Bool := false
  urg : Bool := false
  deriving DecidableEq, Repr

namespace TcpFlags

def isSynOnly (f : TcpFlags) : Bool := f.syn && !f.ack && !f.fin && !f.rst

def isSynAck (f : TcpFlags) : Bool := f.syn && f.ack && !f.fin && !f.rst

def isRst (f : TcpFlags) : Bool := f.rst

def isAckOnly (f : TcpFlags) : Bool := f.ack && !f.syn && !f.fin && !f.rst

end TcpFlags

inductive FlowDir
  | clientToServer
  | serverToClient
  deriving DecidableEq, Repr

/-! ## Keys -/

structure FlowKey where
  srcIp : UInt32
  dstIp : UInt32
  srcPort : UInt16
  dstPort : UInt16
  protocol : UInt8
  deriving DecidableEq, Repr

namespace FlowKey

/-- Bidirectional canonical key: the lower address, and then the lower port, is the source. -/
def canonical (k : FlowKey) : FlowKey × FlowDir :=
  if k.srcIp < k.dstIp ∨ (k.srcIp = k.dstIp ∧ k.srcPort ≤ k.dstPort) then (k, .clientToServer)
  else
    ({ srcIp := k.dstIp, dstIp := k.srcIp, srcPort := k.dstPort, dstPort := k.srcPort, protocol := k.protocol },
      .serverToClient)

/-- An order of keys. -/
def cmp : FlowKey → FlowKey → Ordering :=
  compareLex (compareOn srcIp) <| compareLex (compareOn dstIp) <| compareLex (compareOn srcPort) <|
    compareLex (compareOn dstPort) (compareOn protocol)

instance : TransCmp cmp :=
  inferInstanceAs (TransCmp (compareLex (compareOn srcIp) <| compareLex (compareOn dstIp) <|
    compareLex (compareOn srcPort) <| compareLex (compareOn dstPort) (compareOn protocol)))

theorem cmp_eq_iff {a b : FlowKey} : cmp a b = .eq ↔ a = b := by
  simp only [cmp, compareLex_eq_eq, compareOn, Std.compare_eq_iff_eq]
  constructor
  · rintro ⟨h₁, h₂, h₃, h₄, h₅⟩
    cases a
    cases b
    simp_all
  · rintro rfl
    exact ⟨rfl, rfl, rfl, rfl, rfl⟩

instance : LawfulEqCmp cmp where
  eq_of_compare := cmp_eq_iff.1
  compare_self := cmp_eq_iff.2 rfl

end FlowKey

/-! ## Statistics -/

structure FlowStats where
  packetsC2s : UInt64 := 0
  packetsS2c : UInt64 := 0
  bytesC2s : UInt64 := 0
  bytesS2c : UInt64 := 0
  lastPacket : Option ℕ := none
  startTime : Option ℕ := none
  emaIpdMs : ℚ := 0
  deriving DecidableEq, Repr

namespace FlowStats

def recordPacket (s : FlowStats) (dir : FlowDir) (bytes : UInt64) (now : ℕ) : FlowStats :=
  let s := match s.lastPacket with
    | some last =>
      let ipdMs : ℕ := (now - last) / 10 ^ 6
      { s with emaIpdMs := 7 / 8 * s.emaIpdMs + 1 / 8 * ipdMs }
    | none => { s with startTime := some now }
  let s := { s with lastPacket := some now }
  match dir with
  | .clientToServer => { s with packetsC2s := s.packetsC2s + 1, bytesC2s := s.bytesC2s + bytes }
  | .serverToClient => { s with packetsS2c := s.packetsS2c + 1, bytesS2c := s.bytesS2c + bytes }

section Counters

variable (s : FlowStats) (bytes : UInt64) (now : ℕ)

@[simp] theorem packetsC2s_client : (s.recordPacket .clientToServer bytes now).packetsC2s = s.packetsC2s + 1 := by
  unfold recordPacket
  cases s.lastPacket <;> rfl

@[simp] theorem packetsS2c_client : (s.recordPacket .clientToServer bytes now).packetsS2c = s.packetsS2c := by
  unfold recordPacket
  cases s.lastPacket <;> rfl

@[simp] theorem bytesC2s_client : (s.recordPacket .clientToServer bytes now).bytesC2s = s.bytesC2s + bytes := by
  unfold recordPacket
  cases s.lastPacket <;> rfl

@[simp] theorem bytesS2c_client : (s.recordPacket .clientToServer bytes now).bytesS2c = s.bytesS2c := by
  unfold recordPacket
  cases s.lastPacket <;> rfl

@[simp] theorem packetsC2s_server : (s.recordPacket .serverToClient bytes now).packetsC2s = s.packetsC2s := by
  unfold recordPacket
  cases s.lastPacket <;> rfl

@[simp] theorem packetsS2c_server : (s.recordPacket .serverToClient bytes now).packetsS2c = s.packetsS2c + 1 := by
  unfold recordPacket
  cases s.lastPacket <;> rfl

@[simp] theorem bytesC2s_server : (s.recordPacket .serverToClient bytes now).bytesC2s = s.bytesC2s := by
  unfold recordPacket
  cases s.lastPacket <;> rfl

@[simp] theorem bytesS2c_server : (s.recordPacket .serverToClient bytes now).bytesS2c = s.bytesS2c + bytes := by
  unfold recordPacket
  cases s.lastPacket <;> rfl

end Counters

def totalPackets (s : FlowStats) : UInt64 := s.packetsC2s + s.packetsS2c

def totalBytes (s : FlowStats) : UInt64 := s.bytesC2s + s.bytesS2c

/-- A total per second since the flow started. -/
def rate (s : FlowStats) (total : UInt64) (now : ℕ) : ℚ :=
  match s.startTime with
  | some start => if 0 < now - start then total.toNat / (((now - start : ℕ) : ℚ) / 10 ^ 9) else 0
  | none => 0

def pps (s : FlowStats) (now : ℕ) : ℚ := s.rate s.totalPackets now

def bps (s : FlowStats) (now : ℕ) : ℚ := s.rate s.totalBytes now

end FlowStats

/-! ## Entries -/

structure FlowEntry where
  key : FlowKey
  state : TcpState
  stats : FlowStats
  lastSeen : ℕ
  deriving DecidableEq, Repr

namespace FlowEntry

def new (key : FlowKey) (now : ℕ) : FlowEntry where
  key := key
  state := .synSent
  stats := {}
  lastSeen := now

/-- The transition table. -/
def nextState (state : TcpState) (flags : TcpFlags) (dir : FlowDir) : TcpState :=
  match state, dir with
  | .synSent, .serverToClient => if flags.isSynAck then .synReceived else .synSent
  | .synReceived, .clientToServer => if flags.isAckOnly then .established else .synReceived
  | .established, .clientToServer => if flags.fin then .finWait1 else .established
  | .finWait1, .serverToClient => if flags.isAckOnly then .finWait2 else .finWait1
  | .finWait2, .serverToClient => if flags.fin then .timeWait else .finWait2
  | .timeWait, _ => .closed
  | .established, .serverToClient => if flags.fin then .closeWait else .established
  | .closeWait, .clientToServer => if flags.fin then .closing else .closeWait
  | .closing, _ => .closed
  | state, _ => state

def applyFlags (e : FlowEntry) (flags : TcpFlags) (dir : FlowDir) (now : ℕ) : FlowEntry :=
  { e with lastSeen := now, state := if flags.isRst then .reset else nextState e.state flags dir }

def idle (e : FlowEntry) (now : ℕ) : ℕ := now - e.lastSeen

end FlowEntry

/-! ## The table -/

inductive FlowAnomaly
  | synFlood
  | ppsSpike
  | bpsSpike
  | longIdle
  deriving DecidableEq, Repr

structure FlowTable where
  flows : TreeMap FlowKey FlowEntry FlowKey.cmp
  tcpTimeout : ℕ
  udpTimeout : ℕ
  halfOpen : TreeMap UInt32 UInt32 compare
  synFloodThr : UInt32

namespace FlowTable

def new : FlowTable where
  flows := ∅
  tcpTimeout := 30 * 10 ^ 9
  udpTimeout := 10 * 10 ^ 9
  halfOpen := ∅
  synFloodThr := 100

/-- The half-open counters after a TCP packet, and whether they show a SYN flood. `state` is the state before it. -/
def countHalfOpen (t : FlowTable) (srcIp : UInt32) (flags : TcpFlags) (dir : FlowDir) (state : TcpState) :
    TreeMap UInt32 UInt32 compare × Bool :=
  let (halfOpen, flood) :=
    if flags.isSynOnly && dir == .clientToServer then
      let count := t.halfOpen[srcIp]?.getD 0 + 1
      (t.halfOpen.insert srcIp count, decide (t.synFloodThr ≤ count))
    else (t.halfOpen, false)
  if (flags.isSynAck || flags.isRst) && state.isHalfOpen then
    match halfOpen[srcIp]? with
    | some c => (halfOpen.insert srcIp (if c = 0 then 0 else c - 1), flood)
    | none => (halfOpen, flood)
  else (halfOpen, flood)

def recordTcp (t : FlowTable) (src dst : UInt32) (sport dport : UInt16) (flags : TcpFlags) (payloadLen : UInt64)
    (now : ℕ) : FlowTable × List FlowAnomaly :=
  let (canKey, dir) := FlowKey.canonical ⟨src, dst, sport, dport, 6⟩
  let entry := t.flows[canKey]?.getD (.new canKey now)
  let (halfOpen, flood) := t.countHalfOpen canKey.srcIp flags dir entry.state
  let entry := { entry with stats := entry.stats.recordPacket dir payloadLen now }
  let entry := entry.applyFlags flags dir now
  let anomalies :=
    (if flood then [FlowAnomaly.synFlood] else []) ++
    (if 10000 < entry.stats.pps now then [.ppsSpike] else []) ++
    (if 100000000 < entry.stats.bps now then [.bpsSpike] else []) ++
    (if 300 * 10 ^ 9 < entry.idle now then [.longIdle] else [])
  ({ t with flows := t.flows.insert canKey entry, halfOpen }, anomalies)

/-- The entry of a new flow keeps the key of its first packet as it came. -/
def recordUdp (t : FlowTable) (src dst : UInt32) (sport dport : UInt16) (payloadLen : UInt64) (now : ℕ) : FlowTable :=
  let rawKey : FlowKey := ⟨src, dst, sport, dport, 17⟩
  let (canKey, dir) := rawKey.canonical
  let entry := t.flows[canKey]?.getD { FlowEntry.new rawKey now with state := .established }
  let entry := { entry with stats := entry.stats.recordPacket dir payloadLen now, lastSeen := now }
  { t with flows := t.flows.insert canKey entry }

/-- The number of removed flows is the result. -/
def sweepExpired (t : FlowTable) (now : ℕ) : FlowTable × ℕ :=
  let flows := t.flows.filter fun key entry =>
    !entry.state.isClosed && decide (entry.idle now < if key.protocol = 6 then t.tcpTimeout else t.udpTimeout)
  ({ t with flows }, t.flows.size - flows.size)

def halfOpenCount (t : FlowTable) : ℕ := (t.flows.values.filter fun e => e.state.isHalfOpen).length

def getFlowStats (t : FlowTable) (src dst : UInt32) (sport dport : UInt16) : Option FlowStats :=
  t.flows[(FlowKey.canonical ⟨src, dst, sport, dport, 6⟩).1]?.map (·.stats)

end FlowTable

/-! ## Calls -/

structure Endpoint where
  ip : UInt32
  port : UInt16
  deriving DecidableEq, Repr

/-- The key of a packet as it came. -/
def rawKey (src dst : Endpoint) (protocol : UInt8) : FlowKey := ⟨src.ip, dst.ip, src.port, dst.port, protocol⟩

inductive Call
  | tcp (src dst : Endpoint) (flags : TcpFlags) (payloadLen : UInt64) (now : ℕ)
  | udp (src dst : Endpoint) (payloadLen : UInt64) (now : ℕ)
  | sweep (now : ℕ)
  deriving DecidableEq, Repr

namespace Call

def isPacket : Call → Bool
  | tcp _ _ _ _ _ => true
  | udp _ _ _ _ => true
  | sweep _ => false

/-- The flow of a packet. -/
def key : Call → Option FlowKey
  | tcp src dst _ _ _ => some (rawKey src dst 6).canonical.1
  | udp src dst _ _ => some (rawKey src dst 17).canonical.1
  | sweep _ => none

end Call

namespace FlowTable

def step (t : FlowTable) : Call → FlowTable
  | .tcp src dst flags payloadLen now => (t.recordTcp src.ip dst.ip src.port dst.port flags payloadLen now).1
  | .udp src dst payloadLen now => t.recordUdp src.ip dst.ip src.port dst.port payloadLen now
  | .sweep now => (t.sweepExpired now).1

def run (t : FlowTable) (calls : List Call) : FlowTable := calls.foldl step t

end FlowTable

/-! ## One flow -/

/-- What a packet does to the entry of its flow. -/
def entryStep (e : Option FlowEntry) : Call → Option FlowEntry
  | .tcp src dst flags payloadLen now =>
    let (canKey, dir) := (rawKey src dst 6).canonical
    let entry := e.getD (.new canKey now)
    some ({ entry with stats := entry.stats.recordPacket dir payloadLen now }.applyFlags flags dir now)
  | .udp src dst payloadLen now =>
    let entry := e.getD { FlowEntry.new (rawKey src dst 17) now with state := .established }
    some { entry with stats := entry.stats.recordPacket (rawKey src dst 17).canonical.2 payloadLen now, lastSeen := now }
  | .sweep _ => e

theorem entryStep_tcp {src dst : Endpoint} {canKey : FlowKey} {dir : FlowDir}
    (h : (rawKey src dst 6).canonical = (canKey, dir)) (e : Option FlowEntry) (flags : TcpFlags) (payloadLen : UInt64)
    (now : ℕ) : entryStep e (.tcp src dst flags payloadLen now) =
      some ({ e.getD (.new canKey now) with
        stats := (e.getD (.new canKey now)).stats.recordPacket dir payloadLen now }.applyFlags flags dir now) := by
  simp only [entryStep, h]

theorem getElem?_insert (flows : TreeMap FlowKey FlowEntry FlowKey.cmp) (k key : FlowKey) (e : FlowEntry) :
    (flows.insert k e)[key]? = if k = key then some e else flows[key]? := by
  simp only [TreeMap.getElem?_insert, FlowKey.cmp_eq_iff]

/-- **A packet changes the entry of its own flow only.** -/
theorem step_flows (t : FlowTable) {c : Call} (hc : c.isPacket) (key : FlowKey) :
    (t.step c).flows[key]? = if c.key = some key then entryStep t.flows[key]? c else t.flows[key]? := by
  cases c with
  | tcp src dst flags payloadLen now =>
    simp only [FlowTable.step, FlowTable.recordTcp, Call.key, Option.some.injEq]
    rw [getElem?_insert]
    by_cases hk : (rawKey src dst 6).canonical.1 = key
    · subst hk
      rw [if_pos rfl]
      exact if_pos rfl
    · rw [if_neg hk]
      exact if_neg hk
  | udp src dst payloadLen now =>
    simp only [FlowTable.step, FlowTable.recordUdp, Call.key, Option.some.injEq]
    rw [getElem?_insert]
    by_cases hk : (rawKey src dst 17).canonical.1 = key
    · subst hk
      rw [if_pos rfl]
      exact if_pos rfl
    · rw [if_neg hk]
      exact if_neg hk
  | sweep now => cases hc

/-- **The entry of a flow is made by its own packets**, whatever comes between them. -/
theorem run_flows (t : FlowTable) {calls : List Call} (hcalls : ∀ c ∈ calls, c.isPacket) (key : FlowKey) :
    (t.run calls).flows[key]? = (calls.filter fun c => c.key = some key).foldl entryStep t.flows[key]? := by
  induction calls generalizing t with
  | nil => rfl
  | cons c calls ih =>
    have hc := hcalls c List.mem_cons_self
    have hrun : (t.run (c :: calls)).flows[key]? = ((t.step c).run calls).flows[key]? := rfl
    rw [hrun, ih (t.step c) fun c' hc' => hcalls c' (List.mem_cons_of_mem c hc'), step_flows t hc]
    by_cases hk : c.key = some key
    · rw [if_pos hk, List.filter_cons_of_pos (by simpa using hk), List.foldl_cons]
    · rw [if_neg hk, List.filter_cons_of_neg (by simpa using hk)]

/-! ## The canonical direction -/

/-- The first endpoint is the lower one: by its address, and then by its port. -/
def Endpoint.Below (a b : Endpoint) : Prop := a.ip < b.ip ∨ (a.ip = b.ip ∧ a.port < b.port)

instance (a b : Endpoint) : Decidable (a.Below b) := inferInstanceAs (Decidable (_ ∨ _))

theorem Endpoint.below_iff {a b : Endpoint} : a.Below b ↔
    a.ip.toNat < b.ip.toNat ∨ (a.ip.toNat = b.ip.toNat ∧ a.port.toNat < b.port.toNat) := by
  rw [Below, UInt32.lt_iff_toNat_lt, UInt16.lt_iff_toNat_lt, UInt32.toNat_inj]

theorem Endpoint.below_or_below {a b : Endpoint} (h : a ≠ b) : a.Below b ∨ b.Below a := by
  have hne : a.ip.toNat ≠ b.ip.toNat ∨ a.port.toNat ≠ b.port.toNat := by
    by_contra hboth
    obtain ⟨hip, hport⟩ := not_or.1 hboth
    rw [not_not, UInt32.toNat_inj] at hip
    rw [not_not, UInt16.toNat_inj] at hport
    cases a
    cases b
    exact h (by rw [mk.injEq]; exact ⟨hip, hport⟩)
  rw [below_iff, below_iff]
  omega

theorem Endpoint.Below.not_below {a b : Endpoint} (h : a.Below b) : ¬ b.Below a := by
  rw [below_iff] at h ⊢
  omega

/-- A packet of the lower endpoint has the canonical key, and counts as sent by the client. -/
theorem canonical_of_below {a b : Endpoint} (h : a.Below b) (protocol : UInt8) :
    (rawKey a b protocol).canonical = (rawKey a b protocol, .clientToServer) ∧
      (rawKey b a protocol).canonical = (rawKey a b protocol, .serverToClient) := by
  rw [Endpoint.below_iff] at h
  constructor
  · refine if_pos ?_
    simp only [rawKey, UInt32.lt_iff_toNat_lt, UInt16.le_iff_toNat_le, ← UInt32.toNat_inj]
    omega
  · refine if_neg ?_
    simp only [rawKey, UInt32.lt_iff_toNat_lt, UInt16.le_iff_toNat_le, ← UInt32.toNat_inj]
    omega

end ThorFirewall.Ids
