import Mathlib

/-!
# The XDP program (`xdp_drop.bpf.c`)

`thor_xdp_drop` looks at the headers of a packet, at its maps and at the clock, and drops the packet or lets it pass; on
the way it counts. Loads are those of a little-endian machine. The events of the ring buffers and the registers of
HyperLogLog, which nothing here reads, are left out, and so is the eviction of old entries from the LRU maps.

- `counted_iff`: the verdict agrees with `packets_dropped` exactly if the packet takes none of the exits of `Uncounted`.
-/

namespace ThorFirewall.Bpf

/-! ## Maps -/

structure ThorStats where
  packetsProcessed : UInt64
  packetsDropped : UInt64
  eventsGenerated : UInt64
  ipBlocklistHits : UInt64
  portBlocklistHits : UInt64
  rateLimitHits : UInt64
  malformedPackets : UInt64
  processExecEvents : UInt64
  processExitEvents : UInt64
  networkConnectEvents : UInt64
  errors : UInt64
  deriving DecidableEq

/-- A prefix of an address: its length in bits, and the bytes of the address. -/
structure LpmKey where
  prefixlen : ℕ
  ip : List UInt8

/-- `struct rate_state` and `struct syn_state`. -/
structure RateState where
  lastTs : UInt64
  count : UInt32

structure RateLimitCfg where
  pps : UInt32
  windowNs : UInt64
  synPps : UInt32

structure Maps where
  blocklistIps : List LpmKey
  blocklistIpsV6 : List LpmKey
  blocklistPorts : UInt16 → Bool
  stats : Option ThorStats
  rateStates : UInt32 → Option RateState
  synStates : UInt32 → Option RateState
  rateConfig : Option RateLimitCfg

/-- The bits of an address, the most significant one of each byte first. -/
def bits (ip : List UInt8) : List Bool := ip.flatMap fun b => (List.range 8).map fun i => b.toNat.testBit (7 - i)

/-- A lookup in an LPM trie finds an entry. -/
def lpmFinds (entries : List LpmKey) (ip : List UInt8) : Bool :=
  entries.any fun e => (bits e.ip).take e.prefixlen == (bits ip).take e.prefixlen

/-- A count of one more, if the entry is there. -/
def Maps.count (m : Maps) (add : ThorStats → ThorStats) : Maps := { m with stats := m.stats.map add }

def malformed (s : ThorStats) : ThorStats := { s with malformedPackets := s.malformedPackets + 1 }

def dropped (s : ThorStats) : ThorStats := { s with packetsDropped := s.packetsDropped + 1 }

def processed (s : ThorStats) : ThorStats := { s with packetsProcessed := s.packetsProcessed + 1 }

def ipHit (s : ThorStats) : ThorStats := { s with ipBlocklistHits := s.ipBlocklistHits + 1 }

def portHit (s : ThorStats) : ThorStats := { s with portBlocklistHits := s.portBlocklistHits + 1 }

def rateHit (s : ThorStats) : ThorStats := { s with rateLimitHits := s.rateLimitHits + 1 }

/-! ## Rates -/

/-- One more packet of an address: the new state, and whether there were more than `limit` in the window. -/
def checkState (states : UInt32 → Option RateState) (limit : UInt32) (window now : UInt64) (srcIp : UInt32) :
    (UInt32 → Option RateState) × Bool :=
  match states srcIp with
  | none => (Function.update states srcIp (some ⟨now, 1⟩), false)
  | some state =>
    if window < now - state.lastTs then (Function.update states srcIp (some ⟨now, 1⟩), false)
    else (Function.update states srcIp (some { state with count := state.count + 1 }), limit < state.count + 1)

def checkRateLimit (m : Maps) (now : UInt64) (srcIp : UInt32) : Maps × Bool :=
  let pps := (m.rateConfig.map (·.pps)).getD 10000
  let window := (m.rateConfig.map (·.windowNs)).getD 1000000000
  let (states, exceeded) := checkState m.rateStates pps window now srcIp
  ({ m with rateStates := states }, exceeded)

def checkSynFlood (m : Maps) (now : UInt64) (srcIp : UInt32) : Maps × Bool :=
  let synPps := (m.rateConfig.map (·.synPps)).getD 500
  let (states, exceeded) := checkState m.synStates synPps 1000000000 now srcIp
  ({ m with synStates := states }, exceeded)

/-! ## Headers -/

section Headers

variable (data : List UInt8)

def byteAt (pos : ℕ) : UInt8 := data.getD pos 0

/-- A load of two bytes. -/
def u16At (pos : ℕ) : UInt16 := (byteAt data pos).toUInt16 + 256 * (byteAt data (pos + 1)).toUInt16

/-- A load of four bytes. -/
def u32At (pos : ℕ) : UInt32 := (u16At data pos).toUInt32 + 65536 * (u16At data (pos + 2)).toUInt32

/-- `bpf_ntohs(eth->h_proto)`. -/
def ethProto : UInt16 := 256 * (byteAt data 12).toUInt16 + (byteAt data 13).toUInt16

/-- The transport header of a packet, as far as the program looks into it. -/
inductive Transport
  /-- The packet ends before the header does. -/
  | truncated
  | icmpRedirect
  | ports (src dst : UInt16) (syn : Bool)
  deriving DecidableEq

/-- The header of TCP or UDP at a position; other protocols have no ports. -/
def portsAt (proto : UInt8) (pos : ℕ) : Transport :=
  if proto = 6 then
    if data.length < pos + 20 then .truncated
    else .ports (u16At data pos) (u16At data (pos + 2))
      ((byteAt data (pos + 13)).toNat.testBit 1 && !(byteAt data (pos + 13)).toNat.testBit 4)
  else if proto = 17 then
    if data.length < pos + 8 then .truncated else .ports (u16At data pos) (u16At data (pos + 2)) false
  else .ports 0 0 false

/-- Behind the IPv4 header, whose length is in its first byte. -/
def transport4 : Transport :=
  let pos := 14 + (byteAt data 14).toNat % 16 * 4
  if byteAt data 23 = 1 then
    if data.length < pos + 8 then .truncated
    else if byteAt data pos = 5 then .icmpRedirect
    else .ports 0 0 false
  else portsAt data (byteAt data 23) pos

def transport6 : Transport := portsAt data (byteAt data 20) 54

def srcBlocked4 (m : Maps) : Bool := lpmFinds m.blocklistIps ((data.drop 26).take 4)

def srcBlocked6 (m : Maps) : Bool := lpmFinds m.blocklistIpsV6 ((data.drop 22).take 16)

end Headers

/-! ## The program -/

inductive Verdict
  | drop
  | pass
  deriving DecidableEq

def portBlocked (m : Maps) (src dst : UInt16) : Bool :=
  src ≠ 0 && m.blocklistPorts src || dst ≠ 0 && m.blocklistPorts dst

/-- The part behind the headers of IPv4; `rateNow` is the time of the look at the rate. -/
def checkPorts4 (m : Maps) (srcIp : UInt32) (src dst : UInt16) (rateNow : UInt64) : Verdict × Maps :=
  if portBlocked m src dst then (.drop, (m.count portHit).count dropped)
  else
    let (m, exceeded) := checkRateLimit m rateNow srcIp
    if exceeded then (.drop, (m.count rateHit).count dropped) else (.pass, m)

def thorXdpDrop4 (data : List UInt8) (m : Maps) (synNow rateNow : UInt64) : Verdict × Maps :=
  if data.length < 34 then (.drop, m.count malformed)
  else if srcBlocked4 data m then (.drop, (m.count ipHit).count dropped)
  else
    match transport4 data with
    | .truncated => (.drop, m.count malformed)
    | .icmpRedirect => (.drop, m)
    | .ports src dst syn =>
      let (m, flood) := if syn then checkSynFlood m synNow (u32At data 26) else (m, false)
      if flood then (.drop, m.count dropped) else checkPorts4 m (u32At data 26) src dst rateNow

def thorXdpDrop6 (data : List UInt8) (m : Maps) : Verdict × Maps :=
  if data.length < 54 then (.drop, m.count malformed)
  else if srcBlocked6 data m then (.drop, (m.count ipHit).count dropped)
  else
    match transport6 data with
    | .ports src dst _ =>
      if portBlocked m src dst then (.drop, (m.count portHit).count dropped) else (.pass, m)
    -- no count of a malformed packet here
    | _ => (.drop, m)

def thorXdpDrop (data : List UInt8) (m : Maps) (synNow rateNow : UInt64) : Verdict × Maps :=
  if data.length < 14 then (.drop, (m.count malformed).count dropped)
  else
    let m := m.count processed
    if ethProto data = 0x0800 then thorXdpDrop4 data m synNow rateNow
    else if ethProto data = 0x86DD then thorXdpDrop6 data m
    else (.pass, m)

/-! ## Verdicts and counts -/

def Maps.packetsDropped (m : Maps) : Option UInt64 := m.stats.map (·.packetsDropped)

/-- **The verdict agrees with the counter**: a packet is dropped exactly if one more is counted as dropped, and passes
exactly if none is. -/
def Agrees (m : Maps) (r : Verdict × Maps) : Prop :=
  (r.1 = .drop ↔ r.2.packetsDropped = m.packetsDropped.map (· + 1)) ∧
  (r.1 = .pass ↔ r.2.packetsDropped = m.packetsDropped)

/-- The exits that drop without a count: a packet of IPv4 or IPv6 that ends in its header, and, from a source that is
not blocked, one that ends in its transport header, or an ICMP redirect of IPv4. -/
def Uncounted (data : List UInt8) (m : Maps) : Prop :=
  14 ≤ data.length ∧
  (ethProto data = 0x0800 ∧ (data.length < 34 ∨
      srcBlocked4 data m = false ∧ (transport4 data = .truncated ∨ transport4 data = .icmpRedirect)) ∨
    ethProto data = 0x86DD ∧ (data.length < 54 ∨ srcBlocked6 data m = false ∧ transport6 data = .truncated))

/-- A drop with a count, or a pass without. -/
def Counted (n : UInt64) (r : Verdict × Maps) : Prop :=
  r.1 = .drop ∧ r.2.packetsDropped = some (n + 1) ∨ r.1 = .pass ∧ r.2.packetsDropped = some n

/-- A drop without a count. -/
def Silent (n : UInt64) (r : Verdict × Maps) : Prop := r.1 = .drop ∧ r.2.packetsDropped = some n

section Count

variable {data : List UInt8} {m : Maps} {n : UInt64} {r : Verdict × Maps}

theorem agrees_of_counted (hm : m.packetsDropped = some n) (hr : Counted n r) : Agrees m r := by
  unfold Agrees
  rw [hm]
  rcases hr with ⟨hv, hn⟩ | ⟨hv, hn⟩
  · simp [hv, hn]
  · simp [hv, hn]

theorem not_agrees_of_silent (hm : m.packetsDropped = some n) (hr : Silent n r) : ¬ Agrees m r := by
  intro h
  have hcount := h.1.1 hr.1
  rw [hm, hr.2] at hcount
  simp at hcount

theorem agrees_iff_of_cases {c : Prop} [Decidable c] (hm : m.packetsDropped = some n)
    (hr : if c then Silent n r else Counted n r) : Agrees m r ↔ ¬ c := by
  split_ifs at hr with hc
  · exact iff_of_false (not_agrees_of_silent hm hr) (not_not_intro hc)
  · exact iff_of_true (agrees_of_counted hm hr) hc

theorem packetsDropped_count {add : ThorStats → ThorStats} (hm : m.packetsDropped = some n)
    (hadd : ∀ s, (add s).packetsDropped = s.packetsDropped) : (m.count add).packetsDropped = some n := by
  rw [← hm]
  simp [Maps.count, Maps.packetsDropped, Function.comp_def, hadd]

theorem packetsDropped_dropped (hm : m.packetsDropped = some n) :
    (m.count dropped).packetsDropped = some (n + 1) := by
  have hsome : m.stats.map (·.packetsDropped) = some n := hm
  obtain ⟨s, hs, rfl⟩ := Option.map_eq_some_iff.1 hsome
  simp [Maps.count, Maps.packetsDropped, hs, dropped]

theorem counted_checkPorts4 (hm : m.packetsDropped = some n) (srcIp : UInt32) (src dst : UInt16) (now : UInt64) :
    Counted n (checkPorts4 m srcIp src dst now) := by
  unfold checkPorts4
  split_ifs
  · exact Or.inl ⟨rfl, packetsDropped_dropped (packetsDropped_count hm fun _ => rfl)⟩
  · have hrate : (checkRateLimit m now srcIp).1.packetsDropped = some n := hm
    simp only
    split_ifs
    · exact Or.inl ⟨rfl, packetsDropped_dropped (packetsDropped_count hrate fun _ => rfl)⟩
    · exact Or.inr ⟨rfl, hrate⟩

/-- IPv4: which exits count. -/
theorem thorXdpDrop4_cases (hm : m.packetsDropped = some n) (synNow rateNow : UInt64) :
    if data.length < 34 ∨
        srcBlocked4 data m = false ∧ (transport4 data = .truncated ∨ transport4 data = .icmpRedirect) then
      Silent n (thorXdpDrop4 data m synNow rateNow)
    else Counted n (thorXdpDrop4 data m synNow rateNow) := by
  unfold thorXdpDrop4
  by_cases hlen : data.length < 34
  · rw [if_pos (Or.inl hlen), if_pos hlen]
    exact ⟨rfl, packetsDropped_count hm fun _ => rfl⟩
  · rw [if_neg hlen]
    cases hblocked : srcBlocked4 data m with
    | true =>
      rw [if_neg (by simp [hlen]), if_pos rfl]
      exact Or.inl ⟨rfl, packetsDropped_dropped (packetsDropped_count hm fun _ => rfl)⟩
    | false =>
      rw [if_neg Bool.false_ne_true]
      cases htransport : transport4 data with
      | truncated =>
        rw [if_pos (by simp)]
        exact ⟨rfl, packetsDropped_count hm fun _ => rfl⟩
      | icmpRedirect =>
        rw [if_pos (by simp)]
        exact ⟨rfl, hm⟩
      | ports src dst syn =>
        rw [if_neg (by simp [hlen])]
        have hsyn : (if syn then checkSynFlood m synNow (u32At data 26) else (m, false)).1.packetsDropped = some n := by
          split_ifs <;> exact hm
        simp only
        generalize (if syn then checkSynFlood m synNow (u32At data 26) else (m, false)) = r at hsyn
        split_ifs
        · exact Or.inl ⟨rfl, packetsDropped_dropped hsyn⟩
        · exact counted_checkPorts4 hsyn _ _ _ _

theorem portsAt_ne_icmpRedirect (proto : UInt8) (pos : ℕ) : portsAt data proto pos ≠ .icmpRedirect := by
  unfold portsAt
  split_ifs <;> simp

/-- IPv6: which exits count. -/
theorem thorXdpDrop6_cases (hm : m.packetsDropped = some n) :
    if data.length < 54 ∨ srcBlocked6 data m = false ∧ transport6 data = .truncated then
      Silent n (thorXdpDrop6 data m)
    else Counted n (thorXdpDrop6 data m) := by
  unfold thorXdpDrop6
  by_cases hlen : data.length < 54
  · rw [if_pos (Or.inl hlen), if_pos hlen]
    exact ⟨rfl, packetsDropped_count hm fun _ => rfl⟩
  · rw [if_neg hlen]
    cases hblocked : srcBlocked6 data m with
    | true =>
      rw [if_neg (by simp [hlen]), if_pos rfl]
      exact Or.inl ⟨rfl, packetsDropped_dropped (packetsDropped_count hm fun _ => rfl)⟩
    | false =>
      rw [if_neg Bool.false_ne_true]
      cases htransport : transport6 data with
      | truncated =>
        rw [if_pos (by simp)]
        exact ⟨rfl, hm⟩
      | icmpRedirect => exact absurd htransport (portsAt_ne_icmpRedirect _ _)
      | ports src dst syn =>
        rw [if_neg (by simp [hlen])]
        simp only
        split_ifs
        · exact Or.inl ⟨rfl, packetsDropped_dropped (packetsDropped_count hm fun _ => rfl)⟩
        · exact Or.inr ⟨rfl, hm⟩

/-- **Verdicts and counters.** With the statistics there, the verdict agrees with the counter of dropped packets exactly
if the packet takes none of the exits that drop without a count. -/
theorem counted_iff (data : List UInt8) (m : Maps) (synNow rateNow : UInt64) (hstats : m.stats.isSome) :
    Agrees m (thorXdpDrop data m synNow rateNow) ↔ ¬ Uncounted data m := by
  obtain ⟨s, hs⟩ := Option.isSome_iff_exists.1 hstats
  have hm : m.packetsDropped = some s.packetsDropped := by simp [Maps.packetsDropped, hs]
  have hprocessed : (m.count processed).packetsDropped = some s.packetsDropped := packetsDropped_count hm fun _ => rfl
  unfold thorXdpDrop Uncounted
  by_cases hlen : data.length < 14
  · rw [if_pos hlen]
    have hcounted := packetsDropped_dropped (@packetsDropped_count m _ malformed hm fun _ => rfl)
    exact iff_of_true (agrees_of_counted hm (Or.inl ⟨rfl, hcounted⟩)) (by omega)
  · rw [if_neg hlen]
    have hge : 14 ≤ data.length := Nat.le_of_not_lt hlen
    simp only [hge, true_and]
    by_cases h4 : ethProto data = 0x0800
    · rw [if_pos h4, agrees_iff_of_cases hm (thorXdpDrop4_cases hprocessed synNow rateNow)]
      simp [h4, srcBlocked4, Maps.count]
    · rw [if_neg h4]
      by_cases h6 : ethProto data = 0x86DD
      · rw [if_pos h6, agrees_iff_of_cases hm (thorXdpDrop6_cases hprocessed)]
        simp [h6, srcBlocked6, Maps.count]
      · rw [if_neg h6]
        exact iff_of_true (agrees_of_counted hm (Or.inr ⟨rfl, hprocessed⟩)) (by simp [h4, h6])

end Count

/-- Maps without entries, and counters that are all zero. -/
def emptyMaps : Maps where
  blocklistIps := []
  blocklistIpsV6 := []
  blocklistPorts _ := false
  stats := some ⟨0, 0, 0, 0, 0, 0, 0, 0, 0, 0, 0⟩
  rateStates _ := none
  synStates _ := none
  rateConfig := none

/-- Port 4444 is blocked; its bytes are 11 and 5C. -/
def portMaps : Maps := { emptyMaps with blocklistPorts := fun port => port = 0x5C11 }

/-- A TCP segment over IPv4 to that port. -/
def segment : List UInt8 :=
  [2, 0, 0, 0, 0, 1, 2, 0, 0, 0, 0, 2, 8, 0] ++
    [0x45, 0, 0, 40, 0, 1, 0x40, 0, 64, 6, 0, 0, 10, 0, 0, 5, 192, 168, 1, 20] ++
    [0xC3, 0x50, 0x11, 0x5C, 0, 0, 0, 1, 0, 0, 0, 0, 0x50, 2, 0xFF, 0xFF, 0, 0, 0, 0]

theorem counted_port : portMaps.stats.isSome ∧ (thorXdpDrop segment portMaps 0 0).1 = .drop ∧
    Agrees portMaps (thorXdpDrop segment portMaps 0 0) :=
  ⟨by decide, by decide, (counted_iff segment portMaps 0 0 (by decide)).2 (by unfold Uncounted; decide)⟩

/-- A packet of 14 bytes that says it is IPv4 is dropped, and not counted as dropped. -/
theorem truncated_not_counted : ¬ ∀ (data : List UInt8) (m : Maps) (synNow rateNow : UInt64), m.stats.isSome →
    Agrees m (thorXdpDrop data m synNow rateNow) := by
  intro h
  have hdrop := (h [0, 0, 0, 0, 0, 0, 0, 0, 0, 0, 0, 0, 8, 0] emptyMaps 0 0 (by decide)).1.1 (by decide)
  exact absurd hdrop (by decide)

end ThorFirewall.Bpf
