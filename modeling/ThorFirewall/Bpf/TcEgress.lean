import Mathlib
import ThorFirewall.Lib.ByteReader
import ThorFirewall.Lib.Mealy
import ThorFirewall.Lib.PerCpu
import ThorFirewall.Lib.Session

/-!
# Outgoing packets (`tc_egress.bpf.c`)

The program drops the packets of sockets that are quarantined, and of sockets with an entry in the map of rates those
that go beyond 100 MiB in a window of one second; it asks for events for the packets of quarantined sockets and for
those to suspicious ports. Each processor has rates and counters of its own. The agent writes the maps between the
packets.

- `stats_run`: the counters of a processor account for every packet that it handles in a run and all its bytes;
- `verdicts_refine`: in every run the verdicts and events are those of `Egress`, which keeps the packets of a socket on
  each processor and not their counts.
-/

namespace ThorFirewall.TcEgress

open ByteReader

/-! ## Maps -/

structure EgressRate where
  lastTsNs : UInt64
  bytesThisSec : UInt64
  totalBytes : UInt64
  deriving DecidableEq

/-- What a processor finds in an entry that another one made. -/
def EgressRate.zero : EgressRate := ⟨0, 0, 0⟩

/-- An event, less its time. Reasons are 0 for a quarantine and 2 for a suspicious port; 1 is for a rate limit. -/
structure EgressEvent where
  socketCookie : UInt64
  dstIp : List UInt8
  dstPort : UInt16
  proto : UInt8
  reason : UInt8
  pktSize : UInt64
  deriving DecidableEq

@[ext] structure EgressStats where
  packetsAllowed : UInt64
  packetsBlocked : UInt64
  bytesAllowed : UInt64
  bytesBlocked : UInt64
  deriving DecidableEq

structure Maps where
  blockedSockets : UInt64 → Option UInt8
  egressRates : PerCpu UInt64 EgressRate
  /-- The one entry of an array, for each processor. -/
  stats : UInt32 → Option EgressStats

/-- A packet of `len` bytes, of which `data` can be read, and the processor that handles it. -/
structure Skb where
  cpu : UInt32
  cookie : UInt64
  len : UInt32
  data : List UInt8

inductive Verdict
  | ok
  | shot
  deriving DecidableEq

def isSuspiciousPort (port : UInt16) : Bool := port ∈ [4444, 1337, 31337, 6666, 6667, 6668, 9999, 12345]

/-! ## Events -/

def Skb.size (skb : Skb) : UInt64 := skb.len.toUInt64

/-- The event for a packet of a quarantined socket, if its IP header is there. -/
def quarantineEvent (skb : Skb) : Checked EgressEvent := do
  require (34 ≤ skb.data.length)
  let dstIp ← slice skb.data 30 34
  let proto ← byteAt skb.data 23
  if proto = 6 ∧ 54 ≤ skb.data.length ∨ proto = 17 ∧ 42 ≤ skb.data.length then do
    let dstPort ← u16At skb.data 36
    return ⟨skb.cookie, dstIp, dstPort, proto, 0, skb.size⟩
  else return ⟨skb.cookie, dstIp, 0, proto, 0, skb.size⟩

/-- The event for a packet that is let through. -/
def suspiciousEvent (skb : Skb) : Checked EgressEvent := do
  require (34 ≤ skb.data.length)
  let proto ← byteAt skb.data 23
  require (proto = 6)
  require (54 ≤ skb.data.length)
  let dport ← u16At skb.data 36
  require (isSuspiciousPort dport = true)
  let dstIp ← slice skb.data 30 34
  return ⟨skb.cookie, dstIp, dport, 6, 2, skb.size⟩

def eventsOf (event : Checked EgressEvent) : List EgressEvent := event.toOption.toList

/-! ## The program -/

def windowNs : UInt64 := 1000000000

def bytesPerSec : UInt64 := 100 * 1024 * 1024

/-- The rate of a socket after a packet, and whether the packet is dropped. -/
def checkRate (rate : EgressRate) (now size : UInt64) : EgressRate × Bool :=
  if windowNs ≤ now - rate.lastTsNs then (⟨now, size, rate.totalBytes + size⟩, false)
  else
    let rate := { rate with bytesThisSec := rate.bytesThisSec + size }
    if bytesPerSec < rate.bytesThisSec then (rate, true)
    else ({ rate with totalBytes := rate.totalBytes + size }, false)

namespace EgressStats

def block (size : UInt64) (s : EgressStats) : EgressStats :=
  { s with packetsBlocked := s.packetsBlocked + 1, bytesBlocked := s.bytesBlocked + size }

def allow (size : UInt64) (s : EgressStats) : EgressStats :=
  { s with packetsAllowed := s.packetsAllowed + 1, bytesAllowed := s.bytesAllowed + size }

end EgressStats

/-- What happens to a packet. -/
structure Handled where
  cpu : UInt32
  size : UInt64
  verdict : Verdict
  events : List EgressEvent
  deriving DecidableEq

def Maps.addStats (m : Maps) (cpu : UInt32) (f : EgressStats → EgressStats) : Maps :=
  { m with stats := Function.update m.stats cpu ((m.stats cpu).map f) }

def thorTcEgress (m : Maps) (skb : Skb) (now : UInt64) : Maps × Handled :=
  if m.blockedSockets skb.cookie = some 1 then
    (m.addStats skb.cpu (·.block skb.size), ⟨skb.cpu, skb.size, .shot, eventsOf (quarantineEvent skb)⟩)
  else
    match m.egressRates.lookup skb.cpu skb.cookie with
    | none => (m.addStats skb.cpu (·.allow skb.size), ⟨skb.cpu, skb.size, .ok, eventsOf (suspiciousEvent skb)⟩)
    | some rate =>
      let (rate, limited) := checkRate rate now skb.size
      let m := { m with egressRates := m.egressRates.update .zero skb.cpu skb.cookie rate }
      if limited then (m.addStats skb.cpu (·.block skb.size), ⟨skb.cpu, skb.size, .shot, []⟩)
      else (m.addStats skb.cpu (·.allow skb.size), ⟨skb.cpu, skb.size, .ok, eventsOf (suspiciousEvent skb)⟩)

/-- A packet, or a write of the agent to a map. -/
inductive Input
  | packet (skb : Skb) (now : UInt64)
  | setBlocked (cookie : UInt64) (value : Option UInt8)
  | setRate (cookie : UInt64) (rates : Option (UInt32 → EgressRate))

def step (m : Maps) : Input → Maps × Option Handled
  | .packet skb now => ((thorTcEgress m skb now).1, some (thorTcEgress m skb now).2)
  | .setBlocked cookie value => ({ m with blockedSockets := Function.update m.blockedSockets cookie value }, none)
  | .setRate cookie rates => ({ m with egressRates := m.egressRates.set cookie rates }, none)

/-! ## Accounting -/

/-- The packets of a verdict on a processor, and their bytes. -/
def packets (cpu : UInt32) (v : Verdict) (outs : List (Option Handled)) : List Handled :=
  (outs.filterMap id).filter fun h => h.cpu = cpu ∧ h.verdict = v

def bytes (cpu : UInt32) (v : Verdict) (outs : List (Option Handled)) : UInt64 := ((packets cpu v outs).map (·.size)).sum

/-- The counters of a processor after the outputs of a run. -/
def EgressStats.add (s : EgressStats) (cpu : UInt32) (outs : List (Option Handled)) : EgressStats where
  packetsAllowed := s.packetsAllowed + UInt64.ofNat (packets cpu .ok outs).length
  packetsBlocked := s.packetsBlocked + UInt64.ofNat (packets cpu .shot outs).length
  bytesAllowed := s.bytesAllowed + bytes cpu .ok outs
  bytesBlocked := s.bytesBlocked + bytes cpu .shot outs

variable (s : EgressStats) (cpu : UInt32) (outs : List (Option Handled))

theorem add_nil : s.add cpu [] = s := by
  simp [EgressStats.add, packets, bytes]

theorem add_concat_none : s.add cpu (outs ++ [none]) = s.add cpu outs := by
  simp [EgressStats.add, packets, bytes]

theorem add_concat_other {h : Handled} (hcpu : h.cpu ≠ cpu) : s.add cpu (outs ++ [some h]) = s.add cpu outs := by
  simp [EgressStats.add, packets, bytes, List.filterMap_append, hcpu]

theorem add_concat_some (h : Handled) :
    s.add h.cpu (outs ++ [some h]) = match h.verdict with
      | .ok => (s.add h.cpu outs).allow h.size
      | .shot => (s.add h.cpu outs).block h.size := by
  cases hv : h.verdict <;>
    simp [EgressStats.add, EgressStats.allow, EgressStats.block, packets, bytes, List.filterMap_append, hv,
      UInt64.ofNat_add, UInt64.add_assoc]

/-- A packet is counted under its verdict. -/
theorem thorTcEgress_stats (m : Maps) (skb : Skb) (now : UInt64) :
    (thorTcEgress m skb now).2.cpu = skb.cpu ∧ (thorTcEgress m skb now).1.stats =
      Function.update m.stats skb.cpu ((m.stats skb.cpu).map fun s => match (thorTcEgress m skb now).2.verdict with
        | .ok => s.allow (thorTcEgress m skb now).2.size
        | .shot => s.block (thorTcEgress m skb now).2.size) := by
  unfold thorTcEgress
  split_ifs
  · exact ⟨rfl, rfl⟩
  · cases m.egressRates.lookup skb.cpu skb.cookie with
    | none => exact ⟨rfl, rfl⟩
    | some rate =>
      dsimp only
      cases (checkRate rate now skb.size).2 <;> exact ⟨rfl, rfl⟩

/-- **The counters of a processor account for every packet of a run** that it handles, under its verdict, and for its
bytes. -/
theorem stats_run (m : Maps) (is : List Input) (cpu : UInt32) :
    (Mealy.after step m is).stats cpu = (m.stats cpu).map (·.add cpu (Mealy.outputs step m is)) := by
  refine Mealy.history_inv (P := fun _ outs (m' : Maps) => m'.stats cpu = (m.stats cpu).map (·.add cpu outs)) ?_ ?_ is
  · simp [add_nil]
  · intro is outs m' i h
    cases i with
    | packet skb now =>
      obtain ⟨hcpu, hstats⟩ := thorTcEgress_stats m' skb now
      simp only [step]
      by_cases hskb : skb.cpu = cpu
      · subst hskb
        rw [hstats, Function.update_self, h, Option.map_map]
        refine congrArg (Option.map · (m.stats skb.cpu)) (funext fun s => ?_)
        have hadd := add_concat_some s outs (thorTcEgress m' skb now).2
        rw [hcpu] at hadd
        rw [hadd]
        rfl
      · rw [hstats, Function.update_of_ne (Ne.symm hskb), h]
        refine congrArg (Option.map · (m.stats cpu)) (funext fun s => ?_)
        exact (add_concat_other s cpu outs (hcpu ▸ hskb)).symm
    | setBlocked cookie value => simpa [step, add_concat_none] using h
    | setRate cookie rates => simpa [step, add_concat_none] using h

/-! ## The rule of the limit -/

structure Packet where
  now : UInt64
  size : UInt64

/-- A window of a second is over. -/
def expired (first p : Packet) : Bool := decide (windowNs ≤ p.now - first.now)

/-- The last packet of a window goes beyond the limit; the first one never does. -/
def overLimit (w : List Packet) : Bool := 1 < w.length && bytesPerSec < (w.map (·.size)).sum

/-- Which sockets are quarantined, and the packets on each processor of those with a limit, dropped ones too. An entry of
the map of rates stands for a packet that begins a window. -/
structure Egress where
  quarantined : UInt64 → Bool
  sent : PerCpu UInt64 (List Packet)

namespace Egress

open Session (current)

/-- The packet that an entry stands for. -/
def ofRate (rate : EgressRate) : List Packet := [⟨rate.lastTsNs, rate.bytesThisSec⟩]

def handle (e : Egress) (skb : Skb) (now : UInt64) : Egress × Handled :=
  if e.quarantined skb.cookie then (e, ⟨skb.cpu, skb.size, .shot, eventsOf (quarantineEvent skb)⟩)
  else
    match e.sent.lookup skb.cpu skb.cookie with
    | none => (e, ⟨skb.cpu, skb.size, .ok, eventsOf (suspiciousEvent skb)⟩)
    | some ps =>
      ({ e with sent := e.sent.update (ofRate .zero) skb.cpu skb.cookie (ps ++ [⟨now, skb.size⟩]) },
        if overLimit (current expired (ps ++ [⟨now, skb.size⟩])) then ⟨skb.cpu, skb.size, .shot, []⟩
        else ⟨skb.cpu, skb.size, .ok, eventsOf (suspiciousEvent skb)⟩)

def ofRates (rates : Option (UInt32 → EgressRate)) : Option (UInt32 → List Packet) := rates.map (ofRate ∘ ·)

def step (e : Egress) : Input → Egress × Option Handled
  | .packet skb now => ((e.handle skb now).1, some (e.handle skb now).2)
  | .setBlocked cookie value => ({ e with quarantined := Function.update e.quarantined cookie (value = some 1) }, none)
  | .setRate cookie rates => ({ e with sent := e.sent.set cookie (ofRates rates) }, none)

/-- The maps of the program, seen so. -/
def of (m : Maps) : Egress where
  quarantined cookie := m.blockedSockets cookie = some 1
  sent cookie := ofRates (m.egressRates cookie)

end Egress

open Session (current join)

/-- An entry has the start and the bytes of the current window. -/
inductive Keeps : Option EgressRate → Option (List Packet) → Prop
  | none : Keeps none none
  | some {rate : EgressRate} {ps : List Packet} {first : Packet} {w : List Packet} (hw : current expired ps = first :: w)
    (hstart : rate.lastTsNs = first.now) (hbytes : rate.bytesThisSec = ((first :: w).map (·.size)).sum) :
    Keeps (some rate) (some ps)

theorem keeps_ofRate (rate : EgressRate) : Keeps (some rate) (some (Egress.ofRate rate)) := by
  have hw : current expired (Egress.ofRate rate) = [⟨rate.lastTsNs, rate.bytesThisSec⟩] := rfl
  exact .some hw rfl (by simp)

theorem keeps_ofRates (rates : Option (UInt32 → EgressRate)) (cpu : UInt32) :
    Keeps (rates.map (· cpu)) ((Egress.ofRates rates).map (· cpu)) := by
  cases rates with
  | none => exact .none
  | some rates => exact keeps_ofRate (rates cpu)

theorem keeps_none {sent : Option (List Packet)} (h : Keeps none sent) : sent = none := by
  cases h
  rfl

theorem keeps_some {rate : EgressRate} {sent : Option (List Packet)} (h : Keeps (some rate) sent) :
    ∃ ps, sent = some ps ∧ Keeps (some rate) (some ps) := by
  cases h with
  | some hw hstart hbytes => exact ⟨_, rfl, .some hw hstart hbytes⟩

/-- One more packet: the entry keeps the window, and a packet is dropped by the rule. -/
theorem keeps_checkRate {rate : EgressRate} {ps : List Packet} (h : Keeps (some rate) (some ps)) (p : Packet) :
    Keeps (some (checkRate rate p.now p.size).1) (some (ps ++ [p])) ∧
      (checkRate rate p.now p.size).2 = overLimit (current expired (ps ++ [p])) := by
  cases h with
  | @some _ _ first w hw hstart hbytes =>
    have hcurrent : current expired (ps ++ [p]) = join expired (first :: w) p := by rw [Session.current_concat, hw]
    unfold checkRate
    rw [hstart]
    by_cases hover : windowNs ≤ p.now - first.now
    · have hjoin : join expired (first :: w) p = [p] := if_pos (decide_eq_true hover)
      rw [if_pos hover, hcurrent, hjoin]
      exact ⟨.some (hcurrent.trans hjoin) rfl (by simp), rfl⟩
    · have hjoin : join expired (first :: w) p = first :: (w ++ [p]) := if_neg fun h => hover (of_decide_eq_true h)
      have hsum : rate.bytesThisSec + p.size = ((first :: (w ++ [p])).map (·.size)).sum := by
        rw [hbytes]
        simp [UInt64.add_assoc]
      have hover' : overLimit (first :: (w ++ [p])) = decide (bytesPerSec < rate.bytesThisSec + p.size) := by
        rw [overLimit, hsum]
        simp
      rw [if_neg hover, hcurrent, hjoin, hover']
      dsimp only
      split_ifs with hlimit
      · exact ⟨.some (hcurrent.trans hjoin) rfl hsum, (decide_eq_true hlimit).symm⟩
      · exact ⟨.some (hcurrent.trans hjoin) rfl hsum, (decide_eq_false hlimit).symm⟩

/-! ## The program follows the rule -/

/-- The maps and the packets agree on every socket. -/
structure Agree (m : Maps) (e : Egress) : Prop where
  blocked : ∀ cookie, e.quarantined cookie = decide (m.blockedSockets cookie = some 1)
  sent : ∀ cpu cookie, Keeps (m.egressRates.lookup cpu cookie) (e.sent.lookup cpu cookie)

/-- A processor writes its value: the others keep theirs. -/
theorem keeps_update {rates : PerCpu UInt64 EgressRate} {sent : PerCpu UInt64 (List Packet)}
    (h : ∀ cpu cookie, Keeps (rates.lookup cpu cookie) (sent.lookup cpu cookie)) {cpu : UInt32} {cookie : UInt64}
    {rate : EgressRate} {ps : List Packet} (hnew : Keeps (some rate) (some ps)) (cpu' : UInt32) (cookie' : UInt64) :
    Keeps ((rates.update .zero cpu cookie rate).lookup cpu' cookie')
      ((sent.update (Egress.ofRate .zero) cpu cookie ps).lookup cpu' cookie') := by
  by_cases hcookie : cookie' = cookie
  · subst hcookie
    by_cases hcpu : cpu' = cpu
    · rw [hcpu, PerCpu.lookup_update_self, PerCpu.lookup_update_self]
      exact hnew
    · rw [PerCpu.lookup_update_cpu _ _ _ hcpu, PerCpu.lookup_update_cpu _ _ _ hcpu]
      have hother := h cpu' cookie'
      generalize rates.lookup cpu' cookie' = rate' at hother
      generalize sent.lookup cpu' cookie' = sent' at hother
      cases hother with
      | none => exact keeps_ofRate _
      | some hw hstart hbytes => exact .some hw hstart hbytes
  · rw [PerCpu.lookup_update_key _ _ _ hcookie, PerCpu.lookup_update_key _ _ _ hcookie]
    exact h cpu' cookie'

theorem keeps_set {rates : PerCpu UInt64 EgressRate} {sent : PerCpu UInt64 (List Packet)}
    (h : ∀ cpu cookie, Keeps (rates.lookup cpu cookie) (sent.lookup cpu cookie)) (cookie : UInt64)
    (values : Option (UInt32 → EgressRate)) (cpu : UInt32) (cookie' : UInt64) :
    Keeps ((rates.set cookie values).lookup cpu cookie')
      ((sent.set cookie (Egress.ofRates values)).lookup cpu cookie') := by
  by_cases hcookie : cookie' = cookie
  · rw [hcookie, PerCpu.lookup_set_self, PerCpu.lookup_set_self]
    exact keeps_ofRates values cpu
  · rw [PerCpu.lookup_set_key _ _ hcookie, PerCpu.lookup_set_key _ _ hcookie]
    exact h cpu cookie'

/-- A packet is handled alike. -/
theorem Agree.handle {m : Maps} {e : Egress} (h : Agree m e) (skb : Skb) (now : UInt64) :
    (thorTcEgress m skb now).2 = (e.handle skb now).2 ∧ Agree (thorTcEgress m skb now).1 (e.handle skb now).1 := by
  unfold thorTcEgress Egress.handle
  rw [h.blocked]
  by_cases hblocked : m.blockedSockets skb.cookie = some 1
  · rw [if_pos hblocked, if_pos (decide_eq_true hblocked)]
    exact ⟨rfl, h.blocked, h.sent⟩
  · rw [if_neg hblocked, if_neg fun hd => hblocked (of_decide_eq_true hd)]
    have hsocket := h.sent skb.cpu skb.cookie
    cases hrate : m.egressRates.lookup skb.cpu skb.cookie with
    | none =>
      rw [hrate] at hsocket
      rw [keeps_none hsocket]
      exact ⟨rfl, h.blocked, h.sent⟩
    | some rate =>
      rw [hrate] at hsocket
      obtain ⟨ps, hsent, hps⟩ := keeps_some hsocket
      obtain ⟨hkeeps, hlimited⟩ := keeps_checkRate hps ⟨now, skb.size⟩
      rw [hsent]
      dsimp only at hkeeps hlimited ⊢
      rw [hlimited]
      have hagree := @keeps_update _ _ h.sent skb.cpu skb.cookie _ _ hkeeps
      split_ifs
      · exact ⟨rfl, h.blocked, hagree⟩
      · exact ⟨rfl, h.blocked, hagree⟩

theorem Agree.step {m : Maps} {e : Egress} (h : Agree m e) (i : Input) :
    (TcEgress.step m i).2 = (e.step i).2 ∧ Agree (TcEgress.step m i).1 (e.step i).1 := by
  cases i with
  | packet skb now =>
    obtain ⟨hout, hagree⟩ := h.handle skb now
    exact ⟨congrArg some hout, hagree⟩
  | setBlocked cookie value =>
    refine ⟨rfl, fun cookie' => ?_, h.sent⟩
    by_cases hc : cookie' = cookie
    · simp [TcEgress.step, Egress.step, hc]
    · simp [TcEgress.step, Egress.step, hc, h.blocked]
  | setRate cookie rates => exact ⟨rfl, h.blocked, fun cpu cookie' => keeps_set h.sent cookie rates cpu cookie'⟩

theorem agree_of (m : Maps) : Agree m (.of m) :=
  ⟨fun _ => rfl, fun cpu cookie => keeps_ofRates (m.egressRates cookie) cpu⟩

/-- **In every run the verdicts and events are those of the rule**, whatever the maps hold at its start and whatever the
agent writes: the packets of a quarantined socket are dropped, and those that go beyond the limit of their window on
their processor. -/
theorem verdicts_refine (m : Maps) (is : List Input) :
    Mealy.outputs step m is = Mealy.outputs Egress.step (.of m) is := by
  suffices h : ∀ e, Agree m e → Mealy.outputs step m is = Mealy.outputs Egress.step e is from h _ (agree_of m)
  induction is generalizing m with
  | nil => exact fun _ _ => rfl
  | cons i is ih =>
    intro e h
    obtain ⟨hout, hagree⟩ := h.step i
    rw [Mealy.outputs, Mealy.outputs, hout, ih _ _ hagree]

end ThorFirewall.TcEgress
