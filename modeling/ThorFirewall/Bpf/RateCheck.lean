import Mathlib
import ThorFirewall.Lib.ByteReader
import ThorFirewall.Lib.Mealy
import ThorFirewall.Lib.PerCpu
import ThorFirewall.Lib.Session

/-!
# Rates of sources (`slow_ddos_detector.bpf.c`)

For each source each processor keeps the counters of a window of one second, and those of another one for the packets
with a destination port. It asks for an event when a window is over in which there were too many packets or bytes, and
when a window has more than 50 packets with a port. The maps may evict a source, on all processors. The first packet of
a source makes zero counters for the other processors, as if they had begun a window when the system started.

- `checkRate_entry`, `checkScan_entry`: the counters are summaries of the current windows (`Session`);
- `events_of_run`: the events of a packet, after any run: for a window of its processor that is over, and for the 51st
  packet with a port.
-/

namespace ThorFirewall.RateCheck

open ByteReader

/-! ## Counters -/

structure SrcRate where
  windowStartNs : UInt64
  pktCount : UInt32
  byteCount : UInt64
  alerted : Bool
  deriving DecidableEq

structure PortScanState where
  windowStartNs : UInt64
  portCount : UInt32
  alerted : Bool
  deriving DecidableEq

/-- An event, less its time. Types are 0 for packets, 1 for bytes, 2 for a port scan. -/
structure RateEvent where
  srcIp : List UInt8
  pktRate : UInt32
  byteRate : UInt64
  scanPorts : UInt32
  alertType : UInt8
  deriving DecidableEq

def maxPpsPerIp : UInt32 := 10000

def maxBpsPerIp : UInt64 := 104857600

def maxPortsPerSec : UInt32 := 50

def windowNs : UInt64 := 1000000000

/-- The rate of a source after a packet. -/
def checkRate (rate : Option SrcRate) (now size : UInt64) : SrcRate :=
  match rate with
  | some rate =>
    let rate := if windowNs ≤ now - rate.windowStartNs then ⟨now, 0, 0, false⟩ else rate
    { rate with pktCount := rate.pktCount + 1, byteCount := rate.byteCount + size }
  | none => ⟨now, 1, size, false⟩

/-- The event for the window before a packet. -/
def rateEvents (srcIp : List UInt8) (rate : Option SrcRate) (now : UInt64) : List RateEvent :=
  match rate with
  | some rate =>
    if windowNs ≤ now - rate.windowStartNs ∧ rate.alerted = false then
      if maxPpsPerIp < rate.pktCount then [⟨srcIp, rate.pktCount, rate.byteCount, 0, 0⟩]
      else if maxBpsPerIp < rate.byteCount then [⟨srcIp, rate.pktCount, rate.byteCount, 0, 1⟩]
      else []
    else []
  | none => []

/-- The port-scan counters of a source after a packet with a port, and the events for the window before and for this
one. -/
def checkScan (srcIp : List UInt8) (scan : Option PortScanState) (now : UInt64) : PortScanState × List RateEvent :=
  match scan with
  | some scan =>
    let expired := windowNs ≤ now - scan.windowStartNs
    let before := if expired ∧ scan.alerted = false ∧ maxPortsPerSec < scan.portCount then
      [⟨srcIp, 0, 0, scan.portCount, 2⟩] else []
    let scan := if expired then ⟨now, 0, false⟩ else scan
    let scan := { scan with portCount := scan.portCount + 1 }
    if maxPortsPerSec < scan.portCount ∧ scan.alerted = false then
      ({ scan with alerted := true }, before ++ [⟨srcIp, 0, 0, scan.portCount, 2⟩])
    else (scan, before)
  | none => (⟨now, 1, false⟩, [])

/-! ## The program -/

/-- The source of a packet, and its destination port or 0: whatever the frame is, it is read as one of IPv4. -/
def dissect (data : List UInt8) : Checked (List UInt8 × UInt16) := do
  require (34 ≤ data.length)
  let srcIp ← slice data 26 30
  let protocol ← byteAt data 23
  if protocol = 6 ∧ 54 ≤ data.length ∨ protocol = 17 ∧ 42 ≤ data.length then do
    let port ← u16At data 36
    return (srcIp, port)
  else return (srcIp, 0)

/-- Zero counters are those that a processor finds in an entry that another one made. -/
structure Maps where
  srcRates : PerCpu (List UInt8) SrcRate
  scanStates : PerCpu (List UInt8) PortScanState

def Maps.empty : Maps := ⟨.empty, .empty⟩

/-- A packet of a source, on a processor. -/
def count (m : Maps) (cpu : UInt32) (srcIp : List UInt8) (hasPort : Bool) (size now : UInt64) : Maps × List RateEvent :=
  let rate := m.srcRates.lookup cpu srcIp
  let events := rateEvents srcIp rate now
  let m := { m with srcRates := m.srcRates.update ⟨0, 0, 0, false⟩ cpu srcIp (checkRate rate now size) }
  if hasPort then
    let (scan, scanEvents) := checkScan srcIp (m.scanStates.lookup cpu srcIp) now
    ({ m with scanStates := m.scanStates.update ⟨0, 0, false⟩ cpu srcIp scan }, events ++ scanEvents)
  else (m, events)

/-- A frame of `len` bytes, of which `data` can be read, and the events that are asked for. -/
def thorRateCheck (m : Maps) (cpu : UInt32) (data : List UInt8) (len : UInt32) (now : UInt64) :
    Maps × List RateEvent :=
  match dissect data with
  | .ok (srcIp, dstPort) => count m cpu srcIp (decide (0 < dstPort)) len.toUInt64 now
  | .error _ => (m, [])

/-! ## Runs -/

/-- A frame that a processor handles, or the eviction of a source from one of the maps. -/
inductive Input
  | frame (cpu : UInt32) (data : List UInt8) (len : UInt32) (now : UInt64)
  | evictRate (srcIp : List UInt8)
  | evictScan (srcIp : List UInt8)

def step (m : Maps) : Input → Maps × List RateEvent
  | .frame cpu data len now => thorRateCheck m cpu data len now
  | .evictRate srcIp => ({ m with srcRates := m.srcRates.set srcIp none }, [])
  | .evictScan srcIp => ({ m with scanStates := m.scanStates.set srcIp none }, [])

/-- A packet as the counters see it. -/
structure Packet where
  now : UInt64
  size : UInt64
  hasPort : Bool
  deriving DecidableEq

/-- The packet of a source in a frame. -/
def packetOf (srcIp : List UInt8) (data : List UInt8) (len : UInt32) (now : UInt64) : Option Packet :=
  match dissect data with
  | .ok (srcIp', dstPort) => if srcIp' = srcIp then some ⟨now, len.toUInt64, decide (0 < dstPort)⟩ else none
  | .error _ => none

/-- What a processor sees of a packet that `cpu'` handles: its own packets, and that another one made the entry. -/
def sees (cpu cpu' : UInt32) (ps : List (Option Packet)) : Option Packet → List (Option Packet)
  | some p => if cpu = cpu' then ps ++ [some p] else if ps = [] then [none] else ps
  | none => ps

/-- What a processor sees of a source since it was evicted from the map of rates. -/
def ratePackets (cpu : UInt32) (srcIp : List UInt8) (is : List Input) : List (Option Packet) :=
  is.foldl (fun ps i => match i with
    | .frame cpu' data len now => sees cpu cpu' ps (packetOf srcIp data len now)
    | .evictRate srcIp' => if srcIp = srcIp' then [] else ps
    | .evictScan _ => ps) []

/-- What a processor sees of the packets with a port of a source since it was evicted from the map of scans. -/
def scanPackets (cpu : UInt32) (srcIp : List UInt8) (is : List Input) : List (Option Packet) :=
  is.foldl (fun ps i => match i with
    | .frame cpu' data len now => sees cpu cpu' ps ((packetOf srcIp data len now).filter (·.hasPort))
    | .evictRate _ => ps
    | .evictScan srcIp' => if srcIp = srcIp' then [] else ps) []

/-- An entry that another processor made is as old as the system. -/
def startOf (p : Option Packet) : UInt64 := (p.map (·.now)).getD 0

/-- A window of a second is over. -/
def expired (first p : Option Packet) : Bool := decide (windowNs ≤ startOf p - startOf first)

def packets (w : List (Option Packet)) : ℕ := w.reduceOption.length

def bytes (w : List (Option Packet)) : UInt64 := (w.reduceOption.map (·.size)).sum

/-- What is kept of a window. -/
def rateOf (w : List (Option Packet)) : SrcRate :=
  ⟨(w.map startOf).headD 0, UInt32.ofNat (packets w), bytes w, false⟩

def scanOf (w : List (Option Packet)) : PortScanState :=
  ⟨(w.map startOf).headD 0, UInt32.ofNat (packets w), decide (50 < packets w)⟩

/-- The event for a window that is over. -/
def windowEvents (srcIp : List UInt8) (w : List (Option Packet)) : List RateEvent :=
  if maxPpsPerIp < UInt32.ofNat (packets w) then [⟨srcIp, UInt32.ofNat (packets w), bytes w, 0, 0⟩]
  else if maxBpsPerIp < bytes w then [⟨srcIp, UInt32.ofNat (packets w), bytes w, 0, 1⟩]
  else []

/-! ## One source -/

open Session (entry current begins)

variable (ps w : List (Option Packet)) (p : Packet) (first : Option Packet)

theorem packets_concat : packets (w ++ [some p]) = packets w + 1 := by
  simp [packets, List.reduceOption]

theorem bytes_concat : bytes (w ++ [some p]) = bytes w + p.size := by
  simp [bytes, List.reduceOption]

theorem expired_eq : expired first (some p) = decide (windowNs ≤ p.now - (rateOf (first :: w)).windowStartNs) := rfl

/-- The rate is a summary of the current window. -/
theorem checkRate_entry :
    some (checkRate (entry expired rateOf ps) p.now p.size) = entry expired rateOf (ps ++ [some p]) := by
  refine (@Session.entry_concat _ _ expired (some p) rateOf (fun s _ => checkRate s p.now p.size) ?_ ?_ ?_ ps).symm
  · simp [checkRate, rateOf, packets, bytes, startOf, List.reduceOption]
  · intro first w hover
    rw [expired_eq w p first, decide_eq_true_iff] at hover
    simp only [checkRate, if_pos hover]
    simp [rateOf, packets, bytes, startOf, List.reduceOption]
  · intro first w hover
    rw [expired_eq w p first, decide_eq_false_iff_not] at hover
    simp only [checkRate, if_neg hover]
    simp only [rateOf, packets_concat, bytes_concat, UInt32.ofNat_add]
    rfl

/-- The events for a window come with the packet that begins the next one. -/
theorem rateEvents_entry (srcIp : List UInt8) :
    rateEvents srcIp (entry expired rateOf ps) p.now =
      if begins expired (current expired ps) (some p) then windowEvents srcIp (current expired ps) else [] := by
  unfold entry
  by_cases hnil : ps = []
  · rw [if_pos hnil, Session.current_eq_nil_iff.2 hnil]
    rfl
  · obtain ⟨first, w, hw⟩ :=
      List.exists_cons_of_ne_nil (mt Session.current_eq_nil_iff.1 hnil : current expired ps ≠ [])
    rw [if_neg hnil, hw, Session.begins_cons, expired_eq w p first]
    simp only [rateEvents, windowEvents, decide_eq_true_iff]
    exact if_congr (and_iff_left rfl) rfl rfl

/-- More than 50 packets have been counted exactly if the window has more than 50, when there was no alert before. -/
theorem ofNat_gt_iff {n : ℕ} (h : n ≤ 51) : maxPortsPerSec < UInt32.ofNat n ↔ 50 < n := by
  rw [UInt32.lt_iff_toNat_lt, UInt32.toNat_ofNat', Nat.mod_eq_of_lt (by omega)]
  rfl

/-- The counters of a window with one more packet, and the event for it. -/
theorem checkScan_some (srcIp : List UInt8) :
    checkScan srcIp (some (scanOf (first :: w))) p.now = (scanOf (Session.join expired (first :: w) (some p)),
      if packets (Session.join expired (first :: w) (some p)) = 51 then [⟨srcIp, 0, 0, 51, 2⟩] else []) := by
  have hbefore : ¬ (windowNs ≤ p.now - (scanOf (first :: w)).windowStartNs ∧ (scanOf (first :: w)).alerted = false ∧
      maxPortsPerSec < (scanOf (first :: w)).portCount) := by
    -- a window with more than 50 packets has had its alert
    rintro ⟨-, halerted, hcount⟩
    have hle := of_decide_eq_false halerted
    exact hle ((ofNat_gt_iff (by omega)).1 hcount)
  unfold checkScan Session.join
  dsimp only
  rw [Session.begins_cons, if_neg hbefore]
  by_cases hover : windowNs ≤ p.now - (scanOf (first :: w)).windowStartNs
  · have hexpired : expired first (some p) = true := decide_eq_true hover
    rw [hexpired, if_pos hover]
    rfl
  · have hexpired : ¬ expired first (some p) = true := fun h => hover (of_decide_eq_true h)
    have hlength := packets_concat (first :: w) p
    have hsucc : UInt32.ofNat (packets (first :: w)) + 1 = UInt32.ofNat (packets (first :: w ++ [some p])) := by
      rw [hlength, UInt32.ofNat_add]
      rfl
    rw [if_neg hexpired, if_neg hover]
    simp only [scanOf, hsucc]
    by_cases hmany : 50 < packets (first :: w)
    · rw [if_neg fun h => of_decide_eq_false h.2 hmany, if_neg (by omega), decide_eq_true hmany,
        decide_eq_true (show 50 < packets (first :: w ++ [some p]) by omega)]
      rfl
    · rw [decide_eq_false hmany]
      by_cases hfull : packets (first :: w ++ [some p]) = 51
      · rw [if_pos ⟨(ofNat_gt_iff hfull.le).2 (by omega), rfl⟩, if_pos hfull, hfull]
        rfl
      · rw [if_neg fun h => hfull (by have := (ofNat_gt_iff (by omega)).1 h.1; omega), if_neg hfull,
          decide_eq_false (show ¬ 50 < packets (first :: w ++ [some p]) by omega)]
        rfl

/-- The port-scan counters are a summary of the current window, and the 51st packet of a window gives the event. -/
theorem checkScan_entry (srcIp : List UInt8) :
    some (checkScan srcIp (entry expired scanOf ps) p.now).1 = entry expired scanOf (ps ++ [some p]) ∧
      (checkScan srcIp (entry expired scanOf ps) p.now).2 =
        if packets (current expired (ps ++ [some p])) = 51 then [⟨srcIp, 0, 0, 51, 2⟩] else [] := by
  have hstate : entry expired scanOf (ps ++ [some p]) = some (scanOf (current expired (ps ++ [some p]))) :=
    if_neg (by simp)
  rw [hstate, Session.current_concat, entry]
  by_cases hnil : ps = []
  · rw [if_pos hnil, Session.current_eq_nil_iff.2 hnil]
    exact ⟨rfl, rfl⟩
  · obtain ⟨first, w, hw⟩ :=
      List.exists_cons_of_ne_nil (mt Session.current_eq_nil_iff.1 hnil : current expired ps ≠ [])
    rw [if_neg hnil, hw, checkScan_some]
    exact ⟨rfl, rfl⟩

/-! ## Runs of the program -/

/-- What the processors find of a source, after a packet that one of them handles. -/
theorem lookup_sees {σ : Type*} {summary : List (Option Packet) → σ} {m : PerCpu (List UInt8) σ} {srcIp : List UInt8}
    {seen : UInt32 → List (Option Packet)} (h : ∀ cpu, m.lookup cpu srcIp = entry expired summary (seen cpu))
    {cpu : UInt32} {p : Packet} {value : σ} (hvalue : some value = entry expired summary (seen cpu ++ [some p]))
    (cpu' : UInt32) : (m.update (summary [none]) cpu srcIp value).lookup cpu' srcIp =
      entry expired summary (sees cpu' cpu (seen cpu') (some p)) := by
  unfold sees
  dsimp only
  by_cases hcpu : cpu' = cpu
  · rw [if_pos hcpu, hcpu, PerCpu.lookup_update_self, hvalue]
  · rw [if_neg hcpu, PerCpu.lookup_update_cpu _ _ _ hcpu, h]
    by_cases hnil : seen cpu' = []
    · rw [if_pos hnil, hnil]
      rfl
    · rw [if_neg hnil, entry, if_neg hnil]
      rfl

/-- The maps keep the summaries of all sources. -/
def Summarised (is : List Input) (m : Maps) : Prop := ∀ srcIp cpu,
  m.srcRates.lookup cpu srcIp = entry expired rateOf (ratePackets cpu srcIp is) ∧
    m.scanStates.lookup cpu srcIp = entry expired scanOf (scanPackets cpu srcIp is)

theorem ratePackets_concat (cpu : UInt32) (srcIp : List UInt8) (is : List Input) (i : Input) :
    ratePackets cpu srcIp (is ++ [i]) = match i with
      | .frame cpu' data len now => sees cpu cpu' (ratePackets cpu srcIp is) (packetOf srcIp data len now)
      | .evictRate srcIp' => if srcIp = srcIp' then [] else ratePackets cpu srcIp is
      | .evictScan _ => ratePackets cpu srcIp is :=
  List.foldl_concat ..

theorem scanPackets_concat (cpu : UInt32) (srcIp : List UInt8) (is : List Input) (i : Input) :
    scanPackets cpu srcIp (is ++ [i]) = match i with
      | .frame cpu' data len now =>
        sees cpu cpu' (scanPackets cpu srcIp is) ((packetOf srcIp data len now).filter (·.hasPort))
      | .evictRate _ => scanPackets cpu srcIp is
      | .evictScan srcIp' => if srcIp = srcIp' then [] else scanPackets cpu srcIp is :=
  List.foldl_concat ..

theorem Summarised.step {is : List Input} {m : Maps} (h : Summarised is m) (i : Input) :
    Summarised (is ++ [i]) (RateCheck.step m i).1 := by
  intro srcIp cpu
  obtain ⟨hrate, hscan⟩ := h srcIp cpu
  rw [ratePackets_concat, scanPackets_concat]
  cases i with
  | evictRate srcIp' =>
    refine ⟨?_, hscan⟩
    show (m.srcRates.set srcIp' none).lookup cpu srcIp = _
    dsimp only
    split_ifs with hip
    · rw [hip, PerCpu.lookup_set_self]
      rfl
    · rw [PerCpu.lookup_set_key _ _ hip, hrate]
  | evictScan srcIp' =>
    refine ⟨hrate, ?_⟩
    show (m.scanStates.set srcIp' none).lookup cpu srcIp = _
    dsimp only
    split_ifs with hip
    · rw [hip, PerCpu.lookup_set_self]
      rfl
    · rw [PerCpu.lookup_set_key _ _ hip, hscan]
  | frame cpu' data len now =>
    simp only [RateCheck.step, thorRateCheck, packetOf]
    cases dissect data with
    | error stop => exact ⟨hrate, hscan⟩
    | ok found =>
      obtain ⟨srcIp', dstPort⟩ := found
      dsimp only
      by_cases hip : srcIp' = srcIp
      · subst hip
        have hnewRate := checkRate_entry (ratePackets cpu' srcIp' is) ⟨now, len.toUInt64, decide (0 < dstPort)⟩
        have hnewScan :=
          (checkScan_entry (scanPackets cpu' srcIp' is) ⟨now, len.toUInt64, decide (0 < dstPort)⟩ srcIp').1
        rw [← (h srcIp' cpu').1] at hnewRate
        rw [← (h srcIp' cpu').2] at hnewScan
        have hrates := lookup_sees (fun cpu => (h srcIp' cpu).1) hnewRate cpu
        have hscans := lookup_sees (fun cpu => (h srcIp' cpu).2) hnewScan cpu
        rw [if_pos rfl]
        unfold count
        cases hport : decide (0 < dstPort) with
        | true =>
          rw [hport] at hrates hscans
          exact ⟨hrates, hscans⟩
        | false =>
          rw [hport] at hrates
          exact ⟨hrates, hscan⟩
      · rw [if_neg hip]
        unfold count
        cases decide (0 < dstPort)
        · exact ⟨(PerCpu.lookup_update_key _ _ _ (Ne.symm hip)).trans hrate, hscan⟩
        · exact ⟨(PerCpu.lookup_update_key _ _ _ (Ne.symm hip)).trans hrate,
            (PerCpu.lookup_update_key _ _ _ (Ne.symm hip)).trans hscan⟩

theorem summarised_run (is : List Input) : Summarised is (Mealy.after step .empty is) :=
  Mealy.history_inv (P := fun is _ m => Summarised is m) (fun _ _ => ⟨rfl, rfl⟩) (fun _ _ _ i h => h.step i) is

/-- **The events of a packet, after any run**: one for the window of its processor before, if it begins a new one and
there were too many packets or bytes in that, and one for a port scan, if it is the 51st packet with a port of its
window. -/
theorem events_of_run (is : List Input) (cpu : UInt32) (data : List UInt8) (len : UInt32) (now : UInt64) :
    (thorRateCheck (Mealy.after step .empty is) cpu data len now).2 = match dissect data with
      | .error _ => []
      | .ok (srcIp, dstPort) =>
        let p : Packet := ⟨now, len.toUInt64, decide (0 < dstPort)⟩
        let w := current expired (ratePackets cpu srcIp is)
        (if begins expired w (some p) then windowEvents srcIp w else []) ++
          if p.hasPort ∧ packets (current expired (scanPackets cpu srcIp is ++ [some p])) = 51 then
            [⟨srcIp, 0, 0, 51, 2⟩]
          else [] := by
  unfold thorRateCheck
  cases dissect data with
  | error stop => rfl
  | ok found =>
    obtain ⟨srcIp, dstPort⟩ := found
    obtain ⟨hrate, hscan⟩ := summarised_run is srcIp cpu
    have hbefore := rateEvents_entry (ratePackets cpu srcIp is) ⟨now, len.toUInt64, decide (0 < dstPort)⟩ srcIp
    have hevent := (checkScan_entry (scanPackets cpu srcIp is) ⟨now, len.toUInt64, decide (0 < dstPort)⟩ srcIp).2
    dsimp only at hbefore hevent ⊢
    rw [← hbefore]
    unfold count
    dsimp only
    rw [hrate, hscan]
    cases hport : decide (0 < dstPort) with
    | true =>
      rw [hport] at hevent
      simp only [hevent, if_true, true_and]
    | false => simp

end ThorFirewall.RateCheck
