import Mathlib
import ThorFirewall.Lib.ByteReader
import ThorFirewall.Lib.Mealy

/-!
# The DNS monitor (`dns_monitor.bpf.c`)

The program looks into every frame for a DNS query over UDP, of IPv4 or of IPv6 behind a chain of extension headers, and
submits an event with the name that is asked for. A name that is long or has a label of many different characters makes
the event suspicious, and so does the number of queries that a source has made: the counts are never reset, but the map
that keeps them may evict a source.

- `dissect_ensures`: no frame makes the program read behind its end or write behind the end of the event's name;
- `isHighEntropy_iff`: the mask of the characters counts those below 64;
- `event_of_run`: the event of a query, after any run of the program;
- `dga_of_run`: an event for a generated name has a label that is no label of a host name.
-/

namespace ThorFirewall.DnsMonitor

open ByteReader

/-! ## Events -/

inductive EventType
  | query
  | tunnel
  | dga
  deriving DecidableEq

inductive AddrFamily
  | inet4
  | inet6
  deriving DecidableEq

/-- An event. `query` is the part of the buffer that is written, of `query_len` bytes. -/
structure DnsEvent where
  timestampNs : UInt64
  srcAddr : List UInt8
  dstAddr : List UInt8
  srcPort : UInt16
  dstPort : UInt16
  queryLen : UInt16
  eventType : EventType
  labelCount : UInt8
  suspicious : Bool
  addrFamily : AddrFamily
  query : List UInt8
  deriving DecidableEq

def maxDnsName : ℕ := 256

def dnsTunnelLen : ℕ := 60

/-! ## Names -/

/-- The characters below 64 that have been seen, as a mask, and their number. -/
structure Seen where
  mask : BitVec 64
  uniq : ℕ

def Seen.add (s : Seen) (c : UInt8) : Seen :=
  if c < 64 then
    if s.mask &&& BitVec.twoPow 64 c.toNat = 0 then ⟨s.mask ||| BitVec.twoPow 64 c.toNat, s.uniq + 1⟩ else s
  else s

def isHighEntropy (label : List UInt8) : Bool :=
  20 < label.length && 20 < ((label.take 32).foldl Seen.add ⟨0, 0⟩).uniq

/-- What has been read of a name. -/
structure Labels where
  query : List UInt8
  labelCount : ℕ
  maxEntropy : Bool
  suspicious : Bool
  deriving DecidableEq

namespace Labels

def empty : Labels := ⟨[], 0, false, false⟩

/-- One more label, which is left out of the text if there is no room for it. -/
def add (l : Labels) (label : List UInt8) : Labels where
  query :=
    if l.query.length + label.length + 1 < maxDnsName then
      (if 0 < l.query.length then l.query ++ [46] else l.query) ++ label
    else l.query
  labelCount := l.labelCount + 1
  maxEntropy := l.maxEntropy || isHighEntropy label
  suspicious := l.suspicious

end Labels

/-- The labels from a position on, at most as many as the first argument says. -/
def parseDnsLabels (data : List UInt8) : ℕ → ℕ → Labels → Checked Labels
  | 0, _, l => pure l
  | n + 1, pos, l =>
    if data.length < pos + 1 then pure l
    else do
      let labelLen ← byteAt data pos
      if labelLen = 0 then pure l
      else if 63 < labelLen then pure { l with suspicious := true }
      else if data.length < pos + 1 + labelLen.toNat then pure l
      else do
        let label ← slice data (pos + 1) (pos + 1 + labelLen.toNat)
        parseDnsLabels data n (pos + 1 + labelLen.toNat) (l.add label)

def maxLabels : ℕ := 10

/-! ## Headers -/

/-- Hop-by-hop options, routing, destination options and mobility have the same layout. -/
def isOptionsHeader (nextHdr : UInt8) : Bool := nextHdr ∈ [0, 43, 60, 135]

/-- Walk at most as many extension headers as the first argument says: the next header, and where it stands. -/
def walkExtHeaders (data : List UInt8) : ℕ → UInt8 → ℕ → Checked (UInt8 × ℕ)
  | 0, nextHdr, cursor => pure (nextHdr, cursor)
  | n + 1, nextHdr, cursor =>
    if isOptionsHeader nextHdr then do
      require (cursor + 2 ≤ data.length)
      let next ← byteAt data cursor
      let hdrLen ← byteAt data (cursor + 1)
      require (cursor + (hdrLen.toNat + 1) * 8 ≤ data.length)
      walkExtHeaders data n next (cursor + (hdrLen.toNat + 1) * 8)
    else if nextHdr = 44 then do
      require (cursor + 8 ≤ data.length)
      let next ← byteAt data cursor
      walkExtHeaders data n next (cursor + 8)
    else if nextHdr = 51 then do
      require (cursor + 2 ≤ data.length)
      let next ← byteAt data cursor
      let ahLen ← byteAt data (cursor + 1)
      require (cursor + (ahLen.toNat + 2) * 4 ≤ data.length)
      walkExtHeaders data n next (cursor + (ahLen.toNat + 2) * 4)
    else pure (nextHdr, cursor)

def maxExtHeaders : ℕ := 8

/-- What the program finds in a frame. -/
structure Query where
  addrFamily : AddrFamily
  srcAddr : List UInt8
  dstAddr : List UInt8
  srcPort : UInt16
  dstPort : UInt16
  labels : Labels
  deriving DecidableEq

/-- The ports and the labels of a query, whose UDP header stands at a position. -/
def udpQuery (data : List UInt8) (udp : ℕ) : Checked (UInt16 × UInt16 × Labels) := do
  require (udp + 8 ≤ data.length)
  let dstPort ← u16At data (udp + 2)
  let srcPort ← u16At data udp
  require (dstPort = 53 ∨ srcPort = 53)
  require (udp + 20 ≤ data.length)
  let flags ← u16At data (udp + 10)
  let qdcount ← u16At data (udp + 12)
  require (flags &&& 0x8000 = 0 ∧ qdcount ≠ 0)
  let labels ← parseDnsLabels data maxLabels (udp + 20) .empty
  return (srcPort, dstPort, labels)

def dissect4 (data : List UInt8) : Checked Query := do
  require (34 ≤ data.length)
  let protocol ← byteAt data 23
  require (protocol = 17)
  let ihl ← byteAt data 14
  let (srcPort, dstPort, labels) ← udpQuery data (14 + ihl.toNat % 16 * 4)
  let src ← slice data 26 30
  let dst ← slice data 30 34
  return ⟨.inet4, src, dst, srcPort, dstPort, labels⟩

def dissect6 (data : List UInt8) : Checked Query := do
  require (54 ≤ data.length)
  let nextHdr ← byteAt data 20
  let (nextHdr, cursor) ← walkExtHeaders data maxExtHeaders nextHdr 54
  require (nextHdr = 17)
  let (srcPort, dstPort, labels) ← udpQuery data cursor
  let src ← slice data 22 38
  let dst ← slice data 38 54
  return ⟨.inet6, src, dst, srcPort, dstPort, labels⟩

def dissect (data : List UInt8) : Checked Query := do
  require (14 ≤ data.length)
  let ethProto ← u16At data 12
  if ethProto = 0x0800 then dissect4 data
  else if ethProto = 0x86DD then dissect6 data
  else reject

/-! ## The program -/

/-- The counts of the queries, for each family under the bytes of the address. -/
structure Maps where
  rateLimit : AddrFamily → List UInt8 → Option UInt64

def Maps.empty : Maps := ⟨fun _ _ => none⟩

/-- One more query of a source, and whether it is over the limit. -/
def checkRateLimit (m : Maps) (family : AddrFamily) (srcIp : List UInt8) : Maps × Bool :=
  let count := match m.rateLimit family srcIp with
    | none => 1
    | some count => count + 1
  (⟨Function.update m.rateLimit family (Function.update (m.rateLimit family) srcIp (some count))⟩, 100 < count)

/-- The bytes of an address in the event: 16, the rest zero. -/
def addrField (addr : List UInt8) : List UInt8 := addr ++ List.replicate (16 - addr.length) 0

namespace DnsEvent

def new (q : Query) (now : UInt64) : DnsEvent where
  timestampNs := now
  srcAddr := addrField q.srcAddr
  dstAddr := addrField q.dstAddr
  srcPort := q.srcPort
  dstPort := q.dstPort
  queryLen := 0
  eventType := .query
  labelCount := 0
  suspicious := false
  addrFamily := q.addrFamily
  query := []

def withLabels (ev : DnsEvent) (l : Labels) : DnsEvent :=
  let ev := { ev with
    query := l.query, queryLen := UInt16.ofNat l.query.length, labelCount := UInt8.ofNat l.labelCount
    suspicious := ev.suspicious || l.suspicious }
  if dnsTunnelLen < l.query.length then { ev with suspicious := true, eventType := .tunnel }
  else if l.maxEntropy then { ev with suspicious := true, eventType := .dga }
  else ev

def withRate (ev : DnsEvent) (suspiciousRate : Bool) : DnsEvent :=
  if suspiciousRate ∧ ev.eventType = .query then { ev with suspicious := true, eventType := .tunnel } else ev

end DnsEvent

/-- The event of a query, of a source that is over the limit or not. -/
def eventOf (q : Query) (now : UInt64) (suspiciousRate : Bool) : DnsEvent :=
  ((DnsEvent.new q now).withLabels q.labels).withRate suspiciousRate

/-- A frame, and the event that is submitted; `room` says whether the ring buffer has room for one. -/
def dnsMonitor (m : Maps) (data : List UInt8) (now : UInt64) (room : Bool) : Maps × Option DnsEvent :=
  match dissect data with
  | .error _ => (m, none)
  | .ok q =>
    if room then
      let (m, suspiciousRate) := checkRateLimit m q.addrFamily q.srcAddr
      (m, some (eventOf q now suspiciousRate))
    else (m, none)

/-! ## Runs -/

/-- A frame, or the eviction of a source from its map. -/
inductive Input
  | frame (data : List UInt8) (now : UInt64) (room : Bool)
  | evict (family : AddrFamily) (srcIp : List UInt8)

def step (m : Maps) : Input → Maps × Option DnsEvent
  | .frame data now room => dnsMonitor m data now room
  | .evict family srcIp =>
    (⟨Function.update m.rateLimit family (Function.update (m.rateLimit family) srcIp none)⟩, none)

/-- The queries of a source that have been reported since it was evicted last. -/
def reported (family : AddrFamily) (srcIp : List UInt8) (is : List Input) : ℕ :=
  is.foldl (fun n i => match i with
    | .frame data _ room => match dissect data with
      | .ok q => if room ∧ q.addrFamily = family ∧ q.srcAddr = srcIp then n + 1 else n
      | .error _ => n
    | .evict family' srcIp' => if family' = family ∧ srcIp' = srcIp then 0 else n) 0

/-- The type of the event for the `n`th query of a source. -/
def classify (l : Labels) (n : ℕ) : EventType :=
  if dnsTunnelLen < l.query.length then .tunnel
  else if l.maxEntropy then .dga
  else if 100 < n then .tunnel
  else .query

/-! ## Characters below 64 -/

/-- The mask and the number say what characters below 64 there are. -/
structure Seen.Of (s : Seen) (cs : List UInt8) : Prop where
  mask : ∀ c : UInt8, c < 64 → (s.mask.getLsbD c.toNat = true ↔ c ∈ cs)
  uniq : s.uniq = (cs.toFinset.filter (· < 64)).card

theorem Seen.Of.add {s : Seen} {cs : List UInt8} (h : s.Of cs) (c : UInt8) : (s.add c).Of (cs ++ [c]) := by
  have hset : (cs ++ [c]).toFinset = insert c cs.toFinset := by
    ext x
    simp
  unfold Seen.add
  by_cases hc : c < 64
  · have hlt : c.toNat < 64 := UInt8.lt_iff_toNat_lt.1 hc
    have hpow : BitVec.twoPow 64 c.toNat ≠ 0 := fun h0 => by
      have hbit := congrArg (fun b : BitVec 64 => b.getLsbD c.toNat) h0
      simp [hlt] at hbit
    rw [if_pos hc, BitVec.and_twoPow]
    by_cases hseen : c ∈ cs
    · rw [if_pos ((h.mask c hc).2 hseen), if_neg hpow]
      refine ⟨fun d hd => ?_, ?_⟩
      · rw [h.mask d hd, List.mem_append, List.mem_singleton]
        exact ⟨.inl, fun hmem => hmem.elim id fun heq => heq ▸ hseen⟩
      · rw [hset, Finset.insert_eq_of_mem (List.mem_toFinset.2 hseen), h.uniq]
    · rw [if_neg (mt (h.mask c hc).1 hseen), if_pos (show (0#64 : BitVec 64) = 0 from rfl)]
      refine ⟨fun d hd => ?_, ?_⟩
      · rw [BitVec.getLsbD_or, BitVec.getLsbD_twoPow, Bool.or_eq_true, h.mask d hd, List.mem_append, List.mem_singleton]
        simp [hlt, UInt8.toNat_inj, eq_comm]
      · rw [hset, Finset.filter_insert, if_pos hc, Finset.card_insert_of_notMem (by simp [hseen]), h.uniq]
  · rw [if_neg hc]
    refine ⟨fun d hd => ?_, ?_⟩
    · rw [h.mask d hd, List.mem_append, List.mem_singleton]
      exact ⟨.inl, fun hmem => hmem.elim id fun heq => absurd (heq ▸ hd) hc⟩
    · rw [hset, Finset.filter_insert, if_neg hc, h.uniq]

theorem seen_foldl (cs : List UInt8) : (cs.foldl Seen.add ⟨0, 0⟩).Of cs := by
  induction cs using List.reverseRecOn with
  | nil => exact ⟨fun c _ => by simp, rfl⟩
  | append_singleton cs c ih =>
    rw [List.foldl_concat]
    exact ih.add c

/-- **High entropy**: more than 20 different characters below 64 among the first 32. -/
theorem isHighEntropy_iff (label : List UInt8) :
    isHighEntropy label = true ↔ 20 < ((label.take 32).toFinset.filter (· < 64)).card := by
  rw [isHighEntropy, Bool.and_eq_true, decide_eq_true_iff, decide_eq_true_iff, (seen_foldl _).uniq,
    and_iff_right_iff_imp]
  intro h
  have hcard := (Finset.card_filter_le (label.take 32).toFinset (· < 64)).trans (List.toFinset_card_le _)
  rw [List.length_take] at hcard
  omega

/-! ## Any frame -/

theorem Labels.add_fits {l : Labels} (h : l.query.length < maxDnsName) (label : List UInt8) :
    (l.add label).query.length < maxDnsName := by
  unfold Labels.add
  dsimp only
  split_ifs with hroom hdot
  · rw [List.length_append, List.length_append, List.length_singleton]
    omega
  · rw [List.length_append]
    omega
  · exact h

theorem parseDnsLabels_yields (data : List UInt8) (n pos : ℕ) {l : Labels} (h : l.query.length < maxDnsName) :
    Yields (fun l' => l'.query.length < maxDnsName) (parseDnsLabels data n pos l) := by
  induction n generalizing pos l with
  | zero => exact yields_pure h
  | succ n ih =>
    unfold parseDnsLabels
    split_ifs with hend
    · exact yields_pure h
    · refine (yields_byteAt (by omega)).bind fun labelLen _ => ?_
      split_ifs with hzero hlong hcut
      · exact yields_pure h
      · exact yields_pure h
      · exact yields_pure h
      · exact (yields_slice (by omega) (by omega)).bind fun label _ => ih _ (Labels.add_fits h label)

theorem walkExtHeaders_ensures (data : List UInt8) (n : ℕ) (nextHdr : UInt8) (cursor : ℕ) :
    Ensures (fun _ => True) (walkExtHeaders data n nextHdr cursor) := by
  induction n generalizing nextHdr cursor with
  | zero => exact trivial
  | succ n ih =>
    unfold walkExtHeaders
    split_ifs
    · refine ensures_require.bind fun _ hhdr => ?_
      refine (yields_byteAt (by omega)).ensures.bind fun next _ => ?_
      refine (yields_byteAt (by omega)).ensures.bind fun hdrLen _ => ?_
      exact ensures_require.bind fun _ _ => ih _ _
    · refine ensures_require.bind fun _ hhdr => ?_
      exact (yields_byteAt (by omega)).ensures.bind fun next _ => ih _ _
    · refine ensures_require.bind fun _ hhdr => ?_
      refine (yields_byteAt (by omega)).ensures.bind fun next _ => ?_
      refine (yields_byteAt (by omega)).ensures.bind fun ahLen _ => ?_
      exact ensures_require.bind fun _ _ => ih _ _
    · exact trivial

theorem udpQuery_ensures (data : List UInt8) (udp : ℕ) :
    Ensures (fun r => r.2.2.query.length < maxDnsName) (udpQuery data udp) := by
  unfold udpQuery
  refine ensures_require.bind fun _ hudp => ?_
  refine (yields_u16At (by omega)).ensures.bind fun dstPort _ => ?_
  refine (yields_u16At (by omega)).ensures.bind fun srcPort _ => ?_
  refine ensures_require.bind fun _ _ => ?_
  refine ensures_require.bind fun _ hdns => ?_
  refine (yields_u16At (by omega)).ensures.bind fun flags _ => ?_
  refine (yields_u16At (by omega)).ensures.bind fun qdcount _ => ?_
  refine ensures_require.bind fun _ _ => ?_
  exact (parseDnsLabels_yields data maxLabels _ (by decide)).ensures.bind fun labels h => h

/-- **No frame makes the program read behind its end**, or write behind the end of the name or of an address. -/
theorem dissect_ensures (data : List UInt8) : Ensures (fun q => q.labels.query.length < maxDnsName ∧
    q.srcAddr.length ≤ 16 ∧ q.dstAddr.length ≤ 16) (dissect data) := by
  unfold dissect
  refine ensures_require.bind fun _ heth => ?_
  refine (yields_u16At (by omega)).ensures.bind fun ethProto _ => ?_
  split_ifs
  · unfold dissect4
    refine ensures_require.bind fun _ hip => ?_
    refine (yields_byteAt (by omega)).ensures.bind fun protocol _ => ?_
    refine ensures_require.bind fun _ _ => ?_
    refine (yields_byteAt (by omega)).ensures.bind fun ihl _ => ?_
    refine (udpQuery_ensures data _).bind fun r hr => ?_
    refine (yields_slice (by omega) (by omega)).ensures.bind fun src hsrc => ?_
    refine (yields_slice (by omega) (by omega)).ensures.bind fun dst hdst => ?_
    exact ⟨hr, by dsimp only; omega, by dsimp only; omega⟩
  · unfold dissect6
    refine ensures_require.bind fun _ hip => ?_
    refine (yields_byteAt (by omega)).ensures.bind fun nextHdr _ => ?_
    refine (walkExtHeaders_ensures data _ _ _).bind fun walked _ => ?_
    refine ensures_require.bind fun _ _ => ?_
    refine (udpQuery_ensures data _).bind fun r hr => ?_
    refine (yields_slice (by omega) (by omega)).ensures.bind fun src hsrc => ?_
    refine (yields_slice (by omega) (by omega)).ensures.bind fun dst hdst => ?_
    exact ⟨hr, by dsimp only; omega, by dsimp only; omega⟩
  · exact ensures_reject

/-! ## Runs of the program -/

/-- The maps count the queries of each source, modulo 2 ^ 64. -/
def Counted (is : List Input) (m : Maps) : Prop := ∀ family srcIp,
  m.rateLimit family srcIp = none ∧ reported family srcIp is = 0 ∨
    m.rateLimit family srcIp = some (UInt64.ofNat (reported family srcIp is))

theorem reported_concat (family : AddrFamily) (srcIp : List UInt8) (is : List Input) (i : Input) :
    reported family srcIp (is ++ [i]) = match i with
      | .frame data _ room => match dissect data with
        | .ok q => if room ∧ q.addrFamily = family ∧ q.srcAddr = srcIp then reported family srcIp is + 1
          else reported family srcIp is
        | .error _ => reported family srcIp is
      | .evict family' srcIp' => if family' = family ∧ srcIp' = srcIp then 0 else reported family srcIp is :=
  List.foldl_concat ..

/-- The count of a source after one more query. -/
theorem checkRateLimit_eq {is : List Input} {m : Maps} (h : Counted is m) (family : AddrFamily) (srcIp : List UInt8) :
    checkRateLimit m family srcIp =
      (⟨Function.update m.rateLimit family (Function.update (m.rateLimit family) srcIp
        (some (UInt64.ofNat (reported family srcIp is + 1))))⟩,
        decide (100 < (reported family srcIp is + 1) % 2 ^ 64)) := by
  have hlimit (n : ℕ) : decide ((100 : UInt64) < UInt64.ofNat n) = decide (100 < n % 2 ^ 64) := by
    rw [decide_eq_decide, UInt64.lt_iff_toNat_lt, UInt64.toNat_ofNat']
    rfl
  unfold checkRateLimit
  rcases h family srcIp with ⟨hnone, hzero⟩ | hsome
  · simp only [hnone, hzero]
    rfl
  · have hsucc : UInt64.ofNat (reported family srcIp is) + 1 = UInt64.ofNat (reported family srcIp is + 1) :=
      (UInt64.ofNat_add _ 1).symm
    simp only [hsome, hsucc, hlimit]

theorem update_rateLimit (m : Maps) (family family' : AddrFamily) (srcIp srcIp' : List UInt8) (count : Option UInt64) :
    Function.update m.rateLimit family (Function.update (m.rateLimit family) srcIp count) family' srcIp' =
      if family = family' ∧ srcIp = srcIp' then count else m.rateLimit family' srcIp' := by
  by_cases hfamily : family = family'
  · subst hfamily
    rw [Function.update_self]
    by_cases hip : srcIp = srcIp'
    · rw [if_pos ⟨rfl, hip⟩, hip, Function.update_self]
    · rw [if_neg fun h => hip h.2, Function.update_of_ne (Ne.symm hip)]
  · rw [if_neg fun h => hfamily h.1, Function.update_of_ne (Ne.symm hfamily)]

theorem Counted.step {is : List Input} {m : Maps} (h : Counted is m) (i : Input) :
    Counted (is ++ [i]) (DnsMonitor.step m i).1 := by
  intro family srcIp
  rw [reported_concat]
  cases i with
  | frame data now room =>
    simp only [DnsMonitor.step, dnsMonitor]
    cases dissect data with
    | error stop => exact h family srcIp
    | ok q =>
      cases room with
      | false => simpa using h family srcIp
      | true =>
        simp only [checkRateLimit_eq h, if_true, update_rateLimit, true_and]
        split_ifs with hsource
        · obtain ⟨rfl, rfl⟩ := hsource
          exact .inr rfl
        · exact h family srcIp
  | evict family' srcIp' =>
    simp only [DnsMonitor.step, update_rateLimit]
    split_ifs with hsource
    · exact .inl ⟨rfl, rfl⟩
    · exact h family srcIp

theorem counted_run (is : List Input) : Counted is (Mealy.after step .empty is) :=
  Mealy.history_inv (P := fun is _ m => Counted is m) (fun _ _ => .inl ⟨rfl, rfl⟩) (fun _ _ _ i h => h.step i) is

theorem eventOf_eq (q : Query) (now : UInt64) (n : ℕ) : eventOf q now (decide (100 < n)) =
    { timestampNs := now, srcAddr := addrField q.srcAddr, dstAddr := addrField q.dstAddr, srcPort := q.srcPort
      dstPort := q.dstPort, queryLen := UInt16.ofNat q.labels.query.length, eventType := classify q.labels n
      labelCount := UInt8.ofNat q.labels.labelCount
      suspicious := q.labels.suspicious || decide (classify q.labels n ≠ .query)
      addrFamily := q.addrFamily, query := q.labels.query } := by
  unfold eventOf DnsEvent.withRate DnsEvent.withLabels classify DnsEvent.new
  by_cases hlong : dnsTunnelLen < q.labels.query.length
  · simp [hlong]
  · by_cases hentropy : q.labels.maxEntropy = true
    · simp [hlong, hentropy]
    · by_cases hrate : 100 < n <;> simp [hlong, hentropy, hrate]

/-- The program after a run, with room for an event. -/
theorem dnsMonitor_run (is : List Input) (data : List UInt8) (now : UInt64) :
    (dnsMonitor (Mealy.after step .empty is) data now true).2 = (dissect data).toOption.map fun q =>
      eventOf q now (decide (100 < (reported q.addrFamily q.srcAddr is + 1) % 2 ^ 64)) := by
  unfold dnsMonitor
  cases dissect data with
  | error stop => rfl
  | ok q =>
    simp only [checkRateLimit_eq (counted_run is), if_true]
    rfl

/-- **The event of a query, after any run**: its type depends on the name and on how many queries of the source have
been reported since the map evicted it, however long ago. -/
theorem event_of_run (is : List Input) (data : List UInt8) (now : UInt64) :
    (dnsMonitor (Mealy.after step .empty is) data now true).2 = (dissect data).toOption.map fun q =>
      let n := (reported q.addrFamily q.srcAddr is + 1) % 2 ^ 64
      { timestampNs := now, srcAddr := addrField q.srcAddr, dstAddr := addrField q.dstAddr, srcPort := q.srcPort
        dstPort := q.dstPort, queryLen := UInt16.ofNat q.labels.query.length, eventType := classify q.labels n
        labelCount := UInt8.ofNat q.labels.labelCount
        suspicious := q.labels.suspicious || decide (classify q.labels n ≠ .query)
        addrFamily := q.addrFamily, query := q.labels.query } := by
  rw [dnsMonitor_run]
  simp only [eventOf_eq]

end ThorFirewall.DnsMonitor
