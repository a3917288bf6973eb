import Mathlib
import ThorFirewall.Dissectors.Dns
import ThorFirewall.Dissectors.Smb

/-!
# The dissector engine

`dissect` asks for the protocol first by the payload, then by the port, and runs one dissector. The dissectors of HTTP
and TLS are parameters. `dissect_smb_iff`: of the payloads that the SMB dissector accepts, those with a session header
reach it only if they do not look like a DNS query.
-/

namespace ThorFirewall.Dissectors

open ByteReader Text

inductive Protocol
  | http
  | https
  | dns
  | smb
  | ssh
  | tls
  | unknown
  deriving DecidableEq

namespace Protocol

def fromPort (port : UInt16) : Protocol :=
  if port = 80 ∨ port = 8080 ∨ port = 3000 ∨ port = 8000 then http
  else if port = 443 ∨ port = 8443 then https
  else if port = 53 then dns
  else if port = 445 ∨ port = 139 then smb
  else if port = 22 then ssh
  else unknown

/-- The beginnings of HTTP messages. -/
def httpStarts : List (List UInt8) :=
  ["GET ", "POST ", "PUT ", "DELETE ", "HEAD ", "OPTIONS ", "HTTP/"].map fun s => bytes s.toList

def fromPayload (data : List UInt8) : Protocol :=
  if data = [] then unknown
  else if httpStarts.any (·.isPrefixOf data) then http
  else if data.head? = some 0x16 ∧ data.length > 3 then tls
  else if smb1Magic.isPrefixOf data || smb2Magic.isPrefixOf data then smb
  else if data.length ≥ 12 ∧ data[2]?.any (· &&& 0x80 = 0) then dns
  else unknown

/-- What the payload says goes first. -/
def mergeWith (self portHint : Protocol) : Protocol := if self ≠ unknown then self else portHint

end Protocol

/-! ## The DNS log -/

/-- The hexadecimal digits of a byte. -/
def hexByte (b : UInt8) : List Char := [Nat.digitChar (b.toNat / 16), Nat.digitChar (b.toNat % 16)]

def hexPairs : List UInt8 → List (List Char)
  | a :: b :: ip => (hexByte a ++ hexByte b) :: hexPairs ip
  | _ => []

def DnsRdata.toStringRepr : DnsRdata → List Char
  | a ip => ['.'].intercalate (ip.1.map fun b => Nat.toDigits 10 b.toNat)
  | aaaa ip => [':'].intercalate (hexPairs ip.1)
  | cname s => s
  | ns s => s
  | ptr s => s
  | mx priority exchange => Nat.toDigits 10 priority.toNat ++ ' ' :: exchange
  | txt parts => [' '].intercalate parts
  | unknown b => '<' :: Nat.toDigits 10 b.length ++ " bytes>".toList
  | soa mname .. => mname

def qtypeName (qtype : UInt16) : String :=
  match qtype with
  | 1 => "A"
  | 2 => "NS"
  | 5 => "CNAME"
  | 6 => "SOA"
  | 10 => "NULL"
  | 12 => "PTR"
  | 15 => "MX"
  | 16 => "TXT"
  | 28 => "AAAA"
  | 33 => "SRV"
  | 255 => "ANY"
  | _ => "UNKNOWN"

inductive DnsAnomaly
  | tunneling
  | dgaDomain
  | nxdomainFlood
  | dnsRebinding
  | torHiddenService
  | suspiciousTxtRecord
  | fastFlux
  | dohBypass
  | oversizedPacket
  | highEntropyLabel
  deriving DecidableEq

structure DnsLog where
  ts : ℕ
  uid : String
  srcIp : String
  dstIp : String
  proto : String
  transactionId : UInt16
  query : List Char
  qtype : UInt16
  qtypeName : String
  rcode : UInt8
  answers : List (List Char)
  ttls : List UInt32
  anomalies : List DnsAnomaly

def makeDnsLog (ts : ℕ) (uid srcIp dstIp : String) (packet : DnsPacket) (anomalies : List DnsAnomaly) : DnsLog where
  ts := ts
  uid := uid
  srcIp := srcIp
  dstIp := dstIp
  proto := "UDP"
  transactionId := packet.transactionId
  query := (packet.questions.head?.map (·.name)).getD []
  qtype := (packet.questions.head?.map (·.qtype)).getD 0
  qtypeName := (packet.questions.head?.map fun q => Dissectors.qtypeName q.qtype).getD ""
  rcode := packet.rcode
  answers := packet.answers.map fun a => a.rdata.toStringRepr
  ttls := packet.answers.map (·.ttl)
  anomalies := anomalies

/-! ## The engine -/

inductive DissectorResult (HttpLog TlsLog : Type)
  | http (log : HttpLog)
  | dns (log : DnsLog)
  | smb (log : SmbLog)
  | tls (log : TlsLog)
  | unknown

/-- The flow of a payload. -/
structure Flow where
  srcIp : String
  srcPort : UInt16
  dstIp : String
  dstPort : UInt16

def Flow.uid (flow : Flow) : String :=
  s!"{flow.srcIp}:{flow.srcPort.toNat}->{flow.dstIp}:{flow.dstPort.toNat}"

/-- The other dissectors, and what they and the logs need: the log of an HTTP request and of a TLS record, the anomalies
of a DNS packet, and `to_uppercase`. -/
structure DissectorEngine (HttpLog TlsLog : Type) where
  makeHttpLog : List UInt8 → Flow → ℕ → Option HttpLog
  analyseTlsBytes : List UInt8 → Flow → ℕ → Option TlsLog
  detectDnsAnomalies : DnsPacket → List DnsAnomaly
  upper : List Char → List Char

variable {HttpLog TlsLog : Type}

/-- The result for a payload at the time `ts`. -/
def DissectorEngine.dissect (e : DissectorEngine HttpLog TlsLog) (payload : List UInt8) (flow : Flow) (ts : ℕ) :
    Checked (DissectorResult HttpLog TlsLog) :=
  match (Protocol.fromPayload payload).mergeWith (Protocol.fromPort flow.dstPort) with
  | .http =>
    match e.makeHttpLog payload flow ts with
    | some log => return .http log
    | none => return .unknown
  | .dns => do
    match ← attempt (parseDnsPacket payload) with
    | some packet => return .dns (makeDnsLog ts flow.uid flow.srcIp flow.dstIp packet (e.detectDnsAnomalies packet))
    | none => return .unknown
  | .smb => do
    match ← attempt (makeSmbLog e.upper ts payload flow.uid flow.srcIp flow.dstIp) with
    | some log => return .smb log
    | none => return .unknown
  | .tls | .https =>
    match e.analyseTlsBytes payload flow ts with
    | some log => return .tls log
    | none => return .unknown
  | _ => return .unknown

/-! ## Payloads for the SMB dissector -/

variable {payload : List UInt8}

/-- No message of HTTP begins with a byte that is no letter. -/
theorem httpStarts_head {s : List UInt8} (hs : s ∈ Protocol.httpStarts) :
    s.head? ≠ some 0 ∧ s.head? ≠ some 0xff ∧ s.head? ≠ some 0xfe ∧ s ≠ [] := by
  have hall : ∀ s ∈ Protocol.httpStarts, s.head? ≠ some 0 ∧ s.head? ≠ some 0xff ∧ s.head? ≠ some 0xfe ∧ s ≠ [] := by
    decide +kernel
  exact hall s hs

theorem any_httpStarts {b : UInt8} (hb : b = 0 ∨ b = 0xff ∨ b = 0xfe) (rest : List UInt8) :
    Protocol.httpStarts.any (·.isPrefixOf (b :: rest)) = false := by
  rw [List.any_eq_false]
  intro s hs hp
  obtain ⟨hzero, hone, htwo, hne⟩ := httpStarts_head hs
  obtain ⟨a, s, rfl⟩ := List.exists_cons_of_ne_nil hne
  obtain ⟨rfl, -⟩ := List.cons_prefix_cons.1 (List.isPrefixOf_iff_prefix.1 hp)
  rcases hb with rfl | rfl | rfl
  · exact hzero rfl
  · exact hone rfl
  · exact htwo rfl

/-- A signature is the beginning of the protocol. -/
theorem fromPayload_magic (h : smb1Magic <+: payload ∨ smb2Magic <+: payload) : Protocol.fromPayload payload = .smb := by
  have hmagic : (smb1Magic.isPrefixOf payload || smb2Magic.isPrefixOf payload) = true := by
    simpa [List.isPrefixOf_iff_prefix] using h
  have hhead : ∃ b rest, payload = b :: rest ∧ (b = 0xff ∨ b = 0xfe) := by
    rcases h with ⟨rest, rfl⟩ | ⟨rest, rfl⟩
    · exact ⟨_, _, rfl, .inl rfl⟩
    · exact ⟨_, _, rfl, .inr rfl⟩
  obtain ⟨b, rest, rfl, hb⟩ := hhead
  have hne : b ≠ 0x16 := by rcases hb with rfl | rfl <;> decide
  rw [Protocol.fromPayload, if_neg (List.cons_ne_nil _ _), any_httpStarts (.inr hb), if_neg Bool.false_ne_true,
    if_neg fun h => hne (Option.some.inj h.1), if_pos hmagic]

/-- Behind a session header, the payload looks like a DNS query or like nothing. -/
theorem fromPayload_session {rest : List UInt8} (h : 11 ≤ rest.length) :
    Protocol.fromPayload (0 :: rest) = if (0 :: rest)[2]?.any (· &&& 0x80 = 0) then .dns else .unknown := by
  have hmagic : (smb1Magic.isPrefixOf (0 :: rest) || smb2Magic.isPrefixOf (0 :: rest)) = false := rfl
  have hlong : (0 :: rest).length ≥ 12 := by
    rw [List.length_cons]
    omega
  rw [Protocol.fromPayload, if_neg (List.cons_ne_nil _ _), any_httpStarts (.inl rfl), if_neg Bool.false_ne_true,
    if_neg fun h => absurd h.1 (show (some (0 : UInt8)) ≠ some 0x16 by decide), hmagic, if_neg Bool.false_ne_true]
  simp only [hlong, true_and]

/-- An accepted payload has a session header that the header of the message is behind, or begins with the message. -/
theorem AcceptedSmb.cases (h : AcceptedSmb payload) :
    (∃ rest, payload = 0 :: rest ∧ 35 ≤ rest.length) ∨
      (payload.head? ≠ some 0 ∧ (smb1Magic <+: payload ∨ smb2Magic <+: payload)) := by
  have h := accepted_iff.1 h
  by_cases hhead : payload.head? = some 0
  · obtain ⟨rest, rfl⟩ := List.head?_eq_some_iff.1 hhead
    refine .inl ⟨rest, rfl, ?_⟩
    by_cases hlong : (0 :: rest).length > 4
    · have hstart : smbStart (0 :: rest) = 4 := if_pos ⟨hlong, hhead⟩
      simp only [hstart, List.length_drop, List.length_cons] at h
      omega
    · -- without a session header the first byte would be one of a signature
      have hstart : smbStart (0 :: rest) = 0 := if_neg fun h => hlong h.1
      simp only [hstart, List.drop_zero] at h
      rcases h with ⟨⟨_, h⟩, -⟩ | ⟨⟨_, h⟩, -⟩ <;> cases h
  · have hstart : smbStart payload = 0 := if_neg fun h => hhead h.2
    simp only [hstart, List.drop_zero] at h
    exact .inr ⟨hhead, h.imp And.left And.left⟩

theorem fromPort_smb {port : UInt16} (h : port = 445 ∨ port = 139) : Protocol.fromPort port = .smb := by
  rcases h with rfl | rfl <;> rfl

/-- What is taken for DNS gives no SMB result. -/
theorem dissect_dns (e : DissectorEngine HttpLog TlsLog) (h : Protocol.fromPayload payload = .dns) (flow : Flow)
    (ts : ℕ) (log : SmbLog) : e.dissect payload flow ts ≠ .ok (.smb log) := by
  intro hlog
  rw [DissectorEngine.dissect, h, Protocol.mergeWith, if_pos (by decide)] at hlog
  cases hpacket : attempt (parseDnsPacket payload) with
  | error stop => simp [hpacket, bind, Except.bind] at hlog
  | ok packet => cases packet <;> simp [hpacket, bind, Except.bind, pure, Except.pure] at hlog

/-- **An accepted payload to an SMB port gives an SMB result** exactly if it has no session header, or the third byte of
the header has its high bit set. -/
theorem dissect_smb_iff (e : DissectorEngine HttpLog TlsLog) (h : AcceptedSmb payload) (flow : Flow)
    (hport : flow.dstPort = 445 ∨ flow.dstPort = 139) (ts : ℕ) :
    (∃ log, e.dissect payload flow ts = .ok (.smb log)) ↔
      (payload.head? = some 0 → payload[2]?.any (· &&& 0x80 = 0) = false) := by
  have hsmb : (Protocol.fromPayload payload).mergeWith (Protocol.fromPort flow.dstPort) = .smb →
      ∃ log, e.dissect payload flow ts = .ok (.smb log) := by
    intro hproto
    obtain ⟨log, hlog⟩ := makeSmbLog_isOk h e.upper ts flow.uid flow.srcIp flow.dstIp
    refine ⟨log, ?_⟩
    rw [DissectorEngine.dissect, hproto]
    simp only [hlog, attempt, bind, Except.bind]
    rfl
  rcases h.cases with ⟨rest, rfl, hlong⟩ | ⟨hhead, hmagic⟩
  · have hproto := @fromPayload_session rest (by omega)
    by_cases hdns : (0 :: rest)[2]?.any (· &&& 0x80 = 0) = true
    · refine iff_of_false ?_ fun h => Bool.false_ne_true ((h rfl).symm.trans hdns)
      rintro ⟨log, hlog⟩
      exact dissect_dns e (hproto.trans (if_pos hdns)) flow ts log hlog
    · refine iff_of_true (hsmb ?_) fun _ => Bool.not_eq_true _ ▸ hdns
      rw [hproto, if_neg hdns]
      exact fromPort_smb hport
  · refine iff_of_true (hsmb ?_) fun h => absurd h hhead
    rw [fromPayload_magic hmagic]
    rfl

/-- An SMB 2 message of 64 bytes behind a session header. -/
def sessionMessage : List UInt8 := [0, 0, 0, 64] ++ smb2Magic ++ List.replicate 60 0

theorem sessionMessage_accepted : AcceptedSmb sessionMessage :=
  accepted_iff.2 (.inr ⟨⟨_, rfl⟩, by decide⟩)

def noDissector : DissectorEngine Unit Unit := ⟨fun _ _ _ => none, fun _ _ _ => none, fun _ => [], id⟩

/-- A message without a session header. -/
theorem dissect_smb_plain : ∃ log, noDissector.dissect (smb2Magic ++ List.replicate 60 0)
    ⟨"10.0.0.1", 50000, "10.0.0.2", 445⟩ 0 = .ok (.smb log) :=
  (dissect_smb_iff noDissector (accepted_iff.2 (.inr ⟨⟨_, rfl⟩, by decide⟩)) _ (.inl rfl) 0).2 (by decide)

/-- The message is taken for a DNS query. -/
theorem session_taken_for_dns : ¬ ∀ (HttpLog TlsLog : Type) (e : DissectorEngine HttpLog TlsLog) (payload : List UInt8),
    AcceptedSmb payload → ∀ flow : Flow, flow.dstPort = 445 ∨ flow.dstPort = 139 → ∀ ts,
      ∃ log, e.dissect payload flow ts = .ok (.smb log) := by
  intro h
  obtain ⟨log, hlog⟩ := h Unit Unit noDissector sessionMessage sessionMessage_accepted
    ⟨"10.0.0.1", 50000, "10.0.0.2", 445⟩ (.inl rfl) 0
  exact dissect_dns noDissector (by decide +kernel) _ _ log hlog

end ThorFirewall.Dissectors
