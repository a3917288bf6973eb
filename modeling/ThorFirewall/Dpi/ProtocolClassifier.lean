import Mathlib
import ThorFirewall.Dpi.PacketEncoder

/-!
# The protocol of a packet (`dpi/protocol_classifier.rs`)

`classify_packet` cuts the payload out of a packet as `encode_packet` does, without its check for the ports, and looks
for what protocols begin with.

- `yields_classify`: every payload is classified;
- `packet_survives_iff`: which packets the encoder and the classifier survive.
-/

namespace ThorFirewall.Dpi

open ByteReader

/-- Classified application protocol. No packet is classified as `Https`, and the table of confidences does not have it. -/
inductive Protocol
  | http
  | tls
  | dns
  | ssh
  | smtp
  | smb
  | rdp
  | encryptedUnknown
  | empty
  | unknown
  deriving DecidableEq

structure ClassificationResult where
  protocol : Protocol
  confidence : Float32
  declaredPort : UInt16
  portMismatch : Bool

/-- A record of a handshake or of application data, with a version of TLS. -/
def isTls (payload : List UInt8) : Checked Bool := do
  let first ← byteAt payload 0
  andThen (first = 0x16 ∨ first = 0x17) do
    let version ← u16At payload 1
    return decide (0x0301 ≤ version ∧ version ≤ 0x0304)

def isSmb (payload : List UInt8) : Checked Bool := do
  let magic ← slice payload 0 4
  return decide (magic = 0xFF :: ascii "SMB" ∨ magic = 0xFE :: ascii "SMB")

/-- A query with a known opcode and a few questions. -/
def isDns (payload : List UInt8) : Checked Bool := do
  let flags ← u16At payload 2
  let opcode := (flags >>> 11) &&& 0xF
  let qdcount ← u16At payload 4
  return decide (flags &&& 0x8000 = 0 ∧ opcode ≤ 2 ∧ 0 < qdcount ∧ qdcount < 10)

/-- A TPKT header. -/
def isTpkt (payload : List UInt8) : Checked Bool := do
  return decide ((← byteAt payload 0) = 0x03 ∧ (← byteAt payload 1) = 0x00)

def beginsWith (texts : List String) (payload : List UInt8) : Bool :=
  texts.any fun text => (ascii text).isPrefixOf payload

def httpTexts : List String := ["GET ", "POST ", "PUT ", "DELETE ", "HEAD ", "OPTIONS ", "HTTP/1.", "HTTP/2"]

def smtpTexts : List String := ["220 ", "EHLO ", "HELO ", "MAIL FROM:"]

def classifyPayload (payload : List UInt8) : Checked Protocol := do
  if payload = [] ∨ payload.all (· = 0) then return .empty
  if ← andThen (5 ≤ payload.length) (isTls payload) then return .tls
  if beginsWith httpTexts payload then return .http
  if beginsWith ["SSH-"] payload then return .ssh
  if beginsWith smtpTexts payload then return .smtp
  if ← andThen (4 ≤ payload.length) (isSmb payload) then return .smb
  if ← andThen (12 ≤ payload.length) (isDns payload) then return .dns
  if beginsWith ["Cookie: mstshash="] payload then return .rdp
  if ← andThen (2 ≤ payload.length) (isTpkt payload) then return .rdp
  if shannonEntropy payload > 0.85 then return .encryptedUnknown
  return .unknown

def isPortMismatch : Protocol → UInt16 → Bool
  | .http, port => port ∉ [80, 8080, 8000]
  | .tls, port => port ∉ [443, 8443]
  | .dns, port => port ≠ 53
  | .ssh, port => port ≠ 22
  | .smtp, port => port ∉ [25, 587, 465]
  | .smb, port => port ∉ [445, 139]
  | .rdp, port => port ≠ 3389
  | .empty, _ => false
  | .unknown, _ => false
  | .encryptedUnknown, _ => true

def computeConfidence (proto : Protocol) (payload : List UInt8) : Checked Float32 :=
  match proto with
  | .http =>
    pure (if beginsWith ["GET ", "POST "] payload ∧ ascii "HTTP/1.1" <:+: payload then 0.95 else 0.80)
  | .tls => do
    if 5 ≤ payload.length then
      let version ← u16At payload 1
      return if version = 0x0303 ∨ version = 0x0304 then 0.95 else 0.75
    else return 0.65
  | .dns => pure 0.85
  | .ssh => pure 0.95
  | .smtp => pure 0.90
  | .smb => pure 0.95
  | .rdp => pure 0.80
  | .encryptedUnknown => pure (0.5 + fmax (shannonEntropy payload - 0.85) 0.0 * 3.0)
  | .empty => pure 0.99
  | .unknown => pure 0.10

/-- Classify the application protocol from a raw packet's payload bytes. -/
def classify (payload : List UInt8) (declaredPort : UInt16) : Checked ClassificationResult := do
  let protocol ← classifyPayload payload
  let confidence ← computeConfidence protocol payload
  return ⟨protocol, confidence, declaredPort, isPortMismatch protocol declaredPort⟩

/-- Classify from a raw packet (including IP headers). -/
def classifyPacket (raw : List UInt8) (declaredPort : UInt16) : Checked ClassificationResult := do
  require (20 ≤ raw.length)
  let ihl := headerLength (← byteAt raw 0)
  let payload ← payloadOf raw ihl
  classify payload declaredPort

/-! ## Payloads -/

variable {raw payload : List UInt8}

theorem yields_classifyPayload (payload : List UInt8) : Yields (fun _ => True) (classifyPayload payload) := by
  have hbyte {pos : ℕ} (h : pos < payload.length) : Yields (fun _ => True) (byteAt payload pos) := yields_byteAt h
  have hword {pos : ℕ} (h : pos + 2 ≤ payload.length) : Yields (fun _ => True) (u16At payload pos) := yields_u16At h
  have hor {c : Prop} [Decidable c] {p : Protocol} {x : Checked Protocol} (hx : Yields (fun _ => True) x) :
      Yields (fun _ => True) (if c then pure p else x) := by
    split_ifs
    · exact yields_pure trivial
    · exact hx
  have htls : Yields (fun _ => True) (andThen (5 ≤ payload.length) (isTls payload)) :=
    yields_andThen fun h => (hbyte (by omega)).bind fun _ _ =>
      yields_andThen fun _ => (hword (by omega)).bind fun _ _ => yields_pure trivial
  have hsmb : Yields (fun _ => True) (andThen (4 ≤ payload.length) (isSmb payload)) :=
    yields_andThen fun h => (yields_slice (Nat.zero_le _) h).bind fun _ _ => yields_pure trivial
  have hdns : Yields (fun _ => True) (andThen (12 ≤ payload.length) (isDns payload)) :=
    yields_andThen fun h => (hword (by omega)).bind fun _ _ => (hword (by omega)).bind fun _ _ => yields_pure trivial
  have htpkt : Yields (fun _ => True) (andThen (2 ≤ payload.length) (isTpkt payload)) :=
    yields_andThen fun h => (hbyte (by omega)).bind fun _ _ => (hbyte (by omega)).bind fun _ _ => yields_pure trivial
  unfold classifyPayload
  refine hor (htls.bind fun _ _ => hor (hor (hor (hor (hsmb.bind fun _ _ => hor (hdns.bind fun _ _ => ?_))))))
  exact hor (hor (htpkt.bind fun _ _ => hor (hor (yields_pure trivial))))

/-- **Every payload is classified.** -/
theorem yields_classify (payload : List UInt8) (port : UInt16) : Yields (fun _ => True) (classify payload port) := by
  refine (yields_classifyPayload payload).bind fun protocol _ => ?_
  have hconfidence : Yields (fun _ => True) (computeConfidence protocol payload) := by
    cases protocol with
    | tls =>
      unfold computeConfidence
      dsimp only
      split_ifs with h
      · exact (yields_u16At (by omega)).bind fun _ _ => yields_pure trivial
      · exact yields_pure trivial
    | _ => exact yields_pure trivial
  exact hconfidence.bind fun _ _ => yields_pure trivial

/-! ## Packets -/

theorem classifyPacket_eq (h : 20 ≤ raw.length) (port : UInt16) :
    classifyPacket raw port = payloadOf raw (ihlOf raw) >>= fun payload => classify payload port := by
  unfold classifyPacket
  rw [require_of h, byteAt_getD (by omega)]
  rfl

/-- A function returns normally, and returns `None` for a packet of less than 20 bytes only. -/
def Returns {α : Type} (raw : List UInt8) (x : Checked α) : Prop :=
  ∃ result, attempt x = .ok result ∧ (result = none ↔ raw.length < 20)

theorem returns_of_yields {α : Type} {x : Checked α} (h : 20 ≤ raw.length) (hx : Yields (fun _ => True) x) :
    Returns raw x := by
  obtain ⟨a, rfl, -⟩ := hx
  exact ⟨some a, rfl, iff_of_false (Option.some_ne_none a) (Nat.not_lt.2 h)⟩

theorem not_returns {α : Type} {x : Checked α} (hx : x = .error .panicked) : ¬ Returns raw x := by
  rintro ⟨result, hresult, -⟩
  rw [hx] at hresult
  cases hresult

theorem returns_short {α : Type} {f : Unit → Checked α} (h : raw.length < 20) :
    Returns raw (require (20 ≤ raw.length) >>= f) := by
  rw [require, if_neg (Nat.not_le.2 h)]
  exact ⟨none, rfl, iff_of_true rfl h⟩

/-- **The encoder and the classifier survive a packet** if and only if it is too short, is not a TCP packet, or has the
bytes of the TCP header up to the data offset, and not the flags without the window behind them. -/
theorem packet_survives_iff (order : List UInt32 → List UInt32) (raw : List UInt8) (port : UInt16) :
    Returns raw (encodePacket order raw) ∧ Returns raw (classifyPacket raw port) ↔
      raw.length < 20 ∨ protocolOf raw ≠ 6 ∨ raw.length = ihlOf raw + 13 ∨ ihlOf raw + 16 ≤ raw.length := by
  by_cases hshort : raw.length < 20
  · exact iff_of_true ⟨returns_short hshort, returns_short hshort⟩ (Or.inl hshort)
  have hlen : 20 ≤ raw.length := Nat.not_lt.1 hshort
  rw [or_iff_right hshort]
  by_cases htcp : protocolOf raw = 6
  · rw [or_iff_right (not_not.2 htcp)]
    constructor
    · rintro ⟨hencode, -⟩
      by_contra hcut
      refine not_returns (encodePacket_panics order hlen htcp ?_) hencode
      unfold WindowCut
      omega
    · intro hfits
      have hwindow : ihlOf raw + 13 ≤ raw.length ∧ ¬ WindowCut raw := by
        unfold WindowCut
        omega
      refine ⟨returns_of_yields hlen (yields_encodePacket order hlen fun _ => hwindow), ?_⟩
      rw [classifyPacket_eq hlen]
      exact returns_of_yields hlen ((yields_payloadOf hlen fun _ => hwindow.1).bind fun payload _ =>
        yields_classify payload port)
  · refine iff_of_true ⟨returns_of_yields hlen (yields_encodePacket order hlen fun h => absurd h htcp), ?_⟩ (Or.inl htcp)
    rw [classifyPacket_eq hlen]
    exact returns_of_yields hlen ((yields_payloadOf hlen fun h => absurd h htcp).bind fun payload _ =>
      yields_classify payload port)

/-- A TCP packet that ends with the IP header. -/
theorem truncated_panics :
    ¬ (Returns [0x45, 0, 0, 20, 0, 1, 0, 0, 64, 6, 0, 0, 127, 0, 0, 1, 127, 0, 0, 1]
        (encodePacket id [0x45, 0, 0, 20, 0, 1, 0, 0, 64, 6, 0, 0, 127, 0, 0, 1, 127, 0, 0, 1]) ∧
      Returns [0x45, 0, 0, 20, 0, 1, 0, 0, 64, 6, 0, 0, 127, 0, 0, 1, 127, 0, 0, 1]
        (classifyPacket [0x45, 0, 0, 20, 0, 1, 0, 0, 64, 6, 0, 0, 127, 0, 0, 1, 127, 0, 0, 1] 80)) :=
  fun h => not_returns rfl h.2

end ThorFirewall.Dpi
