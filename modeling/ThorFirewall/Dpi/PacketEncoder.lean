import Mathlib
import ThorFirewall.Lib.ByteReader
import ThorFirewall.Lib.Text

/-!
# Features of a packet (`dpi/packet_encoder.rs`)

`encode_packet` computes 128 features of a packet from its IP header on. Where the header ends, and where the payload
begins, it computes from two fields of the packet. Every index is one of `ByteReader` here, which panics behind the end
of the bytes; the features themselves are stored at positions below 128 by their type.

The order in which a map gives its values is a parameter.
-/

namespace ThorFirewall.Dpi

open ByteReader

/-! ## 32-bit floats -/

/-- `f32::max`, which gives the other number for one that is none. -/
def fmax (x y : Float32) : Float32 := if x.isNaN then y else if y.isNaN then x else if x < y then y else x

/-- `f32::min`. -/
def fmin (x y : Float32) : Float32 := if x.isNaN then y else if y.isNaN then x else if y < x then y else x

/-- `n as f32`. -/
def ofLen (n : ℕ) : Float32 := Float32.ofNat n

def fsum (xs : List Float32) : Float32 := xs.foldl (· + ·) 0.0

/-- `if c { 1.0 } else { 0.0 }`. -/
def flag (c : Prop) [Decidable c] : Float32 := if c then 1.0 else 0.0

def ascii (s : String) : List UInt8 := Text.bytes s.toList

/-- `c && test`, where the test reads bytes. -/
def andThen (c : Prop) [Decidable c] (test : Checked Bool) : Checked Bool := if c then test else pure false

/-! ## Helper functions -/

/-- The entropy of the counts of `total` things, in bits. -/
def entropyOf (total : Float32) (counts : List UInt32) : Float32 :=
  fsum (counts.map fun c =>
    let p := c.toFloat32 / total
    (-p) * p.log2)

/-- How often each of the keys occurs, in the order of the keys. -/
def tally {κ : Type} [DecidableEq κ] (keys : List κ) (xs : List κ) : List UInt32 :=
  keys.map fun k => UInt32.ofNat (xs.count k)

/-- Shannon entropy of a byte slice, normalized to [0, 1]. -/
def shannonEntropy (data : List UInt8) : Float32 :=
  if data = [] then 0.0
  else
    entropyOf (ofLen data.length) ((tally ((List.range 256).map UInt8.ofNat) data).filter (0 < ·)) / 8.0

def mean (data : List UInt8) : Float32 := fsum (data.map UInt8.toFloat32) / ofLen data.length

def byteMean (data : List UInt8) : Float32 := if data = [] then 0.0 else mean data / 255.0

def byteVariance (data : List UInt8) : Float32 :=
  if data.length < 2 then 0.0
  else
    let var := fsum (data.map fun b =>
      let d := b.toFloat32 - mean data
      d * d) / ofLen data.length
    fmin (var / 5418.0) 1.0

/-- The share of the bytes with a property. -/
def ratio (p : UInt8 → Bool) (data : List UInt8) : Float32 :=
  if data = [] then 0.0 else ofLen (data.countP p) / ofLen data.length

def printableRatio : List UInt8 → Float32 := ratio fun b => 0x20 ≤ b && b ≤ 0x7E

def nullByteRatio : List UInt8 → Float32 := ratio fun b => b = 0

def highByteRatio : List UInt8 → Float32 := ratio fun b => 127 < b

/-- The windows of two bytes. -/
def pairs (data : List UInt8) : List (UInt8 × UInt8) := data.zip data.tail

def repetitionScore (data : List UInt8) : Float32 :=
  if data.length < 2 then 0.0
  else ofLen ((pairs data).countP fun w => w.1 = w.2) / ofLen (data.length - 1)

/-- One round of the loop of `longest_run`, with the longest run and the current one. -/
def runRound (data : List UInt8) (runs : ℕ × ℕ) (i : ℕ) : Checked (ℕ × ℕ) := do
  if (← byteAt data i) = (← byteAt data (i - 1)) then return (max runs.1 (runs.2 + 1), runs.2 + 1)
  else return (runs.1, 1)

def longestRun (data : List UInt8) : Checked Float32 := do
  if data = [] then return 0.0
  let (maxRun, _) ← (List.range' 1 (data.length - 1)).foldlM (runRound data) (1, 1)
  return fmin (ofLen maxRun / ofLen data.length) 1.0

/-- The entropies of the windows of two and of three bytes. -/
def ngramFeatures (order : List UInt32 → List UInt32) (data : List UInt8) : Float32 × Float32 :=
  if data.length < 3 then (0.0, 0.0)
  else
    let bigrams := pairs data
    let trigrams := bigrams.zip data.tail.tail
    let biEntropy := entropyOf (ofLen (data.length - 1)) (order (tally bigrams.dedup bigrams)) / 16.0
    let triEntropy := entropyOf (ofLen (data.length - 2)) (order (tally trigrams.dedup trigrams)) / 24.0
    (fmin biEntropy 1.0, fmin triEntropy 1.0)

/-- The category of a destination port. -/
def portCategory (port : Float32) : Float32 :=
  let port := port.toUInt16
  if port ≤ 1023 then 0.1 else if port ≤ 49151 then 0.5 else 0.9

/-! ## The encoder -/

abbrev Features := Vector Float32 128

/-- The length of the IP header. -/
def headerLength (first : UInt8) : ℕ := ((first &&& 0xF) * 4).toNat

/-- Block A, with the total length and the fragment offset. -/
def ipHeader (raw : List UInt8) (feat : Features) : Checked (Features × Float32 × Float32) := do
  let feat := feat.set 0 (((← byteAt raw 0) >>> 4) &&& 0xF).toFloat32
  let feat := feat.set 1 ((← byteAt raw 0) &&& 0xF).toFloat32
  let feat := feat.set 2 ((← byteAt raw 1).toFloat32 / 255.0)
  let totalLen := (← u16At raw 2).toFloat32
  let feat := feat.set 3 (totalLen / 65535.0)
  let feat := feat.set 4 ((← byteAt raw 8).toFloat32 / 255.0)
  let feat := feat.set 5 (← byteAt raw 9).toFloat32
  let feat := feat.set 6 (((← byteAt raw 6) >>> 5) &&& 0x7).toFloat32
  let fragOffset := ((← u16At raw 6) &&& 0x1FFF).toFloat32
  let feat := feat.set 7 (fragOffset / 8191.0)
  let feat := feat.set 8 ((← byteAt raw 12).toFloat32 / 255.0)
  let feat := feat.set 9 ((← byteAt raw 13).toFloat32 / 255.0)
  let feat := feat.set 10 ((← byteAt raw 14).toFloat32 / 255.0)
  let feat := feat.set 11 ((← byteAt raw 15).toFloat32 / 255.0)
  let feat := feat.set 12 ((← byteAt raw 16).toFloat32 / 255.0)
  let feat := feat.set 13 ((← byteAt raw 17).toFloat32 / 255.0)
  let feat := feat.set 14 ((← byteAt raw 18).toFloat32 / 255.0)
  let feat := feat.set 15 ((← byteAt raw 19).toFloat32 / 255.0)
  return (feat, totalLen, fragOffset)

/-- The flags and the window of a TCP header. -/
def tcpHeader (raw : List UInt8) (ihl : ℕ) (feat : Features) : Checked Features := do
  let tcpFlags ← byteAt raw (ihl + 13)
  let feat := feat.set 20 ((tcpFlags >>> 1) &&& 1).toFloat32
  let feat := feat.set 21 (tcpFlags &&& 1).toFloat32
  let feat := feat.set 22 ((tcpFlags >>> 2) &&& 1).toFloat32
  let feat := feat.set 23 ((tcpFlags >>> 3) &&& 1).toFloat32
  let feat := feat.set 24 ((tcpFlags >>> 4) &&& 1).toFloat32
  let feat := feat.set 25 ((tcpFlags >>> 5) &&& 1).toFloat32
  let win := (← u16At raw (ihl + 14)).toFloat32
  return feat.set 26 (win / 65535.0)

/-- TCP flags if the protocol is 6. -/
def tcpFeatures (raw : List UInt8) (ihl : ℕ) (feat : Features) : Checked Features := do
  if (← byteAt raw 9) = 6 ∧ ihl + 14 ≤ raw.length then tcpHeader raw ihl feat else return feat

/-- Block B. -/
def transportHeader (raw : List UInt8) (ihl : ℕ) (feat : Features) : Checked Features := do
  if ihl + 4 ≤ raw.length then
    let srcPort := (← u16At raw ihl).toFloat32
    let dstPort := (← u16At raw (ihl + 2)).toFloat32
    let feat := feat.set 16 (srcPort / 65535.0)
    let feat := feat.set 17 (dstPort / 65535.0)
    let feat := feat.set 18 (flag (dstPort ≤ 1024.0))
    let feat := feat.set 19 (flag (srcPort > 49151.0))
    let feat ← tcpFeatures raw ihl feat
    return feat.set 27 (fmax (ofLen raw.length - ofLen ihl) 0.0 / 1500.0)
  else return feat

/-- The end of the transport header: that of a TCP header is written in it. -/
def payloadStart (raw : List UInt8) (ihl : ℕ) : Checked ℕ := do
  if (← byteAt raw 9) = 6 then return ihl + (((← byteAt raw (ihl + 12)) >>> 4) * 4).toNat else return ihl + 8

/-- The bytes behind the transport header. -/
def payloadOf (raw : List UInt8) (ihl : ℕ) : Checked (List UInt8) := do
  let start ← payloadStart raw ihl
  if start < raw.length then slice raw start raw.length else return []

/-- Block C. -/
def statistics (payload : List UInt8) (feat : Features) : Checked Features := do
  let feat := feat.set 32 (shannonEntropy payload)
  let feat := feat.set 33 (byteMean payload)
  let feat := feat.set 34 (byteVariance payload)
  let feat := feat.set 35 (printableRatio payload)
  let feat := feat.set 36 (nullByteRatio payload)
  let feat := feat.set 37 (highByteRatio payload)
  let feat := feat.set 38 (repetitionScore payload)
  return feat.set 39 (← longestRun payload)

/-- Block D: 32 samples. -/
def histogram (payload : List UInt8) (feat : Features) : Checked Features :=
  if payload = [] then pure feat
  else (List.finRange 32).foldlM (fun feat i => do
    return feat.set (48 + i.val) ((← byteAt payload (i.val * payload.length / 32)).toFloat32 / 255.0)) feat

/-- Block E. -/
def fingerprints (order : List UInt32 → List UInt32) (payload : List UInt8) (feat : Features) : Checked Features := do
  let feat :=
    if 2 ≤ payload.length then
      ((feat.set 80 (ngramFeatures order payload).1).set 81 (ngramFeatures order payload).2)
    else feat
  let feat := feat.set 82 (flag (ascii "GET " <+: payload ∨ ascii "POST" <+: payload))
  let feat := feat.set 83 (flag (ascii "HTTP" <+: payload))
  let tls ← andThen (payload ≠ []) do return decide ((← byteAt payload 0) = 0x16)
  let feat := feat.set 84 (flag tls)
  let dns ← andThen (12 ≤ payload.length) do return decide ((← byteAt payload 2) &&& 0x80 = 0)
  let feat := feat.set 85 (flag dns)
  let feat := feat.set 86 (flag (ascii "SSH-" <+: payload))
  let smb ← andThen (4 ≤ payload.length) do return decide ((← slice payload 0 4) = 0xFF :: ascii "SMB")
  return feat.set 87 (flag smb)

/-- Block F. -/
def anomalies (raw : List UInt8) (totalLen fragOffset : Float32) (feat : Features) : Checked Features := do
  let protocol ← byteAt raw 9
  let feat := feat.set 96 (flag (protocol = 0))
  let feat := feat.set 97 (flag (fragOffset > 0.0))
  let feat := feat.set 98 (flag (feat[4] < 0.039))
  let feat := feat.set 99 (flag (totalLen < 40.0 / 65535.0))
  let feat := feat.set 100 (flag (feat[32] > 0.95))
  let feat := feat.set 101 (flag (feat[32] < 0.1))
  let feat := feat.set 102 (flag (feat[35] > 0.95))
  let feat := feat.set 103 (flag (protocol = 6 ∧ feat[20] == 1.0 ∧ feat[24] == 1.0))
  let feat := feat.set 104 (flag (protocol = 6 ∧ feat[20] == 1.0 ∧ feat[21] == 1.0))
  return feat.set 105 (portCategory (feat[17] * 65535.0))

/-- Encode a raw packet (starting from IP header) into a 128-float feature vector. -/
def encodePacket (order : List UInt32 → List UInt32) (raw : List UInt8) : Checked Features := do
  require (20 ≤ raw.length)
  let (feat, totalLen, fragOffset) ← ipHeader raw (Vector.replicate 128 0.0)
  let ihl := headerLength (← byteAt raw 0)
  let feat ← transportHeader raw ihl feat
  let payload ← payloadOf raw ihl
  let feat ← statistics payload feat
  let feat ← histogram payload feat
  let feat ← fingerprints order payload feat
  anomalies raw totalLen fragOffset feat

/-! ## Reads that stay in range -/

variable {data raw payload : List UInt8} {ihl : ℕ} {feat : Features}

/-- A fold of rounds that all yield a value yields one. -/
theorem yields_foldlM {α β : Type} {f : β → α → Checked β} {xs : List α}
    (h : ∀ x ∈ xs, ∀ b, Yields (fun _ => True) (f b x)) (b : β) : Yields (fun _ => True) (xs.foldlM f b) := by
  induction xs generalizing b with
  | nil => exact yields_pure trivial
  | cons x xs ih =>
    obtain ⟨hx, hxs⟩ := List.forall_mem_cons.1 h
    rw [List.foldlM_cons]
    exact (hx b).bind fun b' _ => ih hxs b'

theorem yields_longestRun (data : List UInt8) : Yields (fun _ => True) (longestRun data) := by
  unfold longestRun
  split_ifs with hnil
  · exact yields_pure trivial
  · refine (yields_foldlM (fun i hi runs => ?_) (1, 1)).bind fun _ _ => yields_pure trivial
    have hin : 1 ≤ i ∧ i < 1 + (data.length - 1) := List.mem_range'_1.1 hi
    refine (yields_byteAt (by omega)).bind fun b _ => (yields_byteAt (by omega)).bind fun b' _ => ?_
    split_ifs <;> exact yields_pure trivial

theorem yields_statistics (payload : List UInt8) (feat : Features) :
    Yields (fun _ => True) (statistics payload feat) :=
  (yields_longestRun payload).bind fun _ _ => yields_pure trivial

theorem yields_histogram (payload : List UInt8) (feat : Features) :
    Yields (fun _ => True) (histogram payload feat) := by
  unfold histogram
  split_ifs with hnil
  · exact yields_pure trivial
  · refine yields_foldlM (fun i _ feat => ?_) feat
    have hpos := List.length_pos_of_ne_nil hnil
    have hin : i.val * payload.length / 32 < payload.length := by
      rw [Nat.div_lt_iff_lt_mul (by decide), Nat.mul_comm]
      exact Nat.mul_lt_mul_of_pos_left i.isLt hpos
    exact (yields_byteAt hin).bind fun _ _ => yields_pure trivial

/-- A test that is only made if the bytes are there. -/
theorem yields_andThen {c : Prop} [Decidable c] {test : Checked Bool} (h : c → Yields (fun _ => True) test) :
    Yields (fun _ => True) (andThen c test) := by
  unfold andThen
  split_ifs with hc
  · exact h hc
  · exact yields_pure trivial

theorem yields_fingerprints (order : List UInt32 → List UInt32) (payload : List UInt8) (feat : Features) :
    Yields (fun _ => True) (fingerprints order payload feat) := by
  unfold fingerprints
  refine (yields_andThen fun hnil => ?_).bind fun _ _ => ?_
  · exact (yields_byteAt (List.length_pos_of_ne_nil hnil)).bind fun _ _ => yields_pure trivial
  refine (yields_andThen fun hdns => ?_).bind fun _ _ => ?_
  · exact (yields_byteAt (by omega)).bind fun _ _ => yields_pure trivial
  refine (yields_andThen fun hsmb => ?_).bind fun _ _ => yields_pure trivial
  exact (yields_slice (Nat.zero_le _) hsmb).bind fun _ _ => yields_pure trivial

theorem yields_ipHeader (h : 20 ≤ raw.length) (feat : Features) : Yields (fun _ => True) (ipHeader raw feat) := by
  have hbyte (pos : ℕ) (hpos : pos < 20) : Yields (fun _ => True) (byteAt raw pos) := yields_byteAt (by omega)
  unfold ipHeader
  refine (hbyte 0 (by omega)).bind fun _ _ => (hbyte 0 (by omega)).bind fun _ _ => (hbyte 1 (by omega)).bind fun _ _ =>
    (yields_u16At (by omega)).bind fun _ _ => (hbyte 8 (by omega)).bind fun _ _ => (hbyte 9 (by omega)).bind fun _ _ =>
    (hbyte 6 (by omega)).bind fun _ _ => (yields_u16At (by omega)).bind fun _ _ => ?_
  refine (hbyte 12 (by omega)).bind fun _ _ => (hbyte 13 (by omega)).bind fun _ _ => (hbyte 14 (by omega)).bind fun _ _ =>
    (hbyte 15 (by omega)).bind fun _ _ => (hbyte 16 (by omega)).bind fun _ _ => (hbyte 17 (by omega)).bind fun _ _ =>
    (hbyte 18 (by omega)).bind fun _ _ => (hbyte 19 (by omega)).bind fun _ _ => yields_pure trivial

theorem yields_anomalies (h : 20 ≤ raw.length) (totalLen fragOffset : Float32) (feat : Features) :
    Yields (fun _ => True) (anomalies raw totalLen fragOffset feat) :=
  (yields_byteAt (by omega)).bind fun _ _ => yields_pure trivial

/-! ## The two fields that decide -/

/-- Where the IP header of a packet ends by its first byte, and its protocol. -/
def ihlOf (raw : List UInt8) : ℕ := headerLength (raw.getD 0 0)

def protocolOf (raw : List UInt8) : UInt8 := raw.getD 9 0

theorem byteAt_getD {pos : ℕ} (h : pos < data.length) : byteAt data pos = .ok (data.getD pos 0) := by
  rw [byteAt, List.getD_eq_getElem?_getD, List.getElem?_eq_getElem h]
  rfl

theorem byteAt_panics {pos : ℕ} (h : data.length ≤ pos) : byteAt data pos = .error .panicked := by
  rw [byteAt, List.getElem?_eq_none h]

/-- A step that panics, after one that does not. -/
theorem bind_panics {α β : Type} {Q : α → Prop} {x : Checked α} {f : α → Checked β} (hx : Yields Q x)
    (hf : ∀ a, f a = .error .panicked) : x >>= f = .error .panicked := by
  obtain ⟨a, rfl, -⟩ := hx
  exact hf a

theorem panics_bind {α β : Type} {x : Checked α} (hx : x = .error .panicked) (f : α → Checked β) :
    x >>= f = .error .panicked := by
  rw [hx]
  rfl

/-- The window of a TCP header ends 16 bytes behind the IP header, two bytes behind the check. -/
def WindowCut (raw : List UInt8) : Prop := ihlOf raw + 14 ≤ raw.length ∧ raw.length < ihlOf raw + 16

theorem tcpFeatures_eq (h : 20 ≤ raw.length) (ihl : ℕ) (feat : Features) : tcpFeatures raw ihl feat =
    if protocolOf raw = 6 ∧ ihl + 14 ≤ raw.length then tcpHeader raw ihl feat else pure feat := by
  unfold tcpFeatures
  rw [byteAt_getD (by omega)]
  rfl

theorem payloadStart_eq (h : 20 ≤ raw.length) (ihl : ℕ) : payloadStart raw ihl =
    if protocolOf raw = 6 then do return ihl + (((← byteAt raw (ihl + 12)) >>> 4) * 4).toNat else pure (ihl + 8) := by
  unfold payloadStart
  rw [byteAt_getD (by omega)]
  rfl

theorem yields_tcpHeader (h : ihl + 16 ≤ raw.length) (feat : Features) :
    Yields (fun _ => True) (tcpHeader raw ihl feat) := by
  unfold tcpHeader
  refine (yields_byteAt (by omega)).bind fun _ _ => ?_
  exact (yields_u16At (by omega)).bind fun _ _ => yields_pure trivial

theorem tcpHeader_panics (hcut : WindowCut raw) (feat : Features) :
    tcpHeader raw (ihlOf raw) feat = .error .panicked := by
  obtain ⟨hfrom, hto⟩ := hcut
  have hwindow : u16At raw (ihlOf raw + 14) = .error .panicked := by
    refine panics_bind ?_ _
    by_cases hlen : raw.length ≤ ihlOf raw + 14
    · exact panics_bind (byteAt_panics hlen) _
    · refine bind_panics (yields_byteAt (by omega)) fun b => panics_bind ?_ _
      exact panics_bind (byteAt_panics (by omega)) _
  exact bind_panics (yields_byteAt (by omega)) fun _ => panics_bind hwindow _

theorem yields_tcpFeatures (h : 20 ≤ raw.length) (hcut : protocolOf raw = 6 → ¬ WindowCut raw) (feat : Features) :
    Yields (fun _ => True) (tcpFeatures raw (ihlOf raw) feat) := by
  rw [tcpFeatures_eq h]
  split_ifs with htcp
  · refine yields_tcpHeader ?_ feat
    have hnot := hcut htcp.1
    unfold WindowCut at hnot
    omega
  · exact yields_pure trivial

theorem yields_transportHeader (h : 20 ≤ raw.length) (hcut : protocolOf raw = 6 → ¬ WindowCut raw) (feat : Features) :
    Yields (fun _ => True) (transportHeader raw (ihlOf raw) feat) := by
  unfold transportHeader
  split_ifs with hports
  · exact (yields_u16At (by omega)).bind fun _ _ => (yields_u16At (by omega)).bind fun _ _ =>
      (yields_tcpFeatures h hcut _).bind fun _ _ => yields_pure trivial
  · exact yields_pure trivial

theorem transportHeader_panics (h : 20 ≤ raw.length) (htcp : protocolOf raw = 6) (hcut : WindowCut raw)
    (feat : Features) : transportHeader raw (ihlOf raw) feat = .error .panicked := by
  have hfrom := hcut.1
  unfold transportHeader
  rw [if_pos (by omega)]
  exact bind_panics (yields_u16At (by omega)) fun _ => bind_panics (yields_u16At (by omega)) fun _ =>
    panics_bind ((tcpFeatures_eq h _ _).trans ((if_pos ⟨htcp, hfrom⟩).trans (tcpHeader_panics hcut _))) _

theorem yields_payloadOf (h : 20 ≤ raw.length) (hoffset : protocolOf raw = 6 → ihlOf raw + 13 ≤ raw.length) :
    Yields (fun _ => True) (payloadOf raw (ihlOf raw)) := by
  have hstart : Yields (fun _ => True) (payloadStart raw (ihlOf raw)) := by
    rw [payloadStart_eq h]
    split_ifs with htcp
    · have := hoffset htcp
      exact (yields_byteAt (by omega)).bind fun _ _ => yields_pure trivial
    · exact yields_pure trivial
  refine hstart.bind fun start _ => ?_
  split_ifs with hin
  · exact (yields_slice hin.le le_rfl).imp fun _ h => ⟨h.1, trivial⟩
  · exact yields_pure trivial

theorem payloadOf_panics (h : 20 ≤ raw.length) (htcp : protocolOf raw = 6) (hshort : raw.length ≤ ihlOf raw + 12) :
    payloadOf raw (ihlOf raw) = .error .panicked := by
  refine panics_bind ?_ _
  rw [payloadStart_eq h, if_pos htcp]
  exact panics_bind (byteAt_panics hshort) _

/-! ## The encoder on any packet -/

theorem encodePacket_eq (order : List UInt32 → List UInt32) (h : 20 ≤ raw.length) :
    encodePacket order raw = (do
      let (feat, totalLen, fragOffset) ← ipHeader raw (Vector.replicate 128 0.0)
      let feat ← transportHeader raw (ihlOf raw) feat
      let payload ← payloadOf raw (ihlOf raw)
      let feat ← statistics payload feat
      let feat ← histogram payload feat
      let feat ← fingerprints order payload feat
      anomalies raw totalLen fragOffset feat) := by
  unfold encodePacket
  rw [require_of h, byteAt_getD (by omega)]
  rfl

/-- **The encoder yields features** unless a TCP header is cut off in its window or in front of its offset. -/
theorem yields_encodePacket (order : List UInt32 → List UInt32) (h : 20 ≤ raw.length)
    (htcp : protocolOf raw = 6 → ihlOf raw + 13 ≤ raw.length ∧ ¬ WindowCut raw) :
    Yields (fun _ => True) (encodePacket order raw) := by
  rw [encodePacket_eq order h]
  exact (yields_ipHeader h _).bind fun _ _ => (yields_transportHeader h (fun h => (htcp h).2) _).bind fun _ _ =>
    (yields_payloadOf h fun h => (htcp h).1).bind fun payload _ => (yields_statistics payload _).bind fun _ _ =>
    (yields_histogram payload _).bind fun _ _ => (yields_fingerprints order payload _).bind fun _ _ =>
    yields_anomalies h _ _ _

theorem encodePacket_panics (order : List UInt32 → List UInt32) (h : 20 ≤ raw.length) (htcp : protocolOf raw = 6)
    (hcut : raw.length ≤ ihlOf raw + 12 ∨ WindowCut raw) : encodePacket order raw = .error .panicked := by
  rw [encodePacket_eq order h]
  refine bind_panics (yields_ipHeader h _) fun _ => ?_
  by_cases hwindow : WindowCut raw
  · exact panics_bind (transportHeader_panics h htcp hwindow _) _
  · refine bind_panics (yields_transportHeader h (fun _ => hwindow) _) fun _ => ?_
    exact panics_bind (payloadOf_panics h htcp (hcut.resolve_right hwindow)) _

end ThorFirewall.Dpi
