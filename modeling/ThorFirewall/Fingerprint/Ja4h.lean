import ThorFirewall.Lib.ByteReader
import ThorFirewall.Lib.KeyedList
import ThorFirewall.Lib.Utf8

/-!
# The HTTP/2 parser (`fingerprint/ja4h.rs`)

`extract_ja4h_from_h2` goes over the frames of a connection, each cut off at the end of the bytes; SETTINGS are read as
pairs of six bytes, and of HEADERS a scanner takes the literal names. Whatever the bytes are, no index is out of range,
and the settings are those of one frame, by identifier and in order (`extractJa4hFromH2_yields`).
-/

namespace ThorFirewall.Fingerprint

open ByteReader KeyedList Utf8

structure Http2Settings where
  params : List (UInt16 × UInt32) := []
  map : List (UInt16 × UInt32) := []

structure Http2HeadersMeta where
  pseudoOrder : List (List Char) := []
  headerOrder : List (List Char) := []
  hasCookie : Bool := false

/-- `params.push((id, val)); map.insert(id, val)`. -/
def Http2Settings.push (settings : Http2Settings) (id : UInt16) (val : UInt32) : Http2Settings where
  params := settings.params ++ [(id, val)]
  map := upsert Prod.fst (id, val) settings.map

/-- The value of an identifier is the last one on the wire. -/
def Http2Settings.Consistent (settings : Http2Settings) : Prop :=
  ∀ id, lookup Prod.fst id settings.map = last Prod.fst id settings.params

/-! ## Frames -/

/-- The loop over the parameters. -/
def parseSettings (payload : List UInt8) (i : ℕ) (settings : Http2Settings) : Checked Http2Settings :=
  if _h : i + 5 < payload.length then do
    let id ← u16At payload i
    let val ← u32At payload (i + 2)
    parseSettings payload (i + 6) (settings.push id val)
  else return settings
termination_by payload.length - i

def parseSettingsFrame (payload : List UInt8) : Checked Http2Settings := parseSettings payload 0 {}

/-- The length, the type, the flags and the stream of a frame. -/
def parseFrameHeader (data : List UInt8) : Checked (UInt32 × UInt8 × UInt8 × UInt32) := do
  require (9 ≤ data.length)
  let length ← bytesAt data 0 3
  let frameType ← byteAt data 3
  let flags ← byteAt data 4
  let high ← byteAt data 5
  let low ← bytesAt data 6 3
  return (UInt32.ofNat (ofBe length), frameType, flags, UInt32.ofNat (ofBe ((high &&& 0x7f) :: low)))

/-- A string with its length in front, and how many bytes it takes. -/
def hpackReadString (data : List UInt8) : Checked (List Char × ℕ) := do
  require (data ≠ [])
  let first ← byteAt data 0
  let huffman := first &&& 0x80 ≠ 0
  let len := (first &&& 0x7f).toNat
  require (1 + len ≤ data.length)
  let bytes ← slice data 1 (1 + len)
  if huffman then return ("(hpack-huffman)".toList, 1 + len)
  else return ((fromUtf8 bytes).getD [], 1 + len)

section Headers

variable (toLowercase : List Char → List Char)

/-- A name of a header. -/
def Http2HeadersMeta.push (headers : Http2HeadersMeta) (name : List Char) : Http2HeadersMeta :=
  let lower := toLowercase name
  if [':'].isPrefixOf lower then { headers with pseudoOrder := headers.pseudoOrder ++ [lower] }
  else if lower = "cookie".toList then { headers with hasCookie := true }
  else { headers with headerOrder := headers.headerOrder ++ [lower] }

/-- The loop over the header fields. -/
def parseHpackHeaderNames (payload : List UInt8) (i : ℕ) (headers : Http2HeadersMeta) : Checked Http2HeadersMeta :=
  if _h : i < payload.length then do
    let b ← byteAt payload i
    if b &&& 0x80 ≠ 0 then parseHpackHeaderNames payload (i + 1) headers
    else if b &&& 0x40 ≠ 0 ∨ b &&& 0xf0 = 0 ∨ b &&& 0xf0 = 0x10 then
      let i' := i + 1
      if payload.length ≤ i' then return headers
      else do
        let next ← byteAt payload i'
        if next = 0x00 then do
          let i' := i' + 1
          let rest ← slice payload i' payload.length
          match ← attempt (hpackReadString rest) with
          | some (name, consumed) => do
            let headers := headers.push toLowercase name
            let i' := i' + consumed
            let rest ← slice payload i' payload.length
            let consumedVal := match ← attempt (hpackReadString rest) with
              | some (_, consumedVal) => consumedVal
              | none => 0
            parseHpackHeaderNames payload (i' + consumedVal) headers
          | none => parseHpackHeaderNames payload (i' + 1) headers
        else parseHpackHeaderNames payload (i' + 1) headers
    else parseHpackHeaderNames payload (i + 1) headers
  else return headers
termination_by payload.length - i

/-- The loop over the frames. -/
def parseFrames (data : List UInt8) (cursor : ℕ) (settings : Http2Settings) (headers : Http2HeadersMeta) :
    Checked (Http2Settings × Http2HeadersMeta) :=
  if _h : cursor + 9 ≤ data.length then do
    let rest ← slice data cursor data.length
    let (length, frameType, _flags, _streamId) ← parseFrameHeader rest
    let payloadStart := cursor + 9
    let payloadEnd := min (payloadStart + length.toNat) data.length
    if frameType = 0x4 then do
      let payload ← slice data payloadStart payloadEnd
      let s ← parseSettingsFrame payload
      parseFrames data payloadEnd (if s.params ≠ [] then s else settings) headers
    else if frameType = 0x1 then do
      let payload ← slice data payloadStart payloadEnd
      let headers ← parseHpackHeaderNames toLowercase payload 0 headers
      parseFrames data payloadEnd settings headers
    else parseFrames data payloadEnd settings headers
  else return (settings, headers)
termination_by data.length - cursor

def preface : List UInt8 := "PRI * HTTP/2.0\r\n\r\nSM\r\n\r\n".toList.map fun c => UInt8.ofNat c.toNat

def extractJa4hFromH2 (data : List UInt8) : Checked (Http2Settings × Http2HeadersMeta) :=
  let cursor := if preface.isPrefixOf data then preface.length else 0
  parseFrames toLowercase data cursor {} {}

end Headers

/-! ## Settings -/

theorem Http2Settings.Consistent.push {settings : Http2Settings} (h : settings.Consistent) (id : UInt16)
    (val : UInt32) : (settings.push id val).Consistent := by
  intro k
  rw [Http2Settings.push, lookup_upsert, last_concat, h k]

theorem parseSettings_yields (payload : List UInt8) (i : ℕ) (settings : Http2Settings) (h : settings.Consistent) :
    Yields Http2Settings.Consistent (parseSettings payload i settings) := by
  rw [parseSettings]
  split
  · next hi =>
    apply (yields_u16At (by omega)).bind
    intro id _
    apply (yields_u32At (by omega)).bind
    intro val _
    exact parseSettings_yields payload (i + 6) _ (h.push id val)
  · exact yields_pure h
termination_by payload.length - i

theorem consistent_empty : ({} : Http2Settings).Consistent := fun _ => rfl

theorem parseSettingsFrame_yields (payload : List UInt8) :
    Yields Http2Settings.Consistent (parseSettingsFrame payload) :=
  parseSettings_yields payload 0 {} consistent_empty

/-! ## Headers -/

/-- A string ends within the bytes. -/
theorem hpackReadString_ensures (data : List UInt8) :
    Ensures (fun r => r.2 ≤ data.length) (hpackReadString data) := by
  unfold hpackReadString
  apply ensures_require.bind
  intro _ hne
  apply (yields_byteAt (List.length_pos_of_ne_nil hne)).ensures.bind
  intro first _
  apply ensures_require.bind
  intro _ hlen
  apply (yields_slice (Nat.le_add_right _ _) hlen).ensures.bind
  intro bytes _
  split <;> exact hlen

variable (toLowercase : List Char → List Char)

theorem parseHpackHeaderNames_yields (payload : List UInt8) (i : ℕ) (headers : Http2HeadersMeta) :
    Yields (fun _ => True) (parseHpackHeaderNames toLowercase payload i headers) := by
  rw [parseHpackHeaderNames]
  split
  · next hi =>
    apply (yields_byteAt hi).bind
    intro b _
    split
    · exact parseHpackHeaderNames_yields payload (i + 1) headers
    split
    · simp only
      split
      · exact yields_pure trivial
      next hi' =>
      apply (yields_byteAt (by omega)).bind
      intro next _
      split
      · -- a name of its own, and its value behind it
        apply (yields_slice (by omega) (Nat.le_refl _)).bind
        intro rest hrest
        apply (hpackReadString_ensures rest).attempt.bind
        intro found hfound
        split
        · next name consumed =>
          have hconsumed : consumed ≤ rest.length := hfound _ rfl
          apply (yields_slice (by omega) (Nat.le_refl _)).bind
          intro rest' _
          apply (hpackReadString_ensures rest').attempt.bind
          intro value _
          exact parseHpackHeaderNames_yields payload _ _
        · exact parseHpackHeaderNames_yields payload _ headers
      · exact parseHpackHeaderNames_yields payload _ headers
    · exact parseHpackHeaderNames_yields payload (i + 1) headers
  · exact yields_pure trivial
termination_by payload.length - i

/-! ## Connections -/

theorem parseFrameHeader_yields {data : List UInt8} (h : 9 ≤ data.length) :
    Yields (fun _ => True) (parseFrameHeader data) := by
  unfold parseFrameHeader
  rw [require_of h]
  apply (yields_bytesAt (by omega)).bind
  intro length _
  apply (yields_byteAt (by omega)).bind
  intro frameType _
  apply (yields_byteAt (by omega)).bind
  intro flags _
  apply (yields_byteAt (by omega)).bind
  intro high _
  exact (yields_bytesAt (by omega)).bind fun _ _ => yields_pure trivial

theorem parseFrames_yields (data : List UInt8) (cursor : ℕ) (settings : Http2Settings) (headers : Http2HeadersMeta)
    (h : settings.Consistent) :
    Yields (fun r => r.1.Consistent) (parseFrames toLowercase data cursor settings headers) := by
  rw [parseFrames]
  split
  · next hcursor =>
    apply (yields_slice (by omega) (Nat.le_refl _)).bind
    intro rest hrest
    apply (parseFrameHeader_yields (by omega)).bind
    intro header _
    simp only
    split
    · apply (yields_slice (by omega) (Nat.min_le_right _ _)).bind
      intro payload _
      apply (parseSettingsFrame_yields payload).bind
      intro s hs
      apply parseFrames_yields data _ _ headers
      split
      · exact hs
      · exact h
    split
    · apply (yields_slice (by omega) (Nat.min_le_right _ _)).bind
      intro payload _
      apply (parseHpackHeaderNames_yields toLowercase payload 0 headers).bind
      intro headers _
      exact parseFrames_yields data _ settings headers h
    · exact parseFrames_yields data _ settings headers h
  · exact yields_pure h
termination_by data.length - cursor

/-- **Any connection is read**, and its settings are consistent. -/
theorem extractJa4hFromH2_yields (data : List UInt8) :
    Yields (fun r => r.1.Consistent) (extractJa4hFromH2 toLowercase data) :=
  parseFrames_yields toLowercase data _ {} {} consistent_empty

end ThorFirewall.Fingerprint
