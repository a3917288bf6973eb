import ThorFirewall.Fingerprint.ClientHello
import ThorFirewall.Fingerprint.Ja4h
import ThorFirewall.Fingerprint.Ja4s
import ThorFirewall.Fingerprint.ServerName

/-!
# The fingerprint parsers on any packet

Each of the parsers is run on bytes from the network. They read at positions that they have compared with the length
before, but for the header of a ServerHello (`survives_iff`).
-/

namespace ThorFirewall.Fingerprint

open ByteReader

variable (data : List UInt8)

/-! ## Hellos of clients -/

theorem parseExtensions_yields (extData : List UInt8) (ep : ℕ) (found : Found) :
    Yields (fun _ => True) (parseExtensions extData ep found) := by
  rw [parseExtensions_eq]
  exact yields_pure trivial

theorem parseClientHello_ensures : Ensures (fun _ => True) (parseClientHello data) := by
  unfold parseClientHello
  apply ensures_require.bind
  intro _ hlen
  apply (yields_byteAt (by omega)).ensures.bind
  intro contentType _
  apply ensures_require.bind
  intro _ _
  apply (yields_u16At (by omega)).ensures.bind
  intro recordLen _
  apply ensures_require.bind
  intro _ hrecord
  apply (yields_slice (by omega) hrecord).ensures.bind
  intro hs _
  apply ensures_require.bind
  intro _ hne
  apply (yields_byteAt (List.length_pos_of_ne_nil hne)).ensures.bind
  intro msgType _
  apply ensures_require.bind
  intro _ _
  apply ensures_require.bind
  intro _ hheader
  apply (yields_slice hheader (Nat.le_refl _)).ensures.bind
  intro body _
  apply ensures_require.bind
  intro _ hrandom
  apply (yields_u16At (by omega)).ensures.bind
  intro tlsVersion _
  apply ensures_require.bind
  intro _ hsid
  apply (yields_byteAt hsid).ensures.bind
  intro sidLen _
  apply ensures_require.bind
  intro _ hciphers
  apply (yields_u16At hciphers).ensures.bind
  intro csLen _
  apply ensures_require.bind
  intro _ hsuites
  apply (yields_slice (Nat.le_add_right _ _) hsuites).ensures.bind
  intro suites _
  apply ensures_require.bind
  intro _ hcomp
  apply (yields_byteAt hcomp).ensures.bind
  intro compLen _
  apply ensures_require.bind
  intro _ htotal
  apply (yields_u16At htotal).ensures.bind
  intro extTotal _
  apply ensures_require.bind
  intro _ hend
  apply (yields_slice (Nat.le_add_right _ _) hend).ensures.bind
  intro extData _
  exact (parseExtensions_yields extData 0 {}).ensures.bind fun _ _ => trivial

/-! ## Server names -/

theorem readSni_ensures {handshake : List UInt8} {pos extLen : ℕ} (h : pos + extLen ≤ handshake.length) :
    Ensures (fun _ => True) (readSni handshake pos extLen) := by
  unfold readSni
  apply ensures_require.bind
  intro _ hlen
  apply (yields_byteAt (by omega)).ensures.bind
  intro sniType _
  apply ensures_require.bind
  intro _ _
  apply (yields_u16At (by omega)).ensures.bind
  intro nameLen _
  apply ensures_require.bind
  intro _ hname
  apply (yields_slice (Nat.le_add_right _ _) hname).ensures.bind
  intro nameBytes _
  cases asciiName nameBytes with
  | some name => trivial
  | none => exact ensures_reject

theorem findSni_ensures {handshake : List UInt8} {extEnd : ℕ} (pos : ℕ) (hend : extEnd ≤ handshake.length) :
    Ensures (fun _ => True) (findSni handshake extEnd pos) := by
  rw [findSni]
  split
  · next hpos =>
    apply (yields_u16At (by omega)).ensures.bind
    intro extType _
    apply (yields_u16At (by omega)).ensures.bind
    intro extLen _
    simp only
    split
    · next hext =>
      split
      · exact readSni_ensures (hext.trans hend)
      · exact findSni_ensures _ hend
    · exact ensures_reject
  · exact ensures_reject
termination_by extEnd - pos

theorem extractSni_ensures : Ensures (fun _ => True) (extractSni data) := by
  unfold extractSni
  apply ensures_require.bind
  intro _ hlen
  apply (yields_byteAt (by omega)).ensures.bind
  intro contentType _
  apply (yields_byteAt (by omega)).ensures.bind
  intro versionMajor _
  apply (yields_byteAt (by omega)).ensures.bind
  intro versionMinor _
  apply (yields_u16At (by omega)).ensures.bind
  intro recordLen _
  apply ensures_require.bind
  intro _ _
  apply ensures_require.bind
  intro _ _
  apply (yields_slice hlen (Nat.le_refl _)).ensures.bind
  intro handshake _
  apply ensures_require.bind
  intro _ hne
  apply (yields_byteAt (List.length_pos_of_ne_nil hne)).ensures.bind
  intro msgType _
  apply ensures_require.bind
  intro _ _
  apply ensures_require.bind
  intro _ hlong
  apply (yields_byteAt (by omega)).ensures.bind
  intro sessionIdLen _
  apply ensures_require.bind
  intro _ hciphers
  apply (yields_u16At hciphers).ensures.bind
  intro cipherLen _
  apply ensures_require.bind
  intro _ hcomp
  apply (yields_byteAt hcomp).ensures.bind
  intro compLen _
  apply ensures_require.bind
  intro _ htotal
  apply (yields_u16At htotal).ensures.bind
  intro extTotal _
  apply ensures_require.bind
  intro _ hend
  exact findSni_ensures _ hend

/-! ## All of them -/

/-- None of the parsers reads out of range: each returns something, or rejects the bytes. The scanner of names begins
with whatever has been found before. -/
structure Survives (toLowercase : List Char → List Char) : Prop where
  clientHello : parseClientHello data ≠ .error .panicked
  serverHello : parseServerHello data ≠ .error .panicked
  sni : extractSni data ≠ .error .panicked
  settings : parseSettingsFrame data ≠ .error .panicked
  connection : extractJa4hFromH2 toLowercase data ≠ .error .panicked
  names : ∀ headers, parseHpackHeaderNames toLowercase data 0 headers ≠ .error .panicked

/-- **The fingerprint parsers survive a packet** unless it is a ServerHello that ends within the header of its
message. -/
theorem survives_iff (toLowercase : List Char → List Char) : Survives data toLowercase ↔ ¬ CutHeader data := by
  rw [← parseServerHello_panics_iff]
  constructor
  · intro h
    exact h.serverHello
  · intro hserver
    constructor
    · exact (parseClientHello_ensures data).ne_panicked
    · exact hserver
    · exact (extractSni_ensures data).ne_panicked
    · exact (parseSettingsFrame_yields data).ensures.ne_panicked
    · exact (extractJa4hFromH2_yields toLowercase data).ensures.ne_panicked
    · intro headers
      exact (parseHpackHeaderNames_yields toLowercase data 0 headers).ensures.ne_panicked

/-- A handshake record of one byte, the type of a ServerHello. -/
def oneByte : List UInt8 := [0x16, 0x03, 0x03, 0x00, 0x01, 0x02]

/-- **A record that panics**: it has the type of a ServerHello and nothing else. -/
theorem oneByte_panics : ¬ Survives oneByte id := by
  intro h
  apply h.serverHello
  rfl

end ThorFirewall.Fingerprint
