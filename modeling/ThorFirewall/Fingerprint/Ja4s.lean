import ThorFirewall.Lib.ByteReader
import ThorFirewall.Lib.Utf8

/-!
# The ServerHello parser (`fingerprint/ja4s.rs`)

`parse_server_hello` checks that the handshake message is not empty, and cuts off its header of four bytes. A record of
one to three bytes panics there (`parseServerHello_panics_iff`), and nothing else does.
-/

namespace ThorFirewall.Fingerprint

open ByteReader Utf8

structure ServerHello where
  tlsVersion : UInt16
  supportedVersion : Option UInt16
  selectedCipher : UInt16
  extensions : List UInt16
  alpnSelected : Option (List Char)
  deriving DecidableEq

/-- What the loop over the extensions has collected. -/
structure ServerFound where
  extensions : List UInt16 := []
  supportedVersion : Option UInt16 := none
  alpnSelected : Option (List Char) := none

/-- The protocol that the server has chosen, if the extension holds it, else what was there before. -/
def readAlpnSelected (eb : List UInt8) (alpnSelected : Option (List Char)) : Checked (Option (List Char)) :=
  if 3 ≤ eb.length then do
    let protoLen ← byteAt eb 2
    if 3 + protoLen.toNat ≤ eb.length then do
      let proto ← slice eb 3 (3 + protoLen.toNat)
      return fromUtf8 proto
    else return alpnSelected
  else return alpnSelected

/-- One extension. -/
def readServerExtension (found : ServerFound) (extType : UInt16) (eb : List UInt8) : Checked ServerFound := do
  let found := { found with extensions := found.extensions ++ [extType] }
  if extType = 0x002b then
    if 2 ≤ eb.length then return { found with supportedVersion := some (← u16At eb 0) }
    else return found
  else if extType = 0x0010 then
    return { found with alpnSelected := ← readAlpnSelected eb found.alpnSelected }
  else return found

/-- The loop over the extensions. -/
def parseServerExtensions (body : List UInt8) (extEnd ep : ℕ) (found : ServerFound) : Checked ServerFound :=
  if _h : ep + 4 ≤ extEnd then do
    let extType ← u16At body ep
    let extLen ← u16At body (ep + 2)
    let ep' := ep + 4
    if ep' + extLen.toNat ≤ extEnd then do
      let eb ← slice body ep' (ep' + extLen.toNat)
      let found ← readServerExtension found extType eb
      parseServerExtensions body extEnd (ep' + extLen.toNat) found
    else return found
  else return found
termination_by extEnd - ep

/-- The message behind its header. -/
def parseServerBody (body : List UInt8) : Checked ServerHello := do
  require (34 ≤ body.length)
  let tlsVersion ← u16At body 0
  let pos := 34
  require (pos < body.length)
  let sidLen ← byteAt body pos
  let pos := pos + (1 + sidLen.toNat)
  require (pos + 2 ≤ body.length)
  let selectedCipher ← u16At body pos
  let pos := pos + 2
  let pos := pos + 1
  if pos + 2 > body.length then
    return { tlsVersion, supportedVersion := none, selectedCipher, extensions := [], alpnSelected := none }
  else do
    let extTotal ← u16At body pos
    let pos := pos + 2
    let extEnd := min (pos + extTotal.toNat) body.length
    let found ← parseServerExtensions body extEnd pos {}
    return {
      tlsVersion
      supportedVersion := found.supportedVersion
      selectedCipher
      extensions := found.extensions
      alpnSelected := found.alpnSelected }

def parseServerHello (data : List UInt8) : Checked ServerHello := do
  require (5 ≤ data.length)
  let contentType ← byteAt data 0
  require (contentType = 0x16)
  let recordLen ← u16At data 3
  require (5 + recordLen.toNat ≤ data.length)
  let hs ← slice data 5 (5 + recordLen.toNat)
  require (hs ≠ [])
  let msgType ← byteAt hs 0
  require (msgType = 0x02)
  -- the parser of the client's hello asks here for the four bytes of the header
  let body ← slice hs 4 hs.length
  parseServerBody body

/-- A handshake record of one to three bytes that begins like a ServerHello. -/
def CutHeader (data : List UInt8) : Prop :=
  ∃ major minor high low rest, data = 0x16 :: major :: minor :: high :: low :: 0x02 :: rest ∧
    1 ≤ ofBe [high, low] ∧ ofBe [high, low] ≤ 3 ∧ ofBe [high, low] ≤ rest.length + 1

/-! ## Behind the header -/

theorem readServerExtension_yields (found : ServerFound) (extType : UInt16) (eb : List UInt8) :
    Yields (fun _ => True) (readServerExtension found extType eb) := by
  unfold readServerExtension
  simp only
  split
  · split
    · next hlen => exact (yields_u16At hlen).bind fun _ _ => yields_pure trivial
    · exact yields_pure trivial
  split
  · refine Yields.bind (Q := fun _ => True) ?_ fun _ _ => yields_pure trivial
    unfold readAlpnSelected
    split
    · apply (yields_byteAt (by omega)).bind
      intro protoLen _
      split
      · next hproto => exact (yields_slice (Nat.le_add_right _ _) hproto).bind fun _ _ => yields_pure trivial
      · exact yields_pure trivial
    · exact yields_pure trivial
  · exact yields_pure trivial

theorem parseServerExtensions_yields (body : List UInt8) (extEnd ep : ℕ) (found : ServerFound)
    (hend : extEnd ≤ body.length) : Yields (fun _ => True) (parseServerExtensions body extEnd ep found) := by
  rw [parseServerExtensions]
  split
  · next hep =>
    apply (yields_u16At (by omega)).bind
    intro extType _
    apply (yields_u16At (by omega)).bind
    intro extLen _
    simp only
    split
    · next hext =>
      apply (yields_slice (by omega) (by omega)).bind
      intro eb _
      apply (readServerExtension_yields found extType eb).bind
      intro found _
      exact parseServerExtensions_yields body extEnd _ found hend
    · exact yields_pure trivial
  · exact yields_pure trivial
termination_by extEnd - ep

theorem parseServerBody_ensures (body : List UInt8) : Ensures (fun _ => True) (parseServerBody body) := by
  unfold parseServerBody
  apply ensures_require.bind
  intro _ hrandom
  apply (yields_u16At (by omega)).ensures.bind
  intro tlsVersion _
  apply ensures_require.bind
  intro _ hsid
  apply (yields_byteAt hsid).ensures.bind
  intro sidLen _
  apply ensures_require.bind
  intro _ hcipher
  apply (yields_u16At hcipher).ensures.bind
  intro selectedCipher _
  simp only
  split
  · trivial
  · apply (yields_u16At (by omega)).ensures.bind
    intro extTotal _
    exact (parseServerExtensions_yields body _ _ _ (Nat.min_le_right _ _)).ensures.bind fun _ _ => trivial

/-! ## The header -/

theorem toNat_ofBe_pair (high low : UInt8) : (UInt16.ofNat (ofBe [high, low])).toNat = ofBe [high, low] := by
  have hhigh := high.toNat_lt
  have hlow := low.toNat_lt
  apply UInt16.toNat_ofNat_of_lt'
  simp only [ofBe, List.foldl_cons, List.foldl_nil, UInt16.size]
  omega

/-- A message of a ServerHello that is shorter than its header. -/
theorem cutHeader_of_short {data hs : List UInt8} {recordLen : UInt16} (htype : byteAt data 0 = .ok 0x16)
    (hrecord : u16At data 3 = .ok recordLen) (hslice : slice data 5 (5 + recordLen.toNat) = .ok hs)
    (hmsg : byteAt hs 0 = .ok 0x02) (hshort : hs.length < 4) : CutHeader data := by
  obtain ⟨high, low, hhigh, hlow, rfl⟩ := u16At_eq_ok.1 hrecord
  obtain ⟨⟨-, hfits⟩, rfl⟩ := slice_eq_ok.1 hslice
  rw [toNat_ofBe_pair] at hfits hmsg hshort
  rw [byteAt_eq_ok] at htype hmsg
  match data, hhigh, hlow with
  | a :: major :: minor :: d :: e :: rest, hhigh, hlow =>
    cases Option.some.inj htype
    cases Option.some.inj hhigh
    cases Option.some.inj hlow
    rw [Nat.add_sub_cancel_left, List.getElem?_take] at hmsg
    rw [Nat.add_sub_cancel_left, List.length_take] at hshort
    split_ifs at hmsg with hpos
    match rest with
    | m :: rest =>
      cases Option.some.inj hmsg
      simp only [List.drop_succ_cons, List.drop_zero, List.length_cons] at hfits hshort
      exact ⟨major, minor, high, low, rest, rfl, hpos, by omega, by omega⟩

/-- **The ServerHello parser panics** exactly on a message that ends within its header. -/
theorem parseServerHello_panics_iff (data : List UInt8) :
    parseServerHello data = .error .panicked ↔ CutHeader data := by
  constructor
  · intro hpanic
    by_contra hcut
    refine (?_ : Ensures (fun _ => True) (parseServerHello data)).ne_panicked hpanic
    unfold parseServerHello
    apply ensures_require.bind
    intro _ hlen
    apply (yields_byteAt (by omega)).eq_ok.ensures.bind
    intro contentType ⟨_, htype⟩
    apply ensures_require.bind
    intro _ hhandshake
    apply (yields_u16At (by omega)).eq_ok.ensures.bind
    intro recordLen ⟨_, hrecord⟩
    apply ensures_require.bind
    intro _ hfits
    apply (yields_slice (Nat.le_add_right _ _) hfits).eq_ok.ensures.bind
    intro hs ⟨_, hslice⟩
    apply ensures_require.bind
    intro _ hne
    apply (yields_byteAt (List.length_pos_of_ne_nil hne)).eq_ok.ensures.bind
    intro msgType ⟨_, hmsg⟩
    apply ensures_require.bind
    intro _ hhello
    -- the guard that is missing
    have hheader : 4 ≤ hs.length := by
      by_contra hshort
      exact hcut (cutHeader_of_short (hhandshake ▸ htype) hrecord hslice (hhello ▸ hmsg) (by omega))
    apply (yields_slice hheader (Nat.le_refl _)).ensures.bind
    intro body _
    exact parseServerBody_ensures body
  · rintro ⟨major, minor, high, low, rest, rfl, hpos, hshort, hfits⟩
    have hlen : 5 ≤ (0x16 :: major :: minor :: high :: low :: 0x02 :: rest).length := by
      simp only [List.length_cons]
      omega
    have htype : byteAt (0x16 :: major :: minor :: high :: low :: 0x02 :: rest) 0 = .ok 0x16 := rfl
    have hrecord : u16At (0x16 :: major :: minor :: high :: low :: 0x02 :: rest) 3 =
        .ok (UInt16.ofNat (ofBe [high, low])) := rfl
    have hfits' : 5 + ofBe [high, low] ≤ (0x16 :: major :: minor :: high :: low :: 0x02 :: rest).length := by
      simp only [List.length_cons]
      omega
    obtain ⟨m, hm⟩ := Nat.exists_eq_add_of_le' hpos
    have hslice : slice (0x16 :: major :: minor :: high :: low :: 0x02 :: rest) 5 (5 + ofBe [high, low]) =
        .ok (0x02 :: rest.take m) := by
      rw [slice, if_pos ⟨Nat.le_add_right _ _, hfits'⟩, Nat.add_sub_cancel_left, hm]
      rfl
    have hmsg : byteAt (0x02 :: rest.take m) 0 = .ok 0x02 := rfl
    have hbody : slice (0x02 :: rest.take m) 4 (0x02 :: rest.take m).length = .error .panicked := by
      apply if_neg
      rw [List.length_cons, List.length_take]
      omega
    rw [← toNat_ofBe_pair] at hfits' hslice
    simp only [parseServerHello, require_of hlen, htype, hrecord, require_of hfits', hslice,
      require_of (List.cons_ne_nil _ _), require_of trivial, hmsg, hbody, bind, Except.bind]

end ThorFirewall.Fingerprint
