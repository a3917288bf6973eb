import ThorFirewall.Lib.ByteReader
import ThorFirewall.Lib.Utf8

/-!
# The ClientHello parser

`parse_client_hello`: a TLS record with a ClientHello, its cipher suites and its extensions. Each loop over the body of
an extension is a function of the body (`readU16s_eq`, `readAlpn_eq`, `readExtension_eq`), and the loop over the
extensions folds these over the extensions that lie in the block (`parseExtensions_eq`).
-/

namespace ThorFirewall.Fingerprint

open ByteReader Utf8

structure ClientHello where
  tlsVersion : UInt16
  supportedVersions : List UInt16
  cipherSuites : List UInt16
  extensions : List UInt16
  sni : Option (List Char)
  alpn : List (List Char)
  signatureAlgorithms : List UInt16
  supportedGroups : List UInt16
  deriving DecidableEq

/-! ## Extensions -/

/-- What the loop over the extensions has collected. -/
structure Found where
  extensions : List UInt16 := []
  sni : Option (List Char) := none
  alpn : List (List Char) := []
  signatureAlgorithms : List UInt16 := []
  supportedGroups : List UInt16 := []
  supportedVersions : List UInt16 := []

/-- The host name of a server_name extension, if it is one, else what was there before. -/
def readServerName (extBody : List UInt8) (sni : Option (List Char)) : Checked (Option (List Char)) :=
  if 5 ≤ extBody.length then do
    let kind ← byteAt extBody 2
    if kind = 0 then do
      let nameLen ← u16At extBody 3
      if 5 + nameLen.toNat ≤ extBody.length then do
        let name ← slice extBody 5 (5 + nameLen.toNat)
        return fromUtf8 name
      else return sni
    else return sni
  else return sni

/-- The loop over the names of an ALPN extension; a name that is not UTF-8 is left out. -/
def readAlpn (extBody : List UInt8) (ap : ℕ) (alpn : List (List Char)) : Checked (List (List Char)) :=
  if _h : ap + 1 ≤ extBody.length then do
    let protoLen ← byteAt extBody ap
    let ap' := ap + 1
    if ap' + protoLen.toNat ≤ extBody.length then do
      let proto ← slice extBody ap' (ap' + protoLen.toNat)
      let alpn := match fromUtf8 proto with
        | some s => alpn ++ [s]
        | none => alpn
      readAlpn extBody (ap' + protoLen.toNat) alpn
    else return alpn
  else return alpn
termination_by extBody.length - ap

/-- The loop over a list of numbers, up to `limit` or the end of the body. -/
def readU16s (extBody : List UInt8) (limit sp : ℕ) (values : List UInt16) : Checked (List UInt16) :=
  if _h : sp + 2 ≤ limit ∧ sp + 2 ≤ extBody.length then do
    let value ← u16At extBody sp
    readU16s extBody limit (sp + 2) (values ++ [value])
  else return values
termination_by extBody.length - sp

/-- The numbers behind a length of two bytes. -/
def readU16List (extBody : List UInt8) (values : List UInt16) : Checked (List UInt16) :=
  if 2 ≤ extBody.length then do
    let len ← u16At extBody 0
    readU16s extBody (len.toNat + 2) 2 values
  else return values

/-- One extension. -/
def readExtension (found : Found) (extType : UInt16) (extBody : List UInt8) : Checked Found := do
  let found := { found with extensions := found.extensions ++ [extType] }
  if extType = 0x0000 then
    return { found with sni := ← readServerName extBody found.sni }
  else if extType = 0x0010 then
    return { found with alpn := ← readAlpn extBody 2 found.alpn }
  else if extType = 0x000d then
    return { found with signatureAlgorithms := ← readU16List extBody found.signatureAlgorithms }
  else if extType = 0x000a then
    return { found with supportedGroups := ← readU16List extBody found.supportedGroups }
  else if extType = 0x002b then
    if extBody = [] then return found
    else do
      let len ← byteAt extBody 0
      return { found with supportedVersions := ← readU16s extBody (len.toNat + 1) 1 found.supportedVersions }
  else return found

/-- The loop over the extensions. -/
def parseExtensions (extData : List UInt8) (ep : ℕ) (found : Found) : Checked Found :=
  if _h : ep + 4 ≤ extData.length then do
    let extType ← u16At extData ep
    let extLen ← u16At extData (ep + 2)
    let ep' := ep + 4
    if ep' + extLen.toNat ≤ extData.length then do
      let extBody ← slice extData ep' (ep' + extLen.toNat)
      let found ← readExtension found extType extBody
      parseExtensions extData (ep' + extLen.toNat) found
    else return found
  else return found
termination_by extData.length - ep

/-! ## The record -/

/-- The numbers that pairs of bytes spell; an odd byte at the end is dropped. -/
def u16Chunks : List UInt8 → List UInt16
  | a :: b :: rest => UInt16.ofNat (ofBe [a, b]) :: u16Chunks rest
  | _ => []

def parseClientHello (data : List UInt8) : Checked ClientHello := do
  require (5 ≤ data.length)
  let contentType ← byteAt data 0
  require (contentType = 0x16)
  let recordLen ← u16At data 3
  require (5 + recordLen.toNat ≤ data.length)
  let hs ← slice data 5 (5 + recordLen.toNat)
  require (hs ≠ [])
  let msgType ← byteAt hs 0
  require (msgType = 0x01)
  require (4 ≤ hs.length)
  let body ← slice hs 4 hs.length
  require (34 ≤ body.length)
  let tlsVersion ← u16At body 0
  let pos := 34
  require (pos < body.length)
  let sidLen ← byteAt body pos
  let pos := pos + (1 + sidLen.toNat)
  require (pos + 2 ≤ body.length)
  let csLen ← u16At body pos
  let pos := pos + 2
  require (pos + csLen.toNat ≤ body.length)
  let suites ← slice body pos (pos + csLen.toNat)
  let pos := pos + csLen.toNat
  require (pos < body.length)
  let compLen ← byteAt body pos
  let pos := pos + (1 + compLen.toNat)
  require (pos + 2 ≤ body.length)
  let extTotal ← u16At body pos
  let pos := pos + 2
  let extEnd := pos + extTotal.toNat
  require (extEnd ≤ body.length)
  let extData ← slice body pos extEnd
  let found ← parseExtensions extData 0 {}
  return {
    tlsVersion
    cipherSuites := u16Chunks suites
    supportedVersions := found.supportedVersions
    extensions := found.extensions
    sni := found.sni
    alpn := found.alpn
    signatureAlgorithms := found.signatureAlgorithms
    supportedGroups := found.supportedGroups }

/-! ## What the loops compute -/

variable {extBody : List UInt8}

/-- What is read at a position is what the rest begins with. -/
theorem byteAt_drop (data : List UInt8) (pos : ℕ) (h : pos < data.length) :
    ∃ b, byteAt data pos = .ok b ∧ data.drop pos = b :: data.drop (pos + 1) :=
  ⟨data[pos], byteAt_eq_ok.2 (List.getElem?_eq_getElem h), List.drop_eq_getElem_cons h⟩

theorem u16At_drop (data : List UInt8) (pos : ℕ) (h : pos + 2 ≤ data.length) : ∃ a b,
    u16At data pos = .ok (UInt16.ofNat (ofBe [a, b])) ∧ data.drop pos = a :: b :: data.drop (pos + 2) := by
  obtain ⟨a, ha, hdrop⟩ := byteAt_drop data pos (by omega)
  obtain ⟨b, hb, hdrop'⟩ := byteAt_drop data (pos + 1) (by omega)
  exact ⟨a, b, u16At_eq_ok.2 ⟨a, b, byteAt_eq_ok.1 ha, byteAt_eq_ok.1 hb, rfl⟩, by rw [hdrop, hdrop']⟩

theorem u16Chunks_short {l : List UInt8} (h : l.length < 2) : u16Chunks l = [] := by
  match l, h with
  | [], _ => rfl
  | [_], _ => rfl

theorem readU16s_eq (extBody : List UInt8) (limit sp : ℕ) (values : List UInt16) :
    readU16s extBody limit sp values = .ok (values ++ u16Chunks ((extBody.take limit).drop sp)) := by
  fun_induction readU16s extBody limit sp values with
  | case1 sp values h ih =>
    obtain ⟨a, b, hread, hdrop⟩ := u16At_drop extBody sp h.2
    have hlimit : limit - sp = limit - (sp + 2) + 2 := by omega
    rw [List.drop_take, hdrop, hlimit, List.take_succ_cons, List.take_succ_cons, ← List.drop_take, u16Chunks, hread]
    refine (ih _).trans ?_
    rw [List.append_assoc, List.singleton_append]
  | case2 sp values h =>
    rw [u16Chunks_short, List.append_nil]
    · rfl
    · rw [List.length_drop, List.length_take]
      omega

/-- The names behind each other that each follow their length. -/
def alpnNames (bytes : List UInt8) : List (List Char) :=
  match bytes with
  | [] => []
  | len :: rest =>
    if len.toNat ≤ rest.length then (fromUtf8 (rest.take len.toNat)).toList ++ alpnNames (rest.drop len.toNat) else []
termination_by bytes.length

theorem readAlpn_eq (extBody : List UInt8) (ap : ℕ) (alpn : List (List Char)) :
    readAlpn extBody ap alpn = .ok (alpn ++ alpnNames (extBody.drop ap)) := by
  fun_induction readAlpn extBody ap alpn with
  | case1 ap alpn h ih =>
    obtain ⟨protoLen, hread, hdrop⟩ := byteAt_drop extBody ap h
    have hlength : (extBody.drop (ap + 1)).length = extBody.length - (ap + 1) := List.length_drop
    rw [hdrop, alpnNames, hread]
    simp only [bind, Except.bind]
    by_cases hfits : ap + 1 + protoLen.toNat ≤ extBody.length
    · have hslice : slice extBody (ap + 1) (ap + 1 + protoLen.toNat) =
          .ok ((extBody.drop (ap + 1)).take protoLen.toNat) := by
        rw [slice, if_pos ⟨Nat.le_add_right _ _, hfits⟩, Nat.add_sub_cancel_left]
      rw [if_pos hfits, if_pos (by omega), hslice]
      refine (ih protoLen hfits ((extBody.drop (ap + 1)).take protoLen.toNat)).trans ?_
      rw [List.drop_drop]
      cases fromUtf8 ((extBody.drop (ap + 1)).take protoLen.toNat) with
      | none => rfl
      | some s => exact congrArg Except.ok (List.append_assoc _ _ _)
    · rw [if_neg hfits, if_neg (by omega), List.append_nil]
      rfl
  | case2 ap alpn h =>
    rw [List.drop_eq_nil_of_le (by omega), alpnNames, List.append_nil]
    rfl

/-- The bytes of the host name of a server_name extension of a size, if they lie within the bytes from its body on. -/
def hostBytes (size : ℕ) (bytes : List UInt8) : Option (List UInt8) :=
  match bytes with
  | _ :: _ :: kind :: high :: low :: rest =>
    let nameLen := (UInt16.ofNat (ofBe [high, low])).toNat
    if 5 ≤ size ∧ kind = 0 ∧ nameLen ≤ rest.length then some (rest.take nameLen) else none
  | _ => none

theorem readServerName_eq (extBody : List UInt8) (sni : Option (List Char)) :
    readServerName extBody sni =
      .ok (match hostBytes extBody.length extBody with | some name => fromUtf8 name | none => sni) := by
  unfold readServerName
  match extBody with
  | [] => rfl
  | [_] => rfl
  | [_, _] => rfl
  | [_, _, _] => rfl
  | [_, _, _, _] => rfl
  | a :: b :: kind :: high :: low :: rest =>
    have hlong : 5 ≤ (a :: b :: kind :: high :: low :: rest).length := by
      simp only [List.length_cons]
      omega
    have hkind : byteAt (a :: b :: kind :: high :: low :: rest) 2 = .ok kind := rfl
    have hlen : u16At (a :: b :: kind :: high :: low :: rest) 3 = .ok (UInt16.ofNat (ofBe [high, low])) := rfl
    have hname : hostBytes (a :: b :: kind :: high :: low :: rest).length (a :: b :: kind :: high :: low :: rest) =
        if kind = 0 ∧ (UInt16.ofNat (ofBe [high, low])).toNat ≤ rest.length then
          some (rest.take (UInt16.ofNat (ofBe [high, low])).toNat) else none := by
      simp only [hostBytes, hlong, true_and]
    have hlength : (a :: b :: kind :: high :: low :: rest).length = rest.length + 5 := rfl
    rw [hname, if_pos hlong, hkind]
    simp only [bind, Except.bind]
    by_cases hzero : kind = 0
    · simp only [if_pos hzero, hlen, hlength]
      by_cases hfits : (UInt16.ofNat (ofBe [high, low])).toNat ≤ rest.length
      · have hslice : slice (a :: b :: kind :: high :: low :: rest) 5 (5 + (UInt16.ofNat (ofBe [high, low])).toNat) =
            .ok (rest.take (UInt16.ofNat (ofBe [high, low])).toNat) := by
          rw [slice, if_pos ⟨Nat.le_add_right _ _, by omega⟩, Nat.add_sub_cancel_left]
          rfl
        rw [if_pos (by omega), if_pos ⟨hzero, hfits⟩, hslice]
        rfl
      · rw [if_neg (by omega), if_neg fun h => hfits h.2]
        rfl
    · rw [if_neg hzero, if_neg fun h => hzero h.1]
      rfl

/-- The numbers of a list, behind a length of two bytes. -/
def u16List : List UInt8 → List UInt16
  | high :: low :: rest => u16Chunks (rest.take (UInt16.ofNat (ofBe [high, low])).toNat)
  | _ => []

theorem readU16List_eq (extBody : List UInt8) (values : List UInt16) :
    readU16List extBody values = .ok (values ++ u16List extBody) := by
  unfold readU16List
  match extBody with
  | [] => exact congrArg Except.ok (List.append_nil _).symm
  | [_] => exact congrArg Except.ok (List.append_nil _).symm
  | high :: low :: rest =>
    have hlen : u16At (high :: low :: rest) 0 = .ok (UInt16.ofNat (ofBe [high, low])) := rfl
    rw [if_pos (by simp only [List.length_cons]; omega), hlen]
    exact readU16s_eq _ _ _ _

/-- The numbers of a list, behind a length of one byte. -/
def u16ListByte : List UInt8 → List UInt16
  | len :: rest => u16Chunks (rest.take len.toNat)
  | [] => []

/-- What an extension adds. -/
def Found.add (found : Found) (extType : UInt16) (extBody : List UInt8) : Found where
  extensions := found.extensions ++ [extType]
  sni := if extType = 0x0000 then
      match hostBytes extBody.length extBody with
      | some name => fromUtf8 name
      | none => found.sni
    else found.sni
  alpn := if extType = 0x0010 then found.alpn ++ alpnNames (extBody.drop 2) else found.alpn
  signatureAlgorithms :=
    if extType = 0x000d then found.signatureAlgorithms ++ u16List extBody else found.signatureAlgorithms
  supportedGroups := if extType = 0x000a then found.supportedGroups ++ u16List extBody else found.supportedGroups
  supportedVersions :=
    if extType = 0x002b then found.supportedVersions ++ u16ListByte extBody else found.supportedVersions

theorem readExtension_eq (found : Found) (extType : UInt16) (extBody : List UInt8) :
    readExtension found extType extBody = .ok (found.add extType extBody) := by
  unfold readExtension Found.add
  by_cases h0 : extType = 0x0000
  · subst h0
    simp [readServerName_eq, bind, Except.bind, pure, Except.pure]
  by_cases h1 : extType = 0x0010
  · subst h1
    simp [readAlpn_eq, bind, Except.bind, pure, Except.pure]
  by_cases h2 : extType = 0x000d
  · subst h2
    simp [readU16List_eq, bind, Except.bind, pure, Except.pure]
  by_cases h3 : extType = 0x000a
  · subst h3
    simp [readU16List_eq, bind, Except.bind, pure, Except.pure]
  by_cases h4 : extType = 0x002b
  · subst h4
    cases extBody with
    | nil => simp [u16ListByte, pure, Except.pure]
    | cons len rest =>
      have hlen : byteAt (len :: rest) 0 = .ok len := rfl
      simp [hlen, readU16s_eq, u16ListByte, bind, Except.bind, pure, Except.pure]
  · simp [h0, h1, h2, h3, h4, pure, Except.pure]

/-! ## The extensions of a block -/

/-- An extension with its type, its size, and the bytes from its body on. -/
structure RawExtension where
  type : UInt16
  size : ℕ
  rest : List UInt8

def RawExtension.body (e : RawExtension) : List UInt8 := e.rest.take e.size

/-- The extensions in a block of `room` bytes, which the bytes begin with. -/
def rawExtensions (room : ℕ) (bytes : List UInt8) : List RawExtension :=
  match bytes with
  | a :: b :: c :: d :: rest =>
    let size := (UInt16.ofNat (ofBe [c, d])).toNat
    if 4 + size ≤ room then
      ⟨UInt16.ofNat (ofBe [a, b]), size, rest⟩ :: rawExtensions (room - (4 + size)) (rest.drop size)
    else []
  | _ => []
termination_by bytes.length

theorem rawExtensions_short {room : ℕ} {bytes : List UInt8} (h : bytes.length < 4) : rawExtensions room bytes = [] := by
  match bytes, h with
  | [], _ => simp [rawExtensions]
  | [_], _ => simp [rawExtensions]
  | [_, _], _ => simp [rawExtensions]
  | [_, _, _], _ => simp [rawExtensions]

/-- **The loop over the extensions adds one after the other.** -/
theorem parseExtensions_eq (extData : List UInt8) (ep : ℕ) (found : Found) :
    parseExtensions extData ep found =
      .ok ((rawExtensions (extData.length - ep) (extData.drop ep)).foldl (fun f e => f.add e.type e.body) found) := by
  fun_induction parseExtensions extData ep found with
  | case1 ep found h ih =>
    obtain ⟨a, b, htype, hdrop⟩ := u16At_drop extData ep (by omega)
    obtain ⟨c, d, hlen, hdrop'⟩ := u16At_drop extData (ep + 2) (by omega)
    rw [hdrop, hdrop', rawExtensions, htype]
    simp only [bind, Except.bind, hlen]
    generalize hsize : (UInt16.ofNat (ofBe [c, d])).toNat = size at ih
    by_cases hfits : ep + 4 + size ≤ extData.length
    · have hslice : slice extData (ep + 4) (ep + 4 + size) = .ok ((extData.drop (ep + 4)).take size) := by
        rw [slice, if_pos ⟨Nat.le_add_right _ _, hfits⟩, Nat.add_sub_cancel_left]
      rw [if_pos hfits, if_pos (by omega), hslice]
      simp only [readExtension_eq]
      have hrest := ih (UInt16.ofNat (ofBe [c, d])) (hsize ▸ hfits)
        (found.add (UInt16.ofNat (ofBe [a, b])) ((extData.drop (ep + 4)).take size))
      rw [hsize] at hrest
      refine hrest.trans ?_
      rw [List.foldl_cons, List.drop_drop, Nat.sub_sub, ← Nat.add_assoc]
      rfl
    · rw [if_neg hfits, if_neg (by omega)]
      rfl
  | case2 ep found h =>
    have hshort : (extData.drop ep).length < 4 := by
      rw [List.length_drop]
      omega
    rw [rawExtensions_short hshort]
    rfl

end ThorFirewall.Fingerprint
