import Mathlib
import ThorFirewall.Fingerprint.ClientHello

/-!
# ClientHello messages on the wire

A ClientHello in the format of RFC 8446 and its extensions, and its encoding in one TLS record. `parse_encode`: the parser
returns what is in it, less the names that are not UTF-8.
-/

namespace ThorFirewall.Fingerprint

open ByteReader Utf8 Text

/-! ## Messages -/

/-- An extension: the five that are read, and any other. -/
inductive Extension
  | serverName (host : List UInt8)
  | alpn (protocols : List {p : List UInt8 // p.length < 256})
  | signatureAlgorithms (algorithms : List UInt16)
  | supportedGroups (groups : List UInt16)
  | supportedVersions (versions : {l : List UInt16 // 2 * l.length < 256})
  | other (type : {t : UInt16 // t ∉ [0x0000, 0x0010, 0x000d, 0x000a, 0x002b]}) (body : List UInt8)

namespace Extension

def type : Extension → UInt16
  | serverName _ => 0x0000
  | alpn _ => 0x0010
  | signatureAlgorithms _ => 0x000d
  | supportedGroups _ => 0x000a
  | supportedVersions _ => 0x002b
  | other type _ => type.1

def u16Bytes (l : List UInt16) : List UInt8 := l.flatMap fun x => beBytes 2 x.toNat

/-- The protocol names, each behind its length. -/
def protocolBytes (protocols : List {p : List UInt8 // p.length < 256}) : List UInt8 :=
  protocols.flatMap fun p => UInt8.ofNat p.1.length :: p.1

def body : Extension → List UInt8
  | serverName host => beBytes 2 (host.length + 3) ++ 0 :: beBytes 2 host.length ++ host
  | alpn protocols => beBytes 2 (protocolBytes protocols).length ++ protocolBytes protocols
  | signatureAlgorithms l => beBytes 2 (2 * l.length) ++ u16Bytes l
  | supportedGroups l => beBytes 2 (2 * l.length) ++ u16Bytes l
  | supportedVersions l => UInt8.ofNat (2 * l.1.length) :: u16Bytes l.1
  | other _ body => body

def encode (e : Extension) : List UInt8 := beBytes 2 e.type.toNat ++ beBytes 2 e.body.length ++ e.body

end Extension

/-- A ClientHello, with the version of its record. The extensions are of different types. -/
structure HelloMessage where
  recordVersion : {v : List UInt8 // v.length = 2}
  version : UInt16
  random : {r : List UInt8 // r.length = 32}
  sessionId : {s : List UInt8 // s.length ≤ 32}
  cipherSuites : List UInt16
  compression : {c : List UInt8 // c.length < 256}
  extensions : List Extension
  nodup : (extensions.map Extension.type).Nodup

namespace HelloMessage

def extensionBytes (m : HelloMessage) : List UInt8 := m.extensions.flatMap Extension.encode

def body (m : HelloMessage) : List UInt8 :=
  beBytes 2 m.version.toNat ++ m.random.1 ++ UInt8.ofNat m.sessionId.1.length :: m.sessionId.1 ++
    beBytes 2 (2 * m.cipherSuites.length) ++ Extension.u16Bytes m.cipherSuites ++
      UInt8.ofNat m.compression.1.length :: m.compression.1 ++ beBytes 2 m.extensionBytes.length ++ m.extensionBytes

def handshake (m : HelloMessage) : List UInt8 := 0x01 :: beBytes 3 m.body.length ++ m.body

/-- The record of the message. -/
def encode (m : HelloMessage) : List UInt8 :=
  0x16 :: m.recordVersion.1 ++ beBytes 2 m.handshake.length ++ m.handshake

end HelloMessage

/-! ## What the parser has to say about a message -/

namespace Extension

/-- The host name, if it is UTF-8. -/
def host? : Extension → Option (Option (List Char))
  | serverName host => some (fromUtf8 host)
  | _ => none

/-- The protocol names that are UTF-8. -/
def protocols : Extension → List (List Char)
  | alpn protocols => protocols.filterMap fun p => fromUtf8 p.1
  | _ => []

def algorithms : Extension → List UInt16
  | signatureAlgorithms l => l
  | _ => []

def groups : Extension → List UInt16
  | supportedGroups l => l
  | _ => []

def versions : Extension → List UInt16
  | supportedVersions l => l.1
  | _ => []

end Extension

def HelloMessage.hello (m : HelloMessage) : ClientHello where
  tlsVersion := m.version
  cipherSuites := m.cipherSuites
  extensions := m.extensions.map Extension.type
  sni := (m.extensions.findSome? Extension.host?).getD none
  alpn := m.extensions.flatMap Extension.protocols
  signatureAlgorithms := m.extensions.flatMap Extension.algorithms
  supportedGroups := m.extensions.flatMap Extension.groups
  supportedVersions := m.extensions.flatMap Extension.versions

/-! ## Bodies -/

theorem beBytes_two (n : ℕ) : ∃ high low, beBytes 2 n = [high, low] ∧ ofBe [high, low] = n % 2 ^ 16 :=
  ⟨_, _, rfl, ofBe_beBytes 2 n⟩

theorem u16_beBytes {n : ℕ} (h : n < 2 ^ 16) : ∃ high low, beBytes 2 n = [high, low] ∧
    (UInt16.ofNat (ofBe [high, low])).toNat = n := by
  obtain ⟨high, low, hbytes, hvalue⟩ := beBytes_two n
  refine ⟨high, low, hbytes, ?_⟩
  rw [hvalue, Nat.mod_eq_of_lt h]
  exact UInt16.toNat_ofNat_of_lt h

theorem u16Chunks_u16Bytes (l : List UInt16) : u16Chunks (Extension.u16Bytes l) = l := by
  induction l with
  | nil => rfl
  | cons x l ih =>
    obtain ⟨high, low, hbytes, hvalue⟩ := u16_beBytes x.toNat_lt
    rw [Extension.u16Bytes, List.flatMap_cons, hbytes, ← Extension.u16Bytes, List.cons_append, List.singleton_append,
      u16Chunks, ih]
    congr 1
    exact UInt16.toNat_inj.1 hvalue

theorem length_u16Bytes (l : List UInt16) : (Extension.u16Bytes l).length = 2 * l.length := by
  induction l with
  | nil => rfl
  | cons x l ih =>
    rw [Extension.u16Bytes, List.flatMap_cons, ← Extension.u16Bytes, List.length_append, length_beBytes, ih,
      List.length_cons]
    omega

theorem alpnNames_protocolBytes (ps : List {p : List UInt8 // p.length < 256}) :
    alpnNames (Extension.protocolBytes ps) = ps.filterMap fun p => fromUtf8 p.1 := by
  induction ps with
  | nil => simp [Extension.protocolBytes, alpnNames]
  | cons p ps ih =>
    have hlength : (UInt8.ofNat p.1.length).toNat = p.1.length := UInt8.toNat_ofNat_of_lt p.2
    rw [Extension.protocolBytes, List.flatMap_cons, ← Extension.protocolBytes, List.cons_append, alpnNames]
    simp only [hlength]
    rw [if_pos (by rw [List.length_append]; omega), List.take_left, List.drop_left, ih, List.filterMap_cons]
    cases fromUtf8 p.1 <;> rfl

/-! ## The extensions -/

open Extension

theorem u16List_body (l : List UInt16) (h : (beBytes 2 (2 * l.length) ++ u16Bytes l).length < 2 ^ 16) :
    u16List (beBytes 2 (2 * l.length) ++ u16Bytes l) = l := by
  rw [List.length_append, length_beBytes, length_u16Bytes] at h
  obtain ⟨high, low, hbytes, hvalue⟩ := u16_beBytes (n := 2 * l.length) (by omega)
  rw [hbytes]
  simp only [List.cons_append, List.nil_append, u16List, hvalue]
  rw [← length_u16Bytes l, List.take_length, u16Chunks_u16Bytes]

theorem hostBytes_body (host : List UInt8) (h : (serverName host).body.length < 2 ^ 16) :
    hostBytes (serverName host).body.length (serverName host).body = some host := by
  obtain ⟨a, b, hlist, -⟩ := beBytes_two (host.length + 3)
  simp only [body, List.length_append, List.length_cons, length_beBytes] at h
  obtain ⟨high, low, hname, hvalue⟩ := u16_beBytes (n := host.length) (by omega)
  have hbody : (serverName host).body = a :: b :: 0 :: high :: low :: host := by rw [body, hlist, hname]; rfl
  rw [hbody, hostBytes, if_pos]
  · rw [hvalue, List.take_length]
  · simp only [hvalue, List.length_cons, le_refl, and_true]
    omega

/-- What a body says is what was put into it. -/
theorem add_body (found : Found) (e : Extension) (h : e.body.length < 2 ^ 16) :
    found.add e.type e.body = {
      extensions := found.extensions ++ [e.type]
      sni := e.host?.getD found.sni
      alpn := found.alpn ++ e.protocols
      signatureAlgorithms := found.signatureAlgorithms ++ e.algorithms
      supportedGroups := found.supportedGroups ++ e.groups
      supportedVersions := found.supportedVersions ++ e.versions } := by
  cases e with
  | serverName host =>
    have hhost := hostBytes_body host h
    simp [Found.add, Extension.type, hhost, host?, protocols, algorithms, groups, versions]
  | alpn ps =>
    have hdrop : (alpn ps).body.drop 2 = protocolBytes ps := List.drop_left' (length_beBytes 2 _)
    simp [Found.add, Extension.type, hdrop, alpnNames_protocolBytes, host?, protocols, algorithms, groups, versions]
  | signatureAlgorithms l =>
    have hlist : u16List (signatureAlgorithms l).body = l := u16List_body l h
    simp [Found.add, Extension.type, hlist, host?, protocols, algorithms, groups, versions]
  | supportedGroups l =>
    have hlist : u16List (supportedGroups l).body = l := u16List_body l h
    simp [Found.add, Extension.type, hlist, host?, protocols, algorithms, groups, versions]
  | supportedVersions l =>
    have hlist : u16ListByte (supportedVersions l).body = l.1 := by
      have hlen : (UInt8.ofNat (2 * l.1.length)).toNat = (u16Bytes l.1).length := by
        rw [length_u16Bytes]
        exact UInt8.toNat_ofNat_of_lt l.2
      rw [body, u16ListByte, hlen, List.take_length, u16Chunks_u16Bytes]
    simp [Found.add, Extension.type, hlist, host?, protocols, algorithms, groups, versions]
  | other type bs =>
    obtain ⟨type, htype⟩ := type
    simp only [List.mem_cons, List.not_mem_nil, or_false, not_or] at htype
    simp [Found.add, Extension.type, htype, host?, protocols, algorithms, groups, versions]

/-- The extensions of the block are those that were put into it. -/
theorem rawExtensions_encode {es : List Extension} (h : ∀ e ∈ es, e.body.length < 2 ^ 16) :
    ∃ raw, rawExtensions (es.flatMap encode).length (es.flatMap encode) = raw ∧
      raw.map (fun r => (r.type, r.body)) = es.map fun e => (e.type, e.body) := by
  induction es with
  | nil => exact ⟨_, rfl, by simp [rawExtensions]⟩
  | cons e es ih =>
    obtain ⟨he, hes⟩ := List.forall_mem_cons.1 h
    obtain ⟨raw, hraw, hmap⟩ := ih hes
    obtain ⟨a, b, htype, htoNat⟩ := u16_beBytes e.type.toNat_lt
    obtain ⟨c, d, hlen, hvalue⟩ := u16_beBytes he
    have hencode : (e :: es).flatMap encode = a :: b :: c :: d :: (e.body ++ es.flatMap encode) := by
      rw [List.flatMap_cons, encode, htype, hlen, List.append_assoc]
      rfl
    refine ⟨_, rfl, ?_⟩
    rw [hencode, rawExtensions]
    simp only [hvalue, List.length_cons, List.length_append]
    rw [if_pos (by omega), List.drop_left, List.map_cons, List.map_cons, ← hmap, ← hraw]
    congr 1
    · simp only [RawExtension.body, List.take_left, Prod.mk.injEq, and_true]
      exact UInt16.toNat_inj.1 htoNat
    · congr 2
      omega

/-- The lists of what is found are appended, and a later host name replaces one before. -/
theorem foldl_add {es : List Extension} (h : ∀ e ∈ es, e.body.length < 2 ^ 16) (hnodup : (es.map Extension.type).Nodup)
    (found : Found) :
    es.foldl (fun f e => f.add e.type e.body) found = {
      extensions := found.extensions ++ es.map Extension.type
      sni := (es.findSome? host?).getD found.sni
      alpn := found.alpn ++ es.flatMap protocols
      signatureAlgorithms := found.signatureAlgorithms ++ es.flatMap algorithms
      supportedGroups := found.supportedGroups ++ es.flatMap groups
      supportedVersions := found.supportedVersions ++ es.flatMap versions } := by
  induction es generalizing found with
  | nil => simp
  | cons e es ih =>
    obtain ⟨he, hes⟩ := List.forall_mem_cons.1 h
    obtain ⟨hnot, hrest⟩ := List.nodup_cons.1 hnodup
    have hsni : (es.findSome? host?).getD (e.host?.getD found.sni) = ((e :: es).findSome? host?).getD found.sni := by
      cases hhost : e.host? with
      | none => rw [List.findSome?_cons, hhost]; rfl
      | some host =>
        have hnone : es.findSome? host? = none := by
          rw [List.findSome?_eq_none_iff]
          intro e' he'
          have htype : ∀ e'' : Extension, e''.host? ≠ none → e''.type = 0x0000 := by
            intro e'' hne
            cases e'' <;> first | rfl | exact absurd rfl hne
          by_contra hne
          refine hnot ?_
          rw [htype e (by rw [hhost]; nofun), ← htype e' hne]
          exact List.mem_map_of_mem he'
        rw [hnone, List.findSome?_cons, hhost]
        rfl
    rw [List.foldl_cons, add_body found e he, ih hes hrest]
    simp [hsni, List.append_assoc]

/-! ## The record -/

theorem length_body_le {e : Extension} {es : List Extension} (h : e ∈ es) :
    e.body.length ≤ (es.flatMap Extension.encode).length := by
  obtain ⟨before, after, rfl⟩ := List.append_of_mem h
  simp only [List.flatMap_append, List.flatMap_cons, List.length_append, Extension.encode]
  omega

theorem length_extensionBytes_lt {m : HelloMessage} (h : m.handshake.length < 2 ^ 16) {e : Extension}
    (he : e ∈ m.extensions) : e.body.length < 2 ^ 16 := by
  have hle := length_body_le he
  simp only [HelloMessage.handshake, HelloMessage.body, List.length_append, List.length_cons, length_beBytes,
    HelloMessage.extensionBytes] at h
  omega

/-- The loop over the extensions of a message. -/
theorem parseExtensions_encode (m : HelloMessage) (h : m.handshake.length < 2 ^ 16) :
    parseExtensions m.extensionBytes 0 {} = .ok (m.extensions.foldl (fun f e => f.add e.type e.body) {}) := by
  obtain ⟨raw, hraw, hmap⟩ := rawExtensions_encode fun e he => length_extensionBytes_lt h he
  rw [parseExtensions_eq, Nat.sub_zero, List.drop_zero, HelloMessage.extensionBytes, hraw]
  have hfold : ∀ {α : Type} (type : α → UInt16) (body : α → List UInt8) (l : List α) (found : Found),
      l.foldl (fun f a => f.add (type a) (body a)) found =
        (l.map fun a => (type a, body a)).foldl (fun f p => f.add p.1 p.2) found :=
    fun type body l found => (@List.foldl_map _ _ _ (fun a => (type a, body a)) (fun f p => f.add p.1 p.2) l found).symm
  rw [hfold RawExtension.type RawExtension.body, hfold Extension.type Extension.body, hmap]

/-- **The parser returns the message**, less the names that are not UTF-8. -/
theorem parse_encode (m : HelloMessage) (h : m.handshake.length < 2 ^ 16) : parseClientHello m.encode = .ok m.hello := by
  have hencode := at_self m.encode
  have hhs := at_self m.handshake
  have hbody := at_self m.body
  have hlong : m.handshake.length = m.body.length + 4 := by
    simp only [HelloMessage.handshake, List.length_append, List.length_cons, length_beBytes]
    omega
  nth_rw 2 [HelloMessage.encode] at hencode
  nth_rw 2 [HelloMessage.handshake] at hhs
  nth_rw 2 [HelloMessage.body] at hbody
  simp only [at_append, List.length_append, List.length_cons, length_beBytes, m.recordVersion.2, m.random.2]
    at hencode hhs hbody
  obtain ⟨⟨hstart, hrecord⟩, hhandshake⟩ := hencode
  obtain ⟨htype, hhello⟩ := hhs
  obtain ⟨⟨⟨⟨⟨⟨⟨hversion, -⟩, hsid⟩, hcs⟩, hsuites⟩, hcomp⟩, htotal⟩, hexts⟩ := hbody
  have hdata := hhandshake.le_length
  have hend := hexts.le_length
  rw [length_u16Bytes] at hcomp htotal hexts hend
  -- the lengths, as they are read
  have hrecordLen : (UInt16.ofNat m.handshake.length).toNat = m.handshake.length := UInt16.toNat_ofNat_of_lt h
  have hsidLen : (UInt8.ofNat m.sessionId.1.length).toNat = m.sessionId.1.length :=
    UInt8.toNat_ofNat_of_lt (Nat.lt_of_le_of_lt m.sessionId.2 (by decide))
  have hcsLen : (UInt16.ofNat (2 * m.cipherSuites.length)).toNat = 2 * m.cipherSuites.length :=
    UInt16.toNat_ofNat_of_lt (Nat.lt_of_le_of_lt (by omega) h)
  have hcompLen : (UInt8.ofNat m.compression.1.length).toNat = m.compression.1.length :=
    UInt8.toNat_ofNat_of_lt m.compression.2
  have hextTotal : (UInt16.ofNat m.extensionBytes.length).toNat = m.extensionBytes.length :=
    UInt16.toNat_ofNat_of_lt (Nat.lt_of_le_of_lt (by omega) h)
  have hsuitesLength := length_u16Bytes m.cipherSuites
  have hne : m.handshake ≠ [] := by
    intro hnil
    rw [hnil, List.length_nil] at hlong
    omega
  simp only [parseClientHello, bind_eq_ok, require_eq_ok, pure_eq_ok]
  refine ⟨(), by omega, _, byteAt_of_at hstart, (), rfl, _, u16At_of_at h hrecord, (), by omega, m.handshake,
    slice_eq_of_at hhandshake ?_ ?_, (), hne, _, byteAt_of_at htype, (), rfl, (), by omega, m.body,
    slice_eq_of_at hhello ?_ ?_, (), by omega, _, u16At_of_at m.version.toNat_lt hversion, (), by omega, _,
    byteAt_of_at hsid, (), by omega, _, u16At_of_at (by omega) (hcs.congr ?_), (), by omega,
    Extension.u16Bytes m.cipherSuites, slice_eq_of_at hsuites ?_ ?_, (), by omega, _, byteAt_of_at (hcomp.congr ?_), (),
    by omega, _, u16At_of_at (by omega) (htotal.congr ?_), (), by omega, m.extensionBytes,
    slice_eq_of_at hexts ?_ ?_, _, parseExtensions_encode m h, ?_⟩
  any_goals omega
  rw [foldl_add (fun e he => length_extensionBytes_lt h he) m.nodup, u16Chunks_u16Bytes, UInt16.ofNat_toNat]
  simp only [HelloMessage.hello, List.nil_append]

/-- A hello for the protocol `h2` and one whose name is no text. -/
def greaseHello : HelloMessage where
  recordVersion := ⟨[3, 1], rfl⟩
  version := 0x0303
  random := ⟨List.replicate 32 0, rfl⟩
  sessionId := ⟨[], by decide⟩
  cipherSuites := [0x1301]
  compression := ⟨[0], by decide⟩
  extensions := [.alpn [⟨[0x68, 0x32], by decide⟩, ⟨[0x8a, 0x8a], by decide⟩], .supportedVersions ⟨[0x0304], by decide⟩]
  nodup := by decide

theorem parse_greaseHello : parseClientHello greaseHello.encode = .ok greaseHello.hello :=
  parse_encode greaseHello (by decide)

/-- The protocol names of an extension, as they are sent. -/
def Extension.protocolNames : Extension → List (List UInt8)
  | alpn protocols => protocols.map Subtype.val
  | _ => []

/-- A protocol name that is no text is left out. -/
theorem protocol_dropped : ¬ ∀ m : HelloMessage, m.handshake.length < 2 ^ 16 →
    ∃ hello, parseClientHello m.encode = .ok hello ∧
      hello.alpn.map bytes = m.extensions.flatMap Extension.protocolNames := by
  intro h
  obtain ⟨hello, -, halpn⟩ := h greaseHello (by decide)
  have hmem : [0x8a, 0x8a] ∈ hello.alpn.map bytes := halpn ▸ by decide
  obtain ⟨s, -, hs⟩ := List.mem_map.1 hmem
  have hnone : fromUtf8 [0x8a, 0x8a] = none := by decide +kernel
  exact absurd (hnone.symm.trans (fromUtf8_eq_some_iff.2 hs)) nofun

end ThorFirewall.Fingerprint
