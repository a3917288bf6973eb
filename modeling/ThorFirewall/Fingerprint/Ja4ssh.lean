import Mathlib
import ThorFirewall.Lib.ByteReader
import ThorFirewall.Lib.Sha256
import ThorFirewall.Lib.TextSearch
import ThorFirewall.Lib.Utf8
import ThorFirewall.Lib.Wire

/-!
# SSH key exchanges (`fingerprint/ja4ssh.rs`)

The parser takes the eight name lists out of a binary packet with a KEXINIT message, and the fingerprint is the hash of
four of them.

- `parseSshKexinit_encode`: an encoded message is parsed to its lists;
- `parse_panics_iff`: the parser panics exactly on packets with more padding than bytes;
- `parse_names`: the lists of any packet have names without commas;
- `hassh_eq_iff`: the fingerprints agree exactly if the four lists do, without collisions and semicolons.
-/

namespace ThorFirewall.Fingerprint

open ByteReader Utf8
open Text (bytes)

/-! ## The parser -/

abbrev NameList := List (List Char)

structure SshKexInit where
  kexAlgorithms : NameList
  serverHostKeyAlgorithms : NameList
  encryptionAlgorithmsClientToServer : NameList
  encryptionAlgorithmsServerToClient : NameList
  macAlgorithmsClientToServer : NameList
  macAlgorithmsServerToClient : NameList
  compressionAlgorithmsClientToServer : NameList
  compressionAlgorithmsServerToClient : NameList
  isServer : Bool
  deriving DecidableEq

def sshMsgKexinit : UInt8 := 20

/-- The names between the commas, without the empty ones. Bytes that are not UTF-8 have none. -/
def names (list : List UInt8) : NameList :=
  (((fromUtf8 list).getD []).splitOn ',').filter (· ≠ [])

/-- A name list, and the position behind it. A list that does not fit is empty, and its length is skipped. -/
def readNameList (payload : List UInt8) (pos : ℕ) : Checked (NameList × ℕ) :=
  if payload.length < pos + 4 then pure ([], pos)
  else do
    let len ← u32At payload pos
    if payload.length < pos + 4 + len.toNat then return ([], pos + 4)
    else do
      let list ← slice payload (pos + 4) (pos + 4 + len.toNat)
      return (names list, pos + 4 + len.toNat)

/-- The lists of a message, from the position behind its cookie on. -/
def readNameLists (payload : List UInt8) : Checked SshKexInit := do
  let (kexAlgorithms, pos) ← readNameList payload 17
  let (serverHostKeyAlgorithms, pos) ← readNameList payload pos
  let (encC2s, pos) ← readNameList payload pos
  let (encS2c, pos) ← readNameList payload pos
  let (macC2s, pos) ← readNameList payload pos
  let (macS2c, pos) ← readNameList payload pos
  let (compC2s, pos) ← readNameList payload pos
  let (compS2c, _) ← readNameList payload pos
  return ⟨kexAlgorithms, serverHostKeyAlgorithms, encC2s, encS2c, macC2s, macS2c, compC2s, compS2c, false⟩

/-- The end of the payload: a panic if the difference is negative. Without overflow checks it wraps, and the slice up to
it panics. -/
def payloadEnd (packetLen paddingLen : ℕ) : Checked ℕ :=
  if 4 + packetLen < paddingLen then .error .panicked else .ok (4 + packetLen - paddingLen)

def parseSshKexinit (data : List UInt8) : Checked SshKexInit := do
  require (6 ≤ data.length)
  let packetLen ← u32At data 0
  require (4 + packetLen.toNat ≤ data.length)
  let paddingLen ← byteAt data 4
  let stop ← payloadEnd packetLen.toNat paddingLen.toNat
  require (5 < stop)
  let payload ← slice data 5 stop
  require (payload ≠ [])
  let msgType ← byteAt payload 0
  require (msgType = sshMsgKexinit)
  require (17 ≤ payload.length)
  readNameLists payload

/-! ## Fingerprints -/

/-- `join(",")`. -/
def joined (list : NameList) : List Char := [','].intercalate list

def hasshText (a b c d : NameList) : List Char :=
  joined a ++ ';' :: (joined b ++ ';' :: (joined c ++ ';' :: joined d))

/-- The first 32 digits. -/
def hash32 (s : List Char) : List Char := (Sha256.hexDigest (String.ofList s)).toList.take 32

namespace SshKexInit

def clientText (k : SshKexInit) : List Char :=
  hasshText k.kexAlgorithms k.encryptionAlgorithmsClientToServer k.macAlgorithmsClientToServer
    k.compressionAlgorithmsClientToServer

def serverText (k : SshKexInit) : List Char :=
  hasshText k.kexAlgorithms k.encryptionAlgorithmsServerToClient k.macAlgorithmsServerToClient
    k.compressionAlgorithmsServerToClient

def computeHassh (k : SshKexInit) : List Char := hash32 k.clientText

def computeHasshServer (k : SshKexInit) : List Char := hash32 k.serverText

def lists (k : SshKexInit) : List NameList :=
  [k.kexAlgorithms, k.serverHostKeyAlgorithms, k.encryptionAlgorithmsClientToServer,
    k.encryptionAlgorithmsServerToClient, k.macAlgorithmsClientToServer, k.macAlgorithmsServerToClient,
    k.compressionAlgorithmsClientToServer, k.compressionAlgorithmsServerToClient]

end SshKexInit

/-! ## Messages -/

/-- Names that are not empty and have no commas. -/
def IsNameList (list : NameList) : Prop := ∀ name ∈ list, name ≠ [] ∧ ',' ∉ name

instance (list : NameList) : Decidable (IsNameList list) := inferInstanceAs (Decidable (∀ name ∈ list, _ ∧ _))

def listBytes (list : NameList) : List UInt8 := beBytes 4 (bytes (joined list)).length ++ bytes (joined list)

/-- A KEXINIT message in a binary packet, with whatever follows it on the wire. -/
structure KexMessage where
  kex : SshKexInit
  names_valid : ∀ list ∈ kex.lists, IsNameList list
  client : kex.isServer = false
  cookie : {b : List UInt8 // b.length = 16}
  reserved : List UInt8
  padding : {b : List UInt8 // b.length < 256}
  trailer : List UInt8
  fits : (kex.lists.flatMap listBytes).length + reserved.length + 512 < 2 ^ 32

namespace KexMessage

variable (m : KexMessage)

def payload : List UInt8 := sshMsgKexinit :: (m.cookie.1 ++ (m.kex.lists.flatMap listBytes ++ m.reserved))

def encode : List UInt8 :=
  beBytes 4 (1 + m.payload.length + m.padding.1.length) ++ (UInt8.ofNat m.padding.1.length :: (m.payload ++
    (m.padding.1 ++ m.trailer)))

end KexMessage

/-! ## Names -/

theorem names_bytes {list : NameList} (h : IsNameList list) : names (bytes (joined list)) = list := by
  unfold names
  rw [fromUtf8_bytes, Option.getD_some]
  cases list with
  | nil => rfl
  | cons name list =>
    rw [joined, List.splitOn_intercalate ',' (fun n hn => (h n hn).2) (List.cons_ne_nil _ _), List.filter_eq_self]
    exact fun n hn => decide_eq_true (h n hn).1

theorem isNameList_names (list : List UInt8) : IsNameList (names list) := fun _ hname =>
  ⟨of_decide_eq_true (List.mem_filter.1 hname).2, Text.not_mem_of_mem_splitOn (List.mem_of_mem_filter hname)⟩

/-! ## Any packet -/

theorem readNameList_yields (payload : List UInt8) (pos : ℕ) :
    Yields (fun r => IsNameList r.1) (readNameList payload pos) := by
  unfold readNameList
  split_ifs with hlen
  · exact yields_pure nofun
  · refine (yields_u32At (by omega)).bind fun len _ => ?_
    split_ifs with hlist
    · exact yields_pure nofun
    · exact (yields_slice (by omega) (by omega)).bind fun list _ => yields_pure (isNameList_names list)

theorem readNameLists_yields (payload : List UInt8) :
    Yields (fun k => ∀ list ∈ k.lists, IsNameList list) (readNameLists payload) := by
  unfold readNameLists
  refine (readNameList_yields _ _).bind fun kex hkex => ?_
  refine (readNameList_yields _ _).bind fun hostKey hhostKey => ?_
  refine (readNameList_yields _ _).bind fun encC2s hencC2s => ?_
  refine (readNameList_yields _ _).bind fun encS2c hencS2c => ?_
  refine (readNameList_yields _ _).bind fun macC2s hmacC2s => ?_
  refine (readNameList_yields _ _).bind fun macS2c hmacS2c => ?_
  refine (readNameList_yields _ _).bind fun compC2s hcompC2s => ?_
  refine (readNameList_yields _ _).bind fun compS2c hcompS2c => yields_pure ?_
  simp only [SshKexInit.lists, List.forall_mem_cons, List.not_mem_nil, IsEmpty.forall_iff, implies_true, and_true]
  exact ⟨hkex, hhostKey, hencC2s, hencS2c, hmacC2s, hmacS2c, hcompC2s, hcompS2c⟩

/-- A slice with a readable end. -/
theorem parse_payload_ensures {data : List UInt8} {stop : ℕ} (hstop : stop ≤ data.length) :
    Ensures (fun k => ∀ list ∈ k.lists, IsNameList list) (do
      require (5 < stop)
      let payload ← slice data 5 stop
      require (payload ≠ [])
      let msgType ← byteAt payload 0
      require (msgType = sshMsgKexinit)
      require (17 ≤ payload.length)
      readNameLists payload) := by
  refine ensures_require.bind fun _ hfive => ?_
  refine (yields_slice (by omega) hstop).ensures.bind fun payload _ => ?_
  refine ensures_require.bind fun _ hne => ?_
  refine (yields_byteAt (List.length_pos_of_ne_nil hne)).ensures.bind fun msgType _ => ?_
  refine ensures_require.bind fun _ _ => ?_
  exact ensures_require.bind fun _ _ => (readNameLists_yields payload).ensures

/-- The packet is as long as it says, and its padding is longer. -/
def PaddedOver (data : List UInt8) : Prop :=
  6 ≤ data.length ∧ 4 + ofBe (data.take 4) ≤ data.length ∧ 4 + ofBe (data.take 4) < (data.getD 4 0).toNat

instance (data : List UInt8) : Decidable (PaddedOver data) := inferInstanceAs (Decidable (_ ∧ _ ∧ _))

/-- What the parser does with any packet: it panics, or returns lists without commas, or rejects the packet. -/
theorem parseSshKexinit_cases (data : List UInt8) :
    (PaddedOver data ∧ parseSshKexinit data = .error .panicked) ∨
      ¬ PaddedOver data ∧ Ensures (fun k => ∀ list ∈ k.lists, IsNameList list) (parseSshKexinit data) := by
  unfold parseSshKexinit PaddedOver
  by_cases hsix : 6 ≤ data.length
  · obtain ⟨a, b, c, d, pad, rest, rfl⟩ : ∃ a b c d pad rest, data = a :: b :: c :: d :: pad :: rest := by
      rcases data with _ | ⟨a, _ | ⟨b, _ | ⟨c, _ | ⟨d, _ | ⟨pad, rest⟩⟩⟩⟩⟩
      · exact absurd hsix (by simp)
      · exact absurd hsix (by simp)
      · exact absurd hsix (by simp)
      · exact absurd hsix (by simp)
      · exact absurd hsix (by simp)
      · exact ⟨a, b, c, d, pad, rest, rfl⟩
    have hbe : ofBe [a, b, c, d] < 2 ^ 32 := by
      have ha := a.toNat_lt
      have hb := b.toNat_lt
      have hc := c.toNat_lt
      have hd := d.toNat_lt
      simp only [ofBe, List.foldl_cons, List.foldl_nil]
      omega
    have hlen : u32At (a :: b :: c :: d :: pad :: rest) 0 = .ok (UInt32.ofNat (ofBe [a, b, c, d])) := rfl
    have hpad : byteAt (a :: b :: c :: d :: pad :: rest) 4 = .ok pad := rfl
    have htoNat : (UInt32.ofNat (ofBe [a, b, c, d])).toNat = ofBe [a, b, c, d] := by
      rw [UInt32.toNat_ofNat', Nat.mod_eq_of_lt hbe]
    rw [require_of hsix, hlen, hpad]
    simp only [bind, Except.bind, htoNat, List.take_succ_cons, List.take_zero, List.getD_cons_succ, List.getD_cons_zero]
    by_cases hpacket : 4 + ofBe [a, b, c, d] ≤ (a :: b :: c :: d :: pad :: rest).length
    · rw [require_of hpacket]
      dsimp only
      unfold payloadEnd
      by_cases hover : 4 + ofBe [a, b, c, d] < pad.toNat
      · exact .inl ⟨⟨hsix, hpacket, hover⟩, by rw [if_pos hover]⟩
      · rw [if_neg hover]
        exact .inr ⟨fun h => hover h.2.2, parse_payload_ensures (by omega)⟩
    · rw [require, if_neg hpacket]
      exact .inr ⟨fun h => hpacket h.2.1, ensures_reject⟩
  · rw [require, if_neg hsix]
    exact .inr ⟨fun h => hsix h.1, ensures_reject⟩

/-- **The parser panics exactly on packets with more padding than bytes.** -/
theorem parse_panics_iff (data : List UInt8) : parseSshKexinit data = .error .panicked ↔ PaddedOver data := by
  rcases parseSshKexinit_cases data with ⟨hover, hpanic⟩ | ⟨hover, hensures⟩
  · exact iff_of_true hpanic hover
  · exact iff_of_false hensures.ne_panicked hover

/-- **The lists of any packet have names without commas**, and none of them is empty. -/
theorem parse_names {data : List UInt8} {k : SshKexInit} (h : parseSshKexinit data = .ok k) :
    ∀ list ∈ k.lists, IsNameList list := by
  rcases parseSshKexinit_cases data with ⟨-, hpanic⟩ | ⟨-, hensures⟩
  · rw [hpanic] at h
    cases h
  · exact hensures.of_ok h

/-! ## Encoded messages -/

theorem readNameList_of_at {payload : List UInt8} {pos : ℕ} {list : NameList} (hlist : IsNameList list)
    (hfits : (bytes (joined list)).length < 2 ^ 32) (h : At payload pos (listBytes list)) :
    readNameList payload pos = .ok (list, pos + (listBytes list).length) := by
  have hlength := h.le_length
  obtain ⟨hlen, hbody⟩ := at_append.1 h
  rw [listBytes, List.length_append, length_beBytes] at hlength ⊢
  rw [length_beBytes] at hbody
  have htoNat : (UInt32.ofNat (bytes (joined list)).length).toNat = (bytes (joined list)).length := by
    rw [UInt32.toNat_ofNat', Nat.mod_eq_of_lt hfits]
  unfold readNameList
  rw [if_neg (by omega), u32At_of_at hfits hlen]
  simp only [bind, Except.bind, htoNat]
  rw [if_neg (by omega), slice_of_at hbody]
  simp only [names_bytes hlist, Nat.add_assoc]
  rfl

/-- Lists that stand one behind the other are read one after the other. -/
theorem readNameLists_of_at {payload rest : List UInt8} {k : SshKexInit} (hvalid : ∀ list ∈ k.lists, IsNameList list)
    (hclient : k.isServer = false) (hfits : (k.lists.flatMap listBytes).length < 2 ^ 32)
    (h : At payload 17 (k.lists.flatMap listBytes ++ rest)) : readNameLists payload = .ok k := by
  have hlt {list : NameList} (hmem : list ∈ k.lists) : (bytes (joined list)).length < 2 ^ 32 := by
    have hsub : (listBytes list).length ≤ (k.lists.flatMap listBytes).length :=
      (List.sublist_flatten_of_mem (List.mem_map_of_mem hmem)).length_le
    rw [listBytes, List.length_append] at hsub
    omega
  obtain ⟨kex, hostKey, encC2s, encS2c, macC2s, macS2c, compC2s, compS2c, isServer⟩ := k
  simp only [SshKexInit.lists] at hvalid hlt h hclient
  subst hclient
  simp only [List.flatMap_cons, List.flatMap_nil, List.append_nil, List.append_assoc] at h
  obtain ⟨h1, h⟩ := at_append.1 h
  obtain ⟨h2, h⟩ := at_append.1 h
  obtain ⟨h3, h⟩ := at_append.1 h
  obtain ⟨h4, h⟩ := at_append.1 h
  obtain ⟨h5, h⟩ := at_append.1 h
  obtain ⟨h6, h⟩ := at_append.1 h
  obtain ⟨h7, h⟩ := at_append.1 h
  obtain ⟨h8, -⟩ := at_append.1 h
  unfold readNameLists
  rw [readNameList_of_at (hvalid _ (by simp)) (hlt (by simp)) h1]
  simp only [bind, Except.bind]
  rw [readNameList_of_at (hvalid _ (by simp)) (hlt (by simp)) h2]
  dsimp only
  rw [readNameList_of_at (hvalid _ (by simp)) (hlt (by simp)) h3]
  dsimp only
  rw [readNameList_of_at (hvalid _ (by simp)) (hlt (by simp)) h4]
  dsimp only
  rw [readNameList_of_at (hvalid _ (by simp)) (hlt (by simp)) h5]
  dsimp only
  rw [readNameList_of_at (hvalid _ (by simp)) (hlt (by simp)) h6]
  dsimp only
  rw [readNameList_of_at (hvalid _ (by simp)) (hlt (by simp)) h7]
  dsimp only
  rw [readNameList_of_at (hvalid _ (by simp)) (hlt (by simp)) h8]
  rfl

/-- **An encoded message is parsed to its lists**, whatever its padding is and whatever follows it. -/
theorem parseSshKexinit_encode (m : KexMessage) : parseSshKexinit m.encode = .ok m.kex := by
  generalize hdata : m.encode = data
  have h : At data 0 (beBytes 4 (1 + m.payload.length + m.padding.1.length) ++ (UInt8.ofNat m.padding.1.length ::
      (m.payload ++ (m.padding.1 ++ m.trailer)))) := hdata ▸ at_self _
  have hlength := h.le_length
  have hfits := m.fits
  have hpadding := m.padding.2
  have hpayload : m.payload.length = 17 + (m.kex.lists.flatMap listBytes).length + m.reserved.length := by
    simp only [KexMessage.payload, List.length_cons, List.length_append, m.cookie.2]
    omega
  simp only [List.length_append, List.length_cons, length_beBytes] at hlength
  obtain ⟨hlen, h⟩ := at_append.1 h
  obtain ⟨hpad, h⟩ := at_cons.1 h
  obtain ⟨hbody, -⟩ := at_append.1 h
  rw [length_beBytes] at hpad hbody
  have hpacket : (UInt32.ofNat (1 + m.payload.length + m.padding.1.length)).toNat =
      1 + m.payload.length + m.padding.1.length := by
    rw [UInt32.toNat_ofNat', Nat.mod_eq_of_lt (by omega)]
  have hpadLen : (UInt8.ofNat m.padding.1.length).toNat = m.padding.1.length := UInt8.toNat_ofNat_of_lt hpadding
  have hend : payloadEnd (1 + m.payload.length + m.padding.1.length) m.padding.1.length = .ok (5 + m.payload.length) := by
    rw [payloadEnd, if_neg (by omega)]
    congr 1
    omega
  unfold parseSshKexinit
  rw [require_of (by omega), u32At_of_at (by omega) hlen]
  simp only [bind, Except.bind, hpacket]
  rw [require_of (by omega), byteAt_of_at hpad]
  simp only [hpadLen, hend]
  rw [require_of (by omega), slice_of_at hbody]
  dsimp only
  rw [require_of (List.ne_nil_of_length_pos (by omega))]
  -- the payload is the message code, the cookie and the lists
  have hself : At m.payload 0 (sshMsgKexinit :: (m.cookie.1 ++ (m.kex.lists.flatMap listBytes ++ m.reserved))) :=
    at_self m.payload
  obtain ⟨hcode, hrest⟩ := at_cons.1 hself
  obtain ⟨-, hlists⟩ := at_append.1 hrest
  dsimp only
  rw [byteAt_of_at hcode]
  dsimp only
  rw [require_of rfl, require_of (by omega)]
  exact readNameLists_of_at m.names_valid m.client (by omega) (hlists.congr (by rw [m.cookie.2]))

/-! ## One reading of the hashed texts -/

theorem joined_inj {list list' : NameList} (h : IsNameList list) (h' : IsNameList list') :
    joined list = joined list' ↔ list = list' := by
  refine ⟨fun heq => ?_, congrArg joined⟩
  rw [← names_bytes h, ← names_bytes h', heq]

theorem semicolon_not_mem_joined {list : NameList} (h : ∀ name ∈ list, ';' ∉ name) : ';' ∉ joined list := by
  intro hmem
  have hfilter := List.mem_filter.2 ⟨hmem, beq_self_eq_true ';'⟩
  rw [joined, TextSearch.filter_intercalate (by decide)] at hfilter
  obtain ⟨name, hname, hmem⟩ := List.mem_flatten.1 (List.mem_of_mem_filter hfilter)
  exact h name hname hmem

/-- Name lists without semicolons. -/
structure Plain (k : SshKexInit) : Prop where
  names : ∀ list ∈ k.lists, IsNameList list
  noSemicolon : ∀ list ∈ k.lists, ∀ name ∈ list, ';' ∉ name

/-- The hashes of the two key exchanges do not collide. -/
structure NoHasshCollision (a b : SshKexInit) : Prop where
  client : hash32 a.clientText = hash32 b.clientText → a.clientText = b.clientText
  server : hash32 a.serverText = hash32 b.serverText → a.serverText = b.serverText

theorem hasshText_inj {a b c d a' b' c' d' : NameList} (h : ∀ list ∈ [a, b, c, d, a', b', c', d'],
    IsNameList list ∧ ∀ name ∈ list, ';' ∉ name) :
    hasshText a b c d = hasshText a' b' c' d' ↔ a = a' ∧ b = b' ∧ c = c' ∧ d = d' := by
  simp only [List.forall_mem_cons, List.not_mem_nil, IsEmpty.forall_iff, implies_true, and_true] at h
  obtain ⟨⟨ha, sa⟩, ⟨hb, sb⟩, ⟨hc, sc⟩, ⟨hd, -⟩, ⟨ha', sa'⟩, ⟨hb', sb'⟩, ⟨hc', sc'⟩, hd', -⟩ := h
  unfold hasshText
  rw [Wire.append_cons_inj (semicolon_not_mem_joined sa) (semicolon_not_mem_joined sa'),
    Wire.append_cons_inj (semicolon_not_mem_joined sb) (semicolon_not_mem_joined sb'),
    Wire.append_cons_inj (semicolon_not_mem_joined sc) (semicolon_not_mem_joined sc'),
    joined_inj ha ha', joined_inj hb hb', joined_inj hc hc', joined_inj hd hd']

/-- **The fingerprints identify the lists that they are of**, without semicolons in the names and collisions: that of a
client the first four below, and that of a server the others; the host keys are in none. -/
theorem hassh_eq_iff {a b : SshKexInit} (ha : Plain a) (hb : Plain b) (hcol : NoHasshCollision a b) :
    (a.computeHassh = b.computeHassh ↔ a.kexAlgorithms = b.kexAlgorithms ∧
      a.encryptionAlgorithmsClientToServer = b.encryptionAlgorithmsClientToServer ∧
      a.macAlgorithmsClientToServer = b.macAlgorithmsClientToServer ∧
      a.compressionAlgorithmsClientToServer = b.compressionAlgorithmsClientToServer) ∧
    (a.computeHasshServer = b.computeHasshServer ↔ a.kexAlgorithms = b.kexAlgorithms ∧
      a.encryptionAlgorithmsServerToClient = b.encryptionAlgorithmsServerToClient ∧
      a.macAlgorithmsServerToClient = b.macAlgorithmsServerToClient ∧
      a.compressionAlgorithmsServerToClient = b.compressionAlgorithmsServerToClient) := by
  have hplain {k : SshKexInit} (hk : Plain k) {list : NameList} (hmem : list ∈ k.lists) :
      IsNameList list ∧ ∀ name ∈ list, ';' ∉ name := ⟨hk.names list hmem, hk.noSemicolon list hmem⟩
  constructor
  · refine Iff.trans ⟨fun h => hcol.client h, fun h => congrArg hash32 h⟩ (hasshText_inj ?_)
    simp only [List.forall_mem_cons, List.not_mem_nil, IsEmpty.forall_iff, implies_true, and_true]
    refine ⟨hplain ha ?_, hplain ha ?_, hplain ha ?_, hplain ha ?_, hplain hb ?_, hplain hb ?_, hplain hb ?_, hplain hb ?_⟩
      <;> simp [SshKexInit.lists]
  · refine Iff.trans ⟨fun h => hcol.server h, fun h => congrArg hash32 h⟩ (hasshText_inj ?_)
    simp only [List.forall_mem_cons, List.not_mem_nil, IsEmpty.forall_iff, implies_true, and_true]
    refine ⟨hplain ha ?_, hplain ha ?_, hplain ha ?_, hplain ha ?_, hplain hb ?_, hplain hb ?_, hplain hb ?_, hplain hb ?_⟩
      <;> simp [SshKexInit.lists]

/-- A key exchange with the given algorithms for the exchange itself. -/
def sampleKex (kex : NameList) : SshKexInit where
  kexAlgorithms := kex
  serverHostKeyAlgorithms := [['r', 's', 'a']]
  encryptionAlgorithmsClientToServer := [['a', 'e', 's']]
  encryptionAlgorithmsServerToClient := [['a', 'e', 's']]
  macAlgorithmsClientToServer := [['s', 'h', 'a']]
  macAlgorithmsServerToClient := [['s', 'h', 'a']]
  compressionAlgorithmsClientToServer := []
  compressionAlgorithmsServerToClient := []
  isServer := false

theorem plain_sampleKex {kex : NameList} (h : IsNameList kex) (hs : ∀ name ∈ kex, ';' ∉ name) :
    Plain (sampleKex kex) := by
  constructor
  · simp only [SshKexInit.lists, sampleKex, List.forall_mem_cons]
    exact ⟨h, by decide⟩
  · simp only [SshKexInit.lists, sampleKex, List.forall_mem_cons]
    exact ⟨hs, by decide⟩

theorem noHasshCollision_sampleKex : NoHasshCollision (sampleKex [['d', 'h']]) (sampleKex [['e', 'c', 'd', 'h']]) := by
  have hclient : hash32 (sampleKex [['d', 'h']]).clientText ≠ hash32 (sampleKex [['e', 'c', 'd', 'h']]).clientText := by
    decide +kernel
  -- both directions have the same lists
  exact ⟨fun h => absurd h hclient, fun h => absurd h hclient⟩

/-- Another algorithm makes another fingerprint. -/
theorem hassh_of_exchange :
    (sampleKex [['d', 'h']]).computeHassh ≠ (sampleKex [['e', 'c', 'd', 'h']]).computeHassh := by
  have hiff := hassh_eq_iff (plain_sampleKex (by decide) (by decide)) (plain_sampleKex (by decide) (by decide))
    noHasshCollision_sampleKex
  exact fun heq => absurd (hiff.1.1 heq).1 (by decide)

end ThorFirewall.Fingerprint
