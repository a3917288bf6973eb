import Mathlib
import ThorFirewall.Fingerprint.ClientHello

/-!
# Two readers of the server name (`tls/mod.rs`, `fingerprint/ja4.rs`)

`extract_sni` finds a server name for the blocklist, `parse_client_hello` one for the fingerprint. Both find the
extension block at the same place (`Block`); the first bounds it by the packet, takes the first server_name extension
and bounds the name by the packet, the second bounds the block by the record and takes the last name that lies within
its extension.

- `extractSni_eq_ok`, `parsed_sni`: what each reader returns;
- `readers_agree_iff`: when they return the same.
-/

namespace ThorFirewall.Fingerprint

open ByteReader Text Utf8

/-! ## The reader of the blocklist -/

/-- `filter(|s| s.is_ascii() && !s.is_empty())` of a name that is UTF-8. -/
def asciiName (name : List UInt8) : Option (List Char) :=
  (fromUtf8 name).filter fun s => (s.all fun c => c.toNat < 128) && !s.isEmpty

/-- The body of a server_name extension. -/
def readSni (handshake : List UInt8) (pos extLen : ℕ) : Checked (List Char) := do
  require (5 ≤ extLen)
  let sniType ← byteAt handshake (pos + 2)
  require (sniType = 0)
  let nameLen ← u16At handshake (pos + 3)
  require (pos + 5 + nameLen.toNat ≤ handshake.length)
  let nameBytes ← slice handshake (pos + 5) (pos + 5 + nameLen.toNat)
  match asciiName nameBytes with
  | some name => return name
  | none => reject

/-- The loop over the extensions, up to the first server_name. -/
def findSni (handshake : List UInt8) (extEnd pos : ℕ) : Checked (List Char) :=
  if _h : pos + 4 ≤ extEnd then do
    let extType ← u16At handshake pos
    let extLen ← u16At handshake (pos + 2)
    let pos' := pos + 4
    if pos' + extLen.toNat ≤ extEnd then
      if extType = 0x0000 then readSni handshake pos' extLen.toNat
      else findSni handshake extEnd (pos' + extLen.toNat)
    else reject
  else reject
termination_by extEnd - pos

def extractSni (data : List UInt8) : Checked (List Char) := do
  require (5 ≤ data.length)
  let contentType ← byteAt data 0
  let _versionMajor ← byteAt data 1
  let _versionMinor ← byteAt data 2
  let recordLen ← u16At data 3
  require (contentType = 0x16)
  require (5 + recordLen.toNat ≤ data.length)
  let handshake ← slice data 5 data.length
  require (handshake ≠ [])
  let msgType ← byteAt handshake 0
  require (msgType = 0x01)
  require (39 ≤ handshake.length)
  let pos := 38
  let sessionIdLen ← byteAt handshake pos
  let pos := pos + (1 + sessionIdLen.toNat)
  require (pos + 2 ≤ handshake.length)
  let cipherLen ← u16At handshake pos
  let pos := pos + (2 + cipherLen.toNat)
  require (pos + 1 ≤ handshake.length)
  let compLen ← byteAt handshake pos
  let pos := pos + (1 + compLen.toNat)
  require (pos + 2 ≤ handshake.length)
  let extTotal ← u16At handshake pos
  let pos := pos + 2
  let extEnd := pos + extTotal.toNat
  require (extEnd ≤ handshake.length)
  findSni handshake extEnd pos

/-! ## The extension block -/

/-- A packet with a handshake record, as long as it says, that begins with a ClientHello. -/
structure IsHello (data : List UInt8) (recordLen : ℕ) : Prop where
  contentType : data[0]? = some 0x16
  record : ∃ len, u16At data 3 = .ok len ∧ len.toNat = recordLen
  record_le : 5 + recordLen ≤ data.length
  msgType : data[5]? = some 0x01

/-- The extensions of a handshake: where they begin, and the bytes they take. -/
def Block (handshake : List UInt8) (start total : ℕ) : Prop :=
  ∃ sidLen csLen compLen extTotal, byteAt handshake 38 = .ok sidLen ∧ u16At handshake (39 + sidLen.toNat) = .ok csLen ∧
    byteAt handshake (41 + sidLen.toNat + csLen.toNat) = .ok compLen ∧
    u16At handshake (42 + sidLen.toNat + csLen.toNat + compLen.toNat) = .ok extTotal ∧
    44 + sidLen.toNat + csLen.toNat + compLen.toNat = start ∧ extTotal.toNat = total ∧ start + total ≤ handshake.length

/-- The bytes of a host name for both readers: ASCII, at least one. -/
def IsHost (name : List UInt8) : Prop := name ≠ [] ∧ ∀ b ∈ name, b < 128

/-- The extensions of a block, each with the bytes of the packet behind it. -/
def extensionsAt (handshake : List UInt8) (start total : ℕ) : List RawExtension :=
  rawExtensions total (handshake.drop start)

/-- The name of a server_name extension, if it lies within the extension. -/
def RawExtension.wholeName (e : RawExtension) : Option (List UInt8) :=
  if e.type = 0x0000 then hostBytes e.body.length e.body else none

/-- The last name in a list of extensions that lies within its extension. -/
def lastName (exts : List RawExtension) : Option (List UInt8) := (exts.filterMap RawExtension.wholeName).getLast?

/-- Wherever the packet holds extensions with a server_name: if the bytes that the first one announces are a host name,
the extensions end within the record, and the last name that lies within its extension has the same bytes; if not, there
is no such last name within the record that is a host name. -/
def NamesAgree (data : List UInt8) : Prop :=
  ∀ recordLen start total first, IsHello data recordLen → Block (data.drop 5) start total →
    (extensionsAt (data.drop 5) start total).find? (fun e => e.type = 0x0000) = some first →
    (∀ name, hostBytes first.size first.rest = some name → IsHost name →
      start + total ≤ recordLen ∧ lastName (extensionsAt (data.drop 5) start total) = some name) ∧
    ((∀ name, hostBytes first.size first.rest = some name → ¬ IsHost name) → start + total ≤ recordLen →
      ∀ name, lastName (extensionsAt (data.drop 5) start total) = some name → ¬ IsHost name)

/-! ## Names -/

theorem asciiName_eq_some_iff {name : List UInt8} {s : List Char} :
    asciiName name = some s ↔ fromUtf8 name = some s ∧ IsAscii s ∧ s ≠ [] := by
  rw [asciiName, Option.filter_eq_some_iff, Bool.and_eq_true, List.all_eq_true, Bool.not_eq_true',
    List.isEmpty_eq_false_iff]
  simp only [decide_eq_true_eq]
  rfl

theorem toUInt8_ofNat :
    ∀ b : UInt8, b < 128 → (Char.ofNat b.toNat).val.toUInt8 = b ∧ (Char.ofNat b.toNat).toNat < 128 := by
  decide +kernel

/-- A name is read if and only if it is a host name. -/
theorem isHost_iff {name : List UInt8} : IsHost name ↔ ∃ s, asciiName name = some s := by
  constructor
  · rintro ⟨hne, hascii⟩
    have hs : IsAscii (name.map fun b => Char.ofNat b.toNat) := by
      intro c hc
      obtain ⟨b, hb, rfl⟩ := List.mem_map.1 hc
      exact (toUInt8_ofNat b (hascii b hb)).2
    refine ⟨name.map fun b => Char.ofNat b.toNat, asciiName_eq_some_iff.2 ⟨?_, hs, ?_⟩⟩
    · rw [fromUtf8_eq_some_iff, bytes_ascii hs, List.map_map]
      exact (List.map_congr_left fun b hb => (toUInt8_ofNat b (hascii b hb)).1).trans (List.map_id name)
    · exact fun h => hne (List.map_eq_nil_iff.1 h)
  · rintro ⟨s, hs⟩
    obtain ⟨hread, hascii, hne⟩ := asciiName_eq_some_iff.1 hs
    rw [fromUtf8_eq_some_iff, bytes_ascii hascii] at hread
    subst hread
    refine ⟨fun h => hne (List.map_eq_nil_iff.1 h), fun b hb => ?_⟩
    obtain ⟨c, hc, rfl⟩ := List.mem_map.1 hb
    have hlt := hascii c hc
    rw [UInt8.lt_iff_toNat_lt]
    exact lt_of_le_of_lt (Nat.mod_le _ _) hlt

theorem asciiName_inj {name name' : List UInt8} {s : List Char} (h : asciiName name = some s)
    (h' : asciiName name' = some s) : name = name' := by
  have hread := (asciiName_eq_some_iff.1 h).1
  have hread' := (asciiName_eq_some_iff.1 h').1
  rw [fromUtf8_eq_some_iff] at hread hread'
  exact hread.symm.trans hread'

/-! ## Reads in a part of the packet -/

variable {l : List UInt8} {b : UInt8} {x : UInt16} {pos k n : ℕ}

theorem byteAt_drop_eq (l : List UInt8) (k pos : ℕ) : byteAt (l.drop k) pos = byteAt l (k + pos) := by
  rw [byteAt, byteAt, List.getElem?_drop]

theorem u16At_drop_eq (l : List UInt8) (k pos : ℕ) : u16At (l.drop k) pos = u16At l (k + pos) := by
  simp only [u16At, bytesAt, byteAt_drop_eq, Nat.add_assoc]

theorem slice_to_end {data bs : List UInt8} {k : ℕ} :
    slice data k data.length = .ok bs ↔ k ≤ data.length ∧ data.drop k = bs := by
  have htake : (data.drop k).take (data.length - k) = data.drop k := by
    rw [← List.length_drop, List.take_length]
  rw [slice_eq_ok, htake, and_iff_left (Nat.le_refl _)]

theorem byteAt_take_eq_ok : byteAt (l.take n) pos = .ok b ↔ byteAt l pos = .ok b ∧ pos < n := by
  rw [byteAt_eq_ok, byteAt_eq_ok, List.getElem?_take]
  split_ifs with h
  · exact (and_iff_left h).symm
  · exact iff_of_false nofun fun h' => h h'.2

theorem u16At_take_eq_ok : u16At (l.take n) pos = .ok x ↔ u16At l pos = .ok x ∧ pos + 1 < n := by
  simp only [u16At_eq_ok, List.getElem?_take]
  constructor
  · rintro ⟨high, low, hhigh, hlow, rfl⟩
    split_ifs at hhigh hlow with h h'
    exact ⟨⟨high, low, hhigh, hlow, rfl⟩, h'⟩
  · rintro ⟨⟨high, low, hhigh, hlow, rfl⟩, h⟩
    exact ⟨high, low, by rw [if_pos (by omega), hhigh], by rw [if_pos h, hlow], rfl⟩

theorem u16At_lt (h : u16At l pos = .ok x) : pos + 1 < l.length := by
  obtain ⟨_, _, -, hlow, -⟩ := u16At_eq_ok.1 h
  exact (List.getElem?_eq_some_iff.1 hlow).1

/-- The block of a part that a handshake begins with is that of the handshake, if it ends in the part. -/
theorem block_take {handshake : List UInt8} {start total : ℕ} (hn : n ≤ handshake.length) :
    Block (handshake.take n) start total ↔ Block handshake start total ∧ start + total ≤ n := by
  rw [Block, Block, List.length_take, Nat.min_eq_left hn]
  constructor
  · rintro ⟨sid, cs, comp, tot, hsid, hcs, hcomp, htot, hstart, htotal, hle⟩
    exact ⟨⟨sid, cs, comp, tot, (byteAt_take_eq_ok.1 hsid).1, (u16At_take_eq_ok.1 hcs).1, (byteAt_take_eq_ok.1 hcomp).1,
      (u16At_take_eq_ok.1 htot).1, hstart, htotal, hle.trans hn⟩, hle⟩
  · rintro ⟨⟨sid, cs, comp, tot, hsid, hcs, hcomp, htot, hstart, htotal, -⟩, hle⟩
    exact ⟨sid, cs, comp, tot, byteAt_take_eq_ok.2 ⟨hsid, by omega⟩, u16At_take_eq_ok.2 ⟨hcs, by omega⟩,
      byteAt_take_eq_ok.2 ⟨hcomp, by omega⟩, u16At_take_eq_ok.2 ⟨htot, by omega⟩, hstart, htotal, hle⟩

theorem Block.unique {handshake : List UInt8} {start total start' total' : ℕ} (h : Block handshake start total)
    (h' : Block handshake start' total') : start = start' ∧ total = total' := by
  obtain ⟨sid, cs, comp, tot, hsid, hcs, hcomp, htot, hstart, htotal, -⟩ := h
  obtain ⟨sid', cs', comp', tot', hsid', hcs', hcomp', htot', hstart', htotal', -⟩ := h'
  cases Except.ok.inj (hsid.symm.trans hsid')
  cases Except.ok.inj (hcs.symm.trans hcs')
  cases Except.ok.inj (hcomp.symm.trans hcomp')
  cases Except.ok.inj (htot.symm.trans htot')
  exact ⟨hstart.symm.trans hstart', htotal.symm.trans htotal'⟩

theorem IsHello.unique {data : List UInt8} {recordLen recordLen' : ℕ} (h : IsHello data recordLen)
    (h' : IsHello data recordLen') : recordLen = recordLen' := by
  obtain ⟨len, hlen, rfl⟩ := h.record
  obtain ⟨len', hlen', rfl⟩ := h'.record
  rw [Except.ok.inj (hlen.symm.trans hlen')]

/-! ## What the first reader returns -/

theorem readSni_eq_ok {handshake : List UInt8} {extLen : ℕ} {name : List Char} (h : pos + extLen ≤ handshake.length) :
    readSni handshake pos extLen = .ok name ↔
      ∃ bs, hostBytes extLen (handshake.drop pos) = some bs ∧ asciiName bs = some name := by
  unfold readSni
  simp only [bind_eq_ok, require_eq_ok]
  by_cases hlong : 5 ≤ extLen
  · -- five bytes are there
    obtain ⟨a, ha, hdrop⟩ := byteAt_drop handshake pos (by omega)
    obtain ⟨b, hb, hdrop'⟩ := byteAt_drop handshake (pos + 1) (by omega)
    obtain ⟨kind, hkind, hdrop3⟩ := byteAt_drop handshake (pos + 2) (by omega)
    obtain ⟨high, low, hlen, hrest⟩ := u16At_drop handshake (pos + 3) (by omega)
    have hlength : (handshake.drop (pos + 3 + 2)).length = handshake.length - (pos + 5) := by
      rw [List.length_drop]
    rw [hdrop, hdrop', hdrop3, hrest, hostBytes, hlength]
    generalize hsize : UInt16.ofNat (ofBe [high, low]) = nameLen at hlen
    constructor
    · rintro ⟨_, -, kind', hkind', _, hzero, nameLen', hlen', _, hfits, bytes, hslice, hname⟩
      cases Except.ok.inj (hkind.symm.trans hkind')
      cases Except.ok.inj (hlen.symm.trans hlen')
      obtain ⟨-, rfl⟩ := slice_eq_ok.1 hslice
      rw [Nat.add_sub_cancel_left] at hname
      refine ⟨(handshake.drop (pos + 5)).take nameLen.toNat, ?_, ?_⟩
      · rw [if_pos ⟨hlong, hzero, by omega⟩]
      · cases hascii : asciiName ((handshake.drop (pos + 5)).take nameLen.toNat) with
        | none =>
          rw [hascii] at hname
          cases hname
        | some s =>
          rw [hascii] at hname
          exact congrArg some (pure_eq_ok.1 hname)
    · rintro ⟨bs, hbs, hname⟩
      split_ifs at hbs with hfits
      obtain ⟨-, hzero, hroom⟩ := hfits
      cases hbs
      refine ⟨(), hlong, kind, hkind, (), hzero, nameLen, hlen, (), by omega,
        (handshake.drop (pos + 5)).take nameLen.toNat, ?_, ?_⟩
      · exact slice_eq_ok.2 ⟨⟨by omega, by omega⟩, by rw [Nat.add_sub_cancel_left]⟩
      · have hascii : asciiName ((handshake.drop (pos + 5)).take nameLen.toNat) = some name := hname
        rw [hascii]
        rfl
  · refine iff_of_false (fun h => hlong (by obtain ⟨_, h, -⟩ := h; exact h)) ?_
    rintro ⟨bs, hbs, -⟩
    unfold hostBytes at hbs
    split at hbs
    · rw [if_neg fun h => hlong h.1] at hbs
      cases hbs
    · cases hbs

/-- The loop finds the first server_name. -/
theorem findSni_eq_ok {handshake : List UInt8} {extEnd pos : ℕ} {name : List Char} (h : extEnd ≤ handshake.length) :
    findSni handshake extEnd pos = .ok name ↔
      ∃ first bs, (rawExtensions (extEnd - pos) (handshake.drop pos)).find? (fun e => e.type = 0x0000) = some first ∧
        hostBytes first.size first.rest = some bs ∧ asciiName bs = some name := by
  fun_induction findSni handshake extEnd pos with
  | case1 pos hpos ih =>
    obtain ⟨a, b, htype, hdrop⟩ := u16At_drop handshake pos (by omega)
    obtain ⟨c, d, hlen, hdrop'⟩ := u16At_drop handshake (pos + 2) (by omega)
    rw [hdrop, hdrop', rawExtensions, htype]
    simp only [bind, Except.bind, hlen]
    generalize hsize : UInt16.ofNat (ofBe [c, d]) = size at ih
    generalize UInt16.ofNat (ofBe [a, b]) = type
    by_cases hfits : pos + 4 + size.toNat ≤ extEnd
    · have hroom : 4 + size.toNat ≤ extEnd - pos := by omega
      rw [if_pos hfits, if_pos hroom]
      by_cases hzero : type = 0x0000
      · rw [if_pos hzero, readSni_eq_ok (by omega), List.find?_cons_of_pos (by simpa using hzero)]
        constructor
        · rintro ⟨bs, hbs, hname⟩
          exact ⟨_, bs, rfl, hbs, hname⟩
        · rintro ⟨_, bs, hfirst, hbs, hname⟩
          cases hfirst
          exact ⟨bs, hbs, hname⟩
      · rw [if_neg hzero, ih size hfits, List.find?_cons_of_neg (by simpa using hzero), List.drop_drop, Nat.sub_sub,
          ← Nat.add_assoc]
    · have hroom : ¬ 4 + size.toNat ≤ extEnd - pos := by omega
      rw [if_neg hfits, if_neg hroom]
      refine iff_of_false (fun h => by cases h) ?_
      rintro ⟨_, _, hfind, -⟩
      cases hfind
  | case2 pos hpos =>
    refine iff_of_false (fun h => by cases h) ?_
    rintro ⟨first, bs, hfind, -⟩
    have hnone : rawExtensions (extEnd - pos) (handshake.drop pos) = [] := by
      unfold rawExtensions
      split
      · rw [if_neg (by omega)]
      · rfl
    rw [hnone] at hfind
    cases hfind

/-- **The reader of the blocklist** returns the first server_name, if it is a host name. -/
theorem extractSni_eq_ok {data : List UInt8} {name : List Char} : extractSni data = .ok name ↔
    ∃ recordLen start total first bs, IsHello data recordLen ∧ Block (data.drop 5) start total ∧
      (extensionsAt (data.drop 5) start total).find? (fun e => e.type = 0x0000) = some first ∧
      hostBytes first.size first.rest = some bs ∧ asciiName bs = some name := by
  unfold extractSni
  simp only [bind_eq_ok, require_eq_ok, slice_to_end]
  constructor
  · rintro ⟨_, -, type, htype, _, -, _, -, len, hlen, _, rfl, _, hrecord, _, ⟨-, rfl⟩, _, -, msg, hmsg, _, rfl, _, -,
      sid, hsid, _, -, cs, hcs, _, -, comp, hcomp, _, -, tot, htot, _, hend, hfind⟩
    obtain ⟨first, bs, hfirst, hbytes, hname⟩ := (findSni_eq_ok hend).1 hfind
    rw [byteAt_eq_ok, List.getElem?_drop] at hmsg
    refine ⟨len.toNat, _, tot.toNat, first, bs, ⟨byteAt_eq_ok.1 htype, ⟨len, hlen, rfl⟩, hrecord, hmsg⟩,
      ⟨sid, cs, comp, tot, hsid, ?_, ?_, ?_, ?_, rfl, hend⟩, ?_, hbytes, hname⟩
    · rwa [← Nat.add_assoc] at hcs
    · convert hcomp using 2
      omega
    · convert htot using 2
      omega
    · omega
    · rwa [Nat.add_sub_cancel_left] at hfirst
  · rintro ⟨recordLen, start, total, first, bs, hhello, ⟨sid, cs, comp, tot, hsid, hcs, hcomp, htot, hstart, rfl, hend⟩,
      hfirst, hbytes, hname⟩
    obtain ⟨len, hlen, rfl⟩ := hhello.record
    have hdata := hhello.record_le
    have hlong := u16At_lt htot
    obtain ⟨major, hmajor⟩ := byteAt_isOk data 1 (by omega)
    obtain ⟨minor, hminor⟩ := byteAt_isOk data 2 (by omega)
    refine ⟨(), by omega, _, byteAt_eq_ok.2 hhello.contentType, major, hmajor, minor, hminor, len, hlen, (), rfl, (),
      hdata, _, ⟨by omega, rfl⟩, (), ?_, _, byteAt_eq_ok.2 ?_, (), rfl, (), by omega, sid, hsid, (), by omega, cs, ?_,
      (), by omega, comp, ?_, (), by omega, tot, ?_, (), by omega, ?_⟩
    · exact List.ne_nil_of_length_pos (by omega)
    · rw [List.getElem?_drop]
      exact hhello.msgType
    · rwa [← Nat.add_assoc]
    · convert hcomp using 2
      omega
    · convert htot using 2
      omega
    · refine (findSni_eq_ok (by omega)).2 ⟨first, bs, ?_, hbytes, hname⟩
      rw [Nat.add_sub_cancel_left]
      convert hfirst using 3
      rw [extensionsAt]
      congr 2
      omega

/-! ## What the second reader returns -/

theorem sni_add (found : Found) (e : RawExtension) : (found.add e.type e.body).sni =
    match e.wholeName with | some name => fromUtf8 name | none => found.sni := by
  unfold Found.add RawExtension.wholeName
  by_cases hzero : e.type = 0x0000
  · cases hname : hostBytes e.body.length e.body with
    | none => simp only [if_pos hzero]
    | some name => simp only [if_pos hzero]
  · simp only [if_neg hzero]

theorem sni_foldl (exts : List RawExtension) (found : Found) :
    (exts.foldl (fun f e => f.add e.type e.body) found).sni =
      match lastName exts with | some name => fromUtf8 name | none => found.sni := by
  induction exts using List.reverseRecOn with
  | nil => rfl
  | append_singleton exts e ih =>
    rw [List.foldl_concat, sni_add, ih, lastName, lastName, List.filterMap_append]
    cases hname : e.wholeName with
    | none => rw [List.filterMap_cons_none hname, List.filterMap_nil, List.append_nil]
    | some name => rw [List.filterMap_cons_some hname, List.filterMap_nil, List.getLast?_concat]

theorem long_or_short (bytes : List UInt8) :
    bytes.length < 4 ∨ ∃ a b c d rest, bytes = a :: b :: c :: d :: rest := by
  match bytes with
  | [] | [_] | [_, _] | [_, _, _] => exact Or.inl (by simp)
  | a :: b :: c :: d :: rest => exact Or.inr ⟨a, b, c, d, rest, rfl⟩

/-- The extensions of a block do not depend on what stands behind it. -/
theorem wholeName_take {room n : ℕ} {bytes : List UInt8} (hroom : room ≤ n) :
    (rawExtensions room (bytes.take n)).map RawExtension.wholeName =
      (rawExtensions room bytes).map RawExtension.wholeName := by
  induction room using Nat.strong_induction_on generalizing n bytes with
  | _ room ih =>
    obtain hshort | ⟨a, b, c, d, rest, rfl⟩ := long_or_short bytes
    · rw [rawExtensions_short hshort, rawExtensions_short ((List.length_take_le' n bytes).trans_lt hshort)]
    · rw [rawExtensions]
      by_cases hfits : 4 + (UInt16.ofNat (ofBe [c, d])).toNat ≤ room
      · obtain ⟨k, rfl⟩ : ∃ k, n = k + 4 := ⟨n - 4, by omega⟩
        simp only [List.take_succ_cons]
        rw [rawExtensions]
        simp only [if_pos hfits, List.map_cons, List.drop_take]
        rw [ih _ (by omega) (by omega)]
        congr 1
        simp only [RawExtension.wholeName, RawExtension.body, List.take_take]
        rw [Nat.min_eq_left (by omega)]
      · rw [if_neg hfits]
        by_cases hn : n < 4
        · rw [rawExtensions_short ((List.length_take_le n _).trans_lt hn)]
        · obtain ⟨k, rfl⟩ : ∃ k, n = k + 4 := ⟨n - 4, by omega⟩
          simp only [List.take_succ_cons]
          rw [rawExtensions, if_neg hfits]

theorem lastName_take {room n : ℕ} {bytes : List UInt8} (hroom : room ≤ n) :
    lastName (rawExtensions room (bytes.take n)) = lastName (rawExtensions room bytes) := by
  have hmap : ∀ exts : List RawExtension, exts.filterMap RawExtension.wholeName =
      (exts.map RawExtension.wholeName).filterMap id := by
    intro exts
    rw [List.filterMap_map]
    rfl
  rw [lastName, lastName, hmap, hmap, wholeName_take hroom]

/-- The name that is found in a block, whose bytes are cut out of a part of the packet first. -/
theorem sni_of_block {part extData : List UInt8} {found : Found} {p start total : ℕ} (hstart : 4 + p = start)
    (hext : slice (part.drop 4) p (p + total) = .ok extData) (hfound : parseExtensions extData 0 {} = .ok found) :
    found.sni = (lastName (extensionsAt part start total)).bind fromUtf8 := by
  obtain ⟨⟨-, hle⟩, hdata⟩ := slice_eq_ok.1 hext
  rw [List.drop_drop, hstart, Nat.add_sub_cancel_left] at hdata
  have hlength : extData.length = total := by
    rw [List.length_drop] at hle
    rw [← hdata, List.length_take, List.length_drop]
    omega
  rw [parseExtensions_eq, hlength, ← hdata] at hfound
  rw [← Except.ok.inj hfound, sni_foldl, Nat.sub_zero, List.drop_zero, lastName_take (Nat.le_refl _), extensionsAt]
  cases lastName (rawExtensions total (part.drop start)) with
  | none => rfl
  | some name => rfl

theorem lastName_part {handshake : List UInt8} {start total : ℕ} (hle : start + total ≤ n) :
    lastName (extensionsAt (handshake.take n) start total) = lastName (extensionsAt handshake start total) := by
  rw [extensionsAt, List.drop_take, lastName_take (by omega)]
  rfl

/-- **The reader of the fingerprint** returns the last server_name that lies within its extension. -/
theorem parsed_sni {data : List UInt8} {sni : Option (List Char)} :
    (∃ hello, parseClientHello data = .ok hello ∧ hello.sni = sni) ↔
      ∃ recordLen start total, IsHello data recordLen ∧ Block (data.drop 5) start total ∧ start + total ≤ recordLen ∧
        (lastName (extensionsAt (data.drop 5) start total)).bind fromUtf8 = sni := by
  have hpart (len : UInt16) (hs : List UInt8) : slice data 5 (5 + len.toNat) = .ok hs ↔
      5 + len.toNat ≤ data.length ∧ hs = (data.drop 5).take len.toNat := by
    rw [slice_eq_ok, Nat.add_sub_cancel_left, and_iff_right (Nat.le_add_right _ _)]
    exact and_congr_right fun _ => eq_comm
  unfold parseClientHello
  simp only [bind_eq_ok, require_eq_ok, slice_to_end, pure_eq_ok, hpart]
  constructor
  · rintro ⟨hello, ⟨_, -, type, htype, _, rfl, len, hlen, _, hrecord, _, ⟨-, rfl⟩, _, -, msg, hmsg, _, rfl, _, -, _,
      ⟨-, rfl⟩, _, -, version, -, _, -, sid, hsid, _, -, cs, hcs, _, -, suites, -, _, -, comp, hcomp, _, -, tot, htot,
      _, hend, extData, hext, found, hfound, rfl⟩, rfl⟩
    rw [byteAt_drop_eq] at hsid hcomp
    rw [u16At_drop_eq] at hcs htot
    rw [byteAt_take_eq_ok, byteAt_eq_ok, List.getElem?_drop] at hmsg
    have hblock : Block ((data.drop 5).take len.toNat) (44 + sid.toNat + cs.toNat + comp.toNat) tot.toNat := by
      refine ⟨sid, cs, comp, tot, hsid, ?_, ?_, ?_, rfl, rfl, ?_⟩
      · rwa [← Nat.add_assoc, ← Nat.add_assoc] at hcs
      · convert hcomp using 2
        omega
      · convert htot using 2
        omega
      · rw [List.length_drop] at hend
        omega
    obtain ⟨hblock', hle⟩ := (block_take (by rw [List.length_drop]; omega)).1 hblock
    refine ⟨len.toNat, _, _, ⟨byteAt_eq_ok.1 htype, ⟨len, hlen, rfl⟩, hrecord, hmsg.1⟩, hblock', hle, ?_⟩
    rw [← lastName_part hle]
    exact (sni_of_block (by omega) hext hfound).symm
  · rintro ⟨recordLen, start, total, hhello, hblock, hle, hsni⟩
    obtain ⟨len, hlen, rfl⟩ := hhello.record
    have hdata := hhello.record_le
    have hpartLength : ((data.drop 5).take len.toNat).length = len.toNat := by
      rw [List.length_take, List.length_drop]
      omega
    obtain ⟨sid, cs, comp, tot, hsid, hcs, hcomp, htot, rfl, rfl, -⟩ :=
      (block_take (by rw [List.length_drop]; omega)).2 ⟨hblock, hle⟩
    have hbody : (((data.drop 5).take len.toNat).drop 4).length = len.toNat - 4 := by
      rw [List.length_drop, hpartLength]
    obtain ⟨version, hversion⟩ : ∃ v, u16At (((data.drop 5).take len.toNat).drop 4) 0 = .ok v := by
      obtain ⟨a, b, hread, -⟩ := u16At_drop (((data.drop 5).take len.toNat).drop 4) 0 (by omega)
      exact ⟨_, hread⟩
    have hslice (p q : ℕ) (hpq : p ≤ q) (hq : q ≤ len.toNat - 4) :=
      slice_eq_ok.2 ⟨⟨hpq, hbody ▸ hq⟩, @rfl _ ((((data.drop 5).take len.toNat).drop 4).drop p |>.take (q - p))⟩
    obtain ⟨extData, hext⟩ : ∃ extData, slice (((data.drop 5).take len.toNat).drop 4)
        (34 + (1 + sid.toNat) + 2 + cs.toNat + (1 + comp.toNat) + 2)
        (34 + (1 + sid.toNat) + 2 + cs.toNat + (1 + comp.toNat) + 2 + tot.toNat) = .ok extData :=
      ⟨_, hslice _ _ (by omega) (by omega)⟩
    have hfound := parseExtensions_eq extData 0 {}
    refine ⟨_, ⟨(), by omega, _, byteAt_eq_ok.2 hhello.contentType, (), rfl, len, hlen, (), hdata, _, ⟨hdata, rfl⟩,
      (), ?_, 0x01, ?_, (), rfl, (), by omega, _, ⟨by omega, rfl⟩, (), by omega, version, hversion, (), by omega, sid,
      ?_, (), by omega, cs, ?_, (), by omega, _, hslice _ _ (by omega) (by omega), (), by omega, comp, ?_, (),
      by omega, tot, ?_, (), by omega, extData, hext, _, hfound, rfl⟩, ?_⟩
    · exact List.ne_nil_of_length_pos (by omega)
    · rw [byteAt_take_eq_ok, byteAt_eq_ok, List.getElem?_drop]
      exact ⟨hhello.msgType, by omega⟩
    · rwa [byteAt_drop_eq]
    · rwa [u16At_drop_eq, ← Nat.add_assoc, ← Nat.add_assoc]
    · rw [byteAt_drop_eq]
      convert hcomp using 2
      omega
    · rw [u16At_drop_eq]
      convert htot using 2
      omega
    · rw [← hsni, ← lastName_part hle]
      exact sni_of_block (by omega) hext hfound

/-! ## Both readers -/

theorem parsed_name {data : List UInt8} {name : List Char} :
    (∃ hello, parseClientHello data = .ok hello ∧ hello.sni = some name ∧ IsAscii name ∧ name ≠ []) ↔
      ∃ recordLen start total bs, IsHello data recordLen ∧ Block (data.drop 5) start total ∧ start + total ≤ recordLen ∧
        lastName (extensionsAt (data.drop 5) start total) = some bs ∧ asciiName bs = some name := by
  have hparsed := @parsed_sni data (some name)
  constructor
  · rintro ⟨hello, hparse, hname, hascii, hne⟩
    obtain ⟨recordLen, start, total, hhello, hblock, hle, hlast⟩ := hparsed.1 ⟨hello, hparse, hname⟩
    obtain ⟨bs, hbs, hread⟩ := Option.bind_eq_some_iff.1 hlast
    exact ⟨recordLen, start, total, bs, hhello, hblock, hle, hbs, asciiName_eq_some_iff.2 ⟨hread, hascii, hne⟩⟩
  · rintro ⟨recordLen, start, total, bs, hhello, hblock, hle, hbs, hname⟩
    obtain ⟨hread, hascii, hne⟩ := asciiName_eq_some_iff.1 hname
    obtain ⟨hello, hparse, hsni⟩ :=
      hparsed.2 ⟨recordLen, start, total, hhello, hblock, hle, Option.bind_eq_some_iff.2 ⟨bs, hbs, hread⟩⟩
    exact ⟨hello, hparse, hsni, hascii, hne⟩

/-- Where there is a last name there is a first server_name. -/
theorem exists_first {exts : List RawExtension} {name : List UInt8} (h : lastName exts = some name) :
    ∃ first, exts.find? (fun e => e.type = 0x0000) = some first := by
  obtain ⟨e, he, hname⟩ := List.mem_filterMap.1 (List.mem_of_getLast? h)
  refine Option.isSome_iff_exists.1 (List.find?_isSome.2 ⟨e, he, ?_⟩)
  rw [RawExtension.wholeName] at hname
  split_ifs at hname with hzero
  exact decide_eq_true hzero

/-- **The two readers agree on a packet** if and only if its names do. -/
theorem readers_agree_iff (data : List UInt8) :
    (∀ name, extractSni data = .ok name ↔
      ∃ hello, parseClientHello data = .ok hello ∧ hello.sni = some name ∧ IsAscii name ∧ name ≠ []) ↔
        NamesAgree data := by
  simp only [extractSni_eq_ok, parsed_name]
  constructor
  · intro hagree recordLen start total first hhello hblock hfirst
    constructor
    · intro bs hbs hhost
      obtain ⟨name, hname⟩ := isHost_iff.1 hhost
      obtain ⟨recordLen', start', total', bs', hhello', hblock', hle, hlast, hname'⟩ :=
        (hagree name).1 ⟨recordLen, start, total, first, bs, hhello, hblock, hfirst, hbs, hname⟩
      obtain rfl := hhello.unique hhello'
      obtain ⟨rfl, rfl⟩ := hblock.unique hblock'
      exact ⟨hle, asciiName_inj hname hname' ▸ hlast⟩
    · intro hnone hle bs hlast hhost
      obtain ⟨name, hname⟩ := isHost_iff.1 hhost
      obtain ⟨_, start', total', first', bs', -, hblock', hfirst', hbs', hname'⟩ :=
        (hagree name).2 ⟨recordLen, start, total, bs, hhello, hblock, hle, hlast, hname⟩
      obtain ⟨rfl, rfl⟩ := hblock.unique hblock'
      cases hfirst.symm.trans hfirst'
      exact hnone bs' hbs' (isHost_iff.2 ⟨name, hname'⟩)
  · intro hagree name
    constructor
    · rintro ⟨recordLen, start, total, first, bs, hhello, hblock, hfirst, hbs, hname⟩
      have hhost := isHost_iff.2 ⟨name, hname⟩
      obtain ⟨hle, hlast⟩ := (hagree recordLen start total first hhello hblock hfirst).1 bs hbs hhost
      exact ⟨recordLen, start, total, bs, hhello, hblock, hle, hlast, hname⟩
    · rintro ⟨recordLen, start, total, bs, hhello, hblock, hle, hlast, hname⟩
      obtain ⟨first, hfirst⟩ := exists_first hlast
      obtain ⟨hread, hunread⟩ := hagree recordLen start total first hhello hblock hfirst
      by_cases hhost : ∃ bs', hostBytes first.size first.rest = some bs' ∧ IsHost bs'
      · obtain ⟨bs', hbs', hhost⟩ := hhost
        cases hlast.symm.trans (hread bs' hbs' hhost).2
        exact ⟨recordLen, start, total, first, bs, hhello, hblock, hfirst, hbs', hname⟩
      · have hnot := hunread (fun bs' hbs' hhost' => hhost ⟨bs', hbs', hhost'⟩) hle bs hlast
        exact absurd (isHost_iff.2 ⟨name, hname⟩) hnot

/-- A hello with the server names `a` and `b`. -/
def twoNames : List UInt8 :=
  [0x16, 0x03, 0x01, 0x00, 0x40, 0x01, 0x00, 0x00, 0x3c, 0x03, 0x03] ++ List.replicate 32 0x00 ++
    [0x00, 0x00, 0x00, 0x00, 0x00, 0x14] ++ [0x00, 0x00, 0x00, 0x06, 0x00, 0x04, 0x00, 0x00, 0x01, 0x61] ++
      [0x00, 0x00, 0x00, 0x06, 0x00, 0x04, 0x00, 0x00, 0x01, 0x62]

theorem extensions_twoNames : extensionsAt (twoNames.drop 5) 44 20 =
    [⟨0x0000, 6, (twoNames.drop 53)⟩, ⟨0x0000, 6, (twoNames.drop 63)⟩] := by
  simp [extensionsAt, twoNames, List.replicate, rawExtensions, ofBe]

/-- The blocklist sees `a`, the fingerprint `b`. -/
theorem two_names_disagree : ¬ ∀ data name, extractSni data = .ok name ↔
    ∃ hello, parseClientHello data = .ok hello ∧ hello.sni = some name ∧ IsAscii name ∧ name ≠ [] := by
  intro hagree
  have hhello : IsHello twoNames 64 := ⟨rfl, ⟨64, rfl, rfl⟩, by decide, rfl⟩
  have hblock : Block (twoNames.drop 5) 44 20 := ⟨0, 0, 0, 20, rfl, rfl, rfl, rfl, rfl, rfl, by decide⟩
  have hblocklist : extractSni twoNames = .ok ['a'] := by
    refine extractSni_eq_ok.2 ⟨64, 44, 20, _, [0x61], hhello, hblock, by rw [extensions_twoNames]; rfl, rfl, ?_⟩
    exact asciiName_eq_some_iff.2 ⟨fromUtf8_eq_some_iff.2 rfl, by decide, by decide⟩
  obtain ⟨recordLen, start, total, bs, -, hblock', -, hlast, hname⟩ :=
    parsed_name.1 ((hagree twoNames ['a']).1 hblocklist)
  obtain ⟨rfl, rfl⟩ := hblock.unique hblock'
  have hbs : bs = [0x61] := (fromUtf8_eq_some_iff.1 (asciiName_eq_some_iff.1 hname).1).symm
  rw [extensions_twoNames, hbs] at hlast
  exact absurd hlast (by decide)

end ThorFirewall.Fingerprint
