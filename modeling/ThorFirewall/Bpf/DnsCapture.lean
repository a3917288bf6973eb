import Mathlib
import ThorFirewall.Bpf.DnsMonitor

/-!
# DNS queries on the wire

A query over UDP in a frame of IPv4, with options or without, or of IPv6 behind a chain of extension headers, and its
encoding.

- `parseDnsLabels_wire`: what the program reads of a name is its first ten labels, with dots between them;
- `walkExtHeaders_chain`: the walk leaves a chain of eight headers behind, and stops in a longer one;
- `dissect_encode`: the program finds a query, with all its fields, exactly if there are no more than eight headers;
- `host_name_not_dga`: a query for a host name is never reported as one for a generated name.
-/

namespace ThorFirewall.DnsMonitor

open ByteReader

/-! ## Names -/

/-- A name: labels of 1 to 63 bytes, in no more than 255 bytes on the wire. -/
structure DnsName where
  labels : List (List UInt8)
  label_length : ∀ label ∈ labels, 1 ≤ label.length ∧ label.length ≤ 63
  wire_length : (labels.map fun label => label.length + 1).sum + 1 ≤ 255

/-- Labels, each behind its length. -/
def labelBytes (labels : List (List UInt8)) : List UInt8 :=
  labels.flatMap fun label => UInt8.ofNat label.length :: label

/-- Labels with dots between them. -/
def dotted (labels : List (List UInt8)) : List UInt8 := [46].intercalate labels

namespace DnsName

def wire (name : DnsName) : List UInt8 := labelBytes name.labels ++ [0]

/-- The labels that the program reads. -/
def read (name : DnsName) : Labels where
  query := dotted (name.labels.take maxLabels)
  labelCount := (name.labels.take maxLabels).length
  maxEntropy := (name.labels.take maxLabels).any isHighEntropy
  suspicious := false

end DnsName

theorem dotted_cons (label : List UInt8) (labels : List (List UInt8)) :
    dotted (label :: labels) = label ++ labels.flatMap (46 :: ·) := by
  induction labels generalizing label with
  | nil => rw [dotted, List.intercalate_singleton, List.flatMap_nil, List.append_nil]
  | cons next labels ih =>
    rw [dotted, List.intercalate_cons_cons, ← dotted, ih, List.flatMap_cons, List.append_assoc]
    rfl

/-- Labels behind the first one, when there is room for all of them. -/
theorem foldl_add (labels : List (List UInt8)) {l : Labels} (hl : 0 < l.query.length)
    (hroom : l.query.length + (labels.map fun label => label.length + 1).sum < maxDnsName) :
    labels.foldl Labels.add l = ⟨l.query ++ labels.flatMap (46 :: ·), l.labelCount + labels.length,
      l.maxEntropy || labels.any isHighEntropy, l.suspicious⟩ := by
  induction labels generalizing l with
  | nil => simp
  | cons label labels ih =>
    rw [List.map_cons, List.sum_cons] at hroom
    have hadd : l.add label = ⟨l.query ++ [46] ++ label, l.labelCount + 1, l.maxEntropy || isHighEntropy label,
        l.suspicious⟩ := by
      unfold Labels.add
      rw [if_pos (by omega), if_pos hl]
    rw [List.foldl_cons, hadd, ih]
    · simp [Bool.or_assoc, Nat.add_assoc, Nat.add_comm 1]
    · simp
    · simp only [List.length_append, List.length_singleton]
      omega

namespace DnsName

variable (name : DnsName)

theorem foldl_read : (name.labels.take maxLabels).foldl Labels.add .empty = name.read := by
  have hsum : ((name.labels.take maxLabels).map fun label => label.length + 1).sum ≤
      (name.labels.map fun label => label.length + 1).sum := by
    rw [List.map_take]
    exact ((List.take_sublist _ _).sum_le_sum fun _ _ => Nat.zero_le _)
  have hwire := name.wire_length
  unfold read
  cases hlabels : name.labels.take maxLabels with
  | nil => rfl
  | cons label labels =>
    have hlabel := name.label_length label (List.mem_of_mem_take (hlabels ▸ List.mem_cons_self))
    rw [hlabels, List.map_cons, List.sum_cons] at hsum
    have hadd : Labels.empty.add label = ⟨label, 1, isHighEntropy label, false⟩ := by
      unfold Labels.add Labels.empty
      rw [if_pos (by simp only [List.length_nil, maxDnsName]; omega)]
      rfl
    rw [List.foldl_cons, hadd, foldl_add labels (by dsimp only; omega) (by simp only [maxDnsName]; omega), dotted_cons]
    simp [Nat.add_comm 1]

end DnsName

/-- The program reads the first labels of a name. -/
theorem parseDnsLabels_labelBytes {data : List UInt8} (labels : List (List UInt8))
    (hlabels : ∀ label ∈ labels, 1 ≤ label.length ∧ label.length ≤ 63) (n : ℕ) {pos : ℕ} (l : Labels)
    (h : At data pos (labelBytes labels ++ [0])) :
    parseDnsLabels data n pos l = .ok ((labels.take n).foldl Labels.add l) := by
  induction n generalizing labels pos l with
  | zero => rfl
  | succ n ih =>
    have hlength := h.le_length
    unfold parseDnsLabels
    cases labels with
    | nil =>
      rw [if_neg (by simp [labelBytes] at hlength; omega), byteAt_of_at h]
      rfl
    | cons label labels =>
      obtain ⟨hlabel, hrest⟩ := List.forall_mem_cons.1 hlabels
      have htoNat : (UInt8.ofNat label.length).toNat = label.length := UInt8.toNat_ofNat_of_lt (show label.length < 256 by omega)
      have hzero : UInt8.ofNat label.length ≠ 0 := fun h0 => by
        have hnil : label.length = 0 := htoNat.symm.trans (congrArg UInt8.toNat h0)
        omega
      have hlong : ¬ (63 : UInt8) < UInt8.ofNat label.length := by
        rw [UInt8.lt_iff_toNat_lt, htoNat]
        show ¬ 63 < label.length
        omega
      rw [labelBytes, List.flatMap_cons, ← labelBytes, List.cons_append, List.cons_append, List.append_assoc] at h hlength
      obtain ⟨hlen, hbody⟩ := at_cons.1 h
      obtain ⟨hbody, hnext⟩ := at_append.1 hbody
      simp only [List.length_cons, List.length_append] at hlength
      rw [if_neg (by omega), byteAt_of_at hlen]
      simp only [bind, Except.bind]
      rw [if_neg hzero, if_neg hlong, htoNat, if_neg (by omega), slice_of_at hbody]
      exact ih labels hrest _ hnext

/-- **What the program reads of a name** is its first ten labels. -/
theorem parseDnsLabels_wire {data : List UInt8} (name : DnsName) {pos : ℕ} (h : At data pos name.wire) :
    parseDnsLabels data maxLabels pos .empty = .ok name.read := by
  rw [parseDnsLabels_labelBytes name.labels name.label_length maxLabels .empty h, name.foldl_read]

/-! ## Extension headers -/

/-- An extension header of IPv6: with options or a route, of a fragment, or with an authentication. -/
inductive ExtHeader
  | options (type : {t : UInt8 // isOptionsHeader t = true}) (len : UInt8)
    (body : {b : List UInt8 // b.length = (len.toNat + 1) * 8 - 2})
  | fragment (body : {b : List UInt8 // b.length = 7})
  | authentication (len : UInt8) (body : {b : List UInt8 // b.length = (len.toNat + 2) * 4 - 2})

namespace ExtHeader

def type : ExtHeader → UInt8
  | options type _ _ => type.1
  | fragment _ => 44
  | authentication _ _ => 51

/-- A header in front of one of the type `next`. -/
def bytes (next : UInt8) : ExtHeader → List UInt8
  | options _ len body => next :: len :: body.1
  | fragment body => next :: body.1
  | authentication len body => next :: len :: body.1

theorem type_ne_udp (e : ExtHeader) : e.type ≠ 17 := by
  cases e with
  | options type len body => exact fun h => absurd (h ▸ type.2 : isOptionsHeader 17 = true) (by decide)
  | fragment body => exact (by decide : (44 : UInt8) ≠ 17)
  | authentication len body => exact (by decide : (51 : UInt8) ≠ 17)

end ExtHeader

/-- The type of the first header of a chain in front of UDP. -/
def nextType : List ExtHeader → UInt8
  | [] => 17
  | e :: _ => e.type

def chainBytes : List ExtHeader → List UInt8
  | [] => []
  | e :: es => e.bytes (nextType es) ++ chainBytes es

theorem nextType_eq_udp_iff (es : List ExtHeader) : nextType es = 17 ↔ es = [] := by
  cases es with
  | nil => exact iff_of_true rfl rfl
  | cons e es => exact iff_of_false e.type_ne_udp (List.cons_ne_nil _ _)

/-- The walk reads one header and goes on behind it. -/
theorem walkExtHeaders_succ {data : List UInt8} (n : ℕ) (e : ExtHeader) (next : UInt8) {pos : ℕ}
    (h : At data pos (e.bytes next)) :
    walkExtHeaders data (n + 1) e.type pos = walkExtHeaders data n next (pos + (e.bytes next).length) := by
  have hlength := h.le_length
  cases e with
  | options type len body =>
    obtain ⟨hnext, hlen⟩ := at_cons.1 h
    simp only [ExtHeader.bytes, List.length_cons, body.2] at hlength ⊢
    have hend : pos + ((len.toNat + 1) * 8 - 2 + 1 + 1) = pos + (len.toNat + 1) * 8 := by omega
    rw [walkExtHeaders, ExtHeader.type, if_pos type.2, require_of (by omega), byteAt_of_at hnext, byteAt_of_at hlen]
    simp only [bind, Except.bind]
    rw [require_of (by omega), hend]
  | fragment body =>
    obtain ⟨hnext, -⟩ := at_cons.1 h
    simp only [ExtHeader.bytes, List.length_cons, body.2] at hlength ⊢
    rw [walkExtHeaders, ExtHeader.type, if_neg (by decide), if_pos rfl, require_of (by omega), byteAt_of_at hnext]
    rfl
  | authentication len body =>
    obtain ⟨hnext, hlen⟩ := at_cons.1 h
    simp only [ExtHeader.bytes, List.length_cons, body.2] at hlength ⊢
    have hend : pos + ((len.toNat + 2) * 4 - 2 + 1 + 1) = pos + (len.toNat + 2) * 4 := by omega
    rw [walkExtHeaders, ExtHeader.type, if_neg (by decide), if_neg (by decide), if_pos rfl, require_of (by omega),
      byteAt_of_at hnext, byteAt_of_at hlen]
    simp only [bind, Except.bind]
    rw [require_of (by omega), hend]

/-- **The walk** leaves as many headers of a chain behind as it may. -/
theorem walkExtHeaders_chain {data : List UInt8} (es : List ExtHeader) (n : ℕ) {pos : ℕ}
    (h : At data pos (chainBytes es)) :
    ∃ cursor, walkExtHeaders data n (nextType es) pos = .ok (nextType (es.drop n), cursor) ∧
      (es.length ≤ n → cursor = pos + (chainBytes es).length) := by
  induction n generalizing es pos with
  | zero =>
    refine ⟨pos, rfl, fun hle => ?_⟩
    rw [List.length_eq_zero_iff.1 (Nat.le_zero.1 hle)]
    rfl
  | succ n ih =>
    cases es with
    | nil => exact ⟨pos, rfl, fun _ => rfl⟩
    | cons e es =>
      obtain ⟨he, hes⟩ := at_append.1 h
      obtain ⟨cursor, hwalk, hcursor⟩ := ih es hes
      refine ⟨cursor, (walkExtHeaders_succ n e _ he).trans hwalk, fun hle => ?_⟩
      rw [hcursor (Nat.le_of_succ_le_succ hle), chainBytes, List.length_append, Nat.add_assoc]

/-! ## Frames -/

/-- A query in a UDP datagram, from port 53 or to it. -/
structure DnsQuery where
  srcPort : UInt16
  dstPort : UInt16
  port_dns : dstPort = 53 ∨ srcPort = 53
  lengthAndChecksum : {b : List UInt8 // b.length = 4}
  id : {b : List UInt8 // b.length = 2}
  flags : UInt16
  is_query : flags &&& 0x8000 = 0
  qdcount : UInt16
  qdcount_ne : qdcount ≠ 0
  counts : {b : List UInt8 // b.length = 6}
  name : DnsName
  rest : List UInt8

def DnsQuery.wire (q : DnsQuery) : List UInt8 :=
  beBytes 2 q.srcPort.toNat ++ (beBytes 2 q.dstPort.toNat ++ (q.lengthAndChecksum.1 ++ (q.id.1 ++
    (beBytes 2 q.flags.toNat ++ (beBytes 2 q.qdcount.toNat ++ (q.counts.1 ++ (q.name.wire ++ q.rest)))))))

theorem udpQuery_wire {data : List UInt8} (q : DnsQuery) {pos : ℕ} (h : At data pos q.wire) :
    udpQuery data pos = .ok (q.srcPort, q.dstPort, q.name.read) := by
  have hlength := h.le_length
  simp only [DnsQuery.wire, List.length_append, length_beBytes, q.lengthAndChecksum.2, q.id.2, q.counts.2] at hlength
  obtain ⟨hsrc, h⟩ := at_append.1 h
  obtain ⟨hdst, h⟩ := at_append.1 h
  obtain ⟨-, h⟩ := at_append.1 h
  obtain ⟨-, h⟩ := at_append.1 h
  obtain ⟨hflags, h⟩ := at_append.1 h
  obtain ⟨hqdcount, h⟩ := at_append.1 h
  obtain ⟨-, h⟩ := at_append.1 h
  obtain ⟨hname, -⟩ := at_append.1 h
  simp only [length_beBytes, q.lengthAndChecksum.2, q.id.2, q.counts.2] at hdst hflags hqdcount hname
  have hu16 {x : UInt16} {p p' : ℕ} (hx : At data p (beBytes 2 x.toNat)) (hp : p = p') : u16At data p' = .ok x := by
    rw [u16At_of_at x.toNat_lt (hx.congr hp), UInt16.ofNat_toNat]
  unfold udpQuery
  rw [require_of (by omega), hu16 hdst rfl, hu16 hsrc rfl]
  simp only [bind, Except.bind]
  rw [require_of q.port_dns, require_of (by omega), hu16 hflags (by omega), hu16 hqdcount (by omega)]
  dsimp only
  rw [require_of ⟨q.is_query, q.qdcount_ne⟩, parseDnsLabels_wire q.name (hname.congr (by omega))]
  rfl

/-- The Ethernet and IP headers in front of a datagram. -/
inductive Headers
  | inet4 (macs : {b : List UInt8 // b.length = 12}) (words : Fin 11) (service : {b : List UInt8 // b.length = 8})
    (checksum : {b : List UInt8 // b.length = 2}) (src dst : {b : List UInt8 // b.length = 4})
    (options : {b : List UInt8 // b.length = 4 * words})
  | inet6 (macs : {b : List UInt8 // b.length = 12}) (flow : {b : List UInt8 // b.length = 6}) (hopLimit : UInt8)
    (src dst : {b : List UInt8 // b.length = 16}) (chain : List ExtHeader)

namespace Headers

def encode : Headers → DnsQuery → List UInt8
  | inet4 macs words service checksum src dst options, q =>
    macs.1 ++ (0x08 :: 0x00 :: UInt8.ofNat (69 + words) :: (service.1 ++ (17 :: (checksum.1 ++ (src.1 ++ (dst.1 ++
      (options.1 ++ q.wire)))))))
  | inet6 macs flow hopLimit src dst chain, q =>
    macs.1 ++ (0x86 :: 0xDD :: (flow.1 ++ (nextType chain :: hopLimit :: (src.1 ++ (dst.1 ++
      (chainBytes chain ++ q.wire))))))

/-- The number of extension headers. -/
def extHeaders : Headers → ℕ
  | inet4 .. => 0
  | inet6 _ _ _ _ _ chain => chain.length

/-- What there is to find. -/
def found : Headers → DnsQuery → Query
  | inet4 _ _ _ _ src dst _, q => ⟨.inet4, src.1, dst.1, q.srcPort, q.dstPort, q.name.read⟩
  | inet6 _ _ _ src dst _, q => ⟨.inet6, src.1, dst.1, q.srcPort, q.dstPort, q.name.read⟩

end Headers

theorem dissect_encode4 (macs : {b : List UInt8 // b.length = 12}) (words : Fin 11)
    (service : {b : List UInt8 // b.length = 8}) (checksum : {b : List UInt8 // b.length = 2})
    (src dst : {b : List UInt8 // b.length = 4}) (options : {b : List UInt8 // b.length = 4 * words}) (q : DnsQuery) :
    dissect ((Headers.inet4 macs words service checksum src dst options).encode q) =
      .ok ⟨.inet4, src.1, dst.1, q.srcPort, q.dstPort, q.name.read⟩ := by
  generalize hdata : (Headers.inet4 macs words service checksum src dst options).encode q = data
  have h : At data 0 (macs.1 ++ (beBytes 2 0x0800 ++ (UInt8.ofNat (69 + words) :: (service.1 ++ (17 :: (checksum.1 ++
      (src.1 ++ (dst.1 ++ (options.1 ++ q.wire))))))))) := hdata ▸ at_self _
  have hlength := h.le_length
  simp only [List.length_append, List.length_cons, length_beBytes, macs.2, service.2, checksum.2, src.2, dst.2,
    options.2] at hlength
  obtain ⟨-, h⟩ := at_append.1 h
  obtain ⟨htype, h⟩ := at_append.1 h
  obtain ⟨hihl, h⟩ := at_cons.1 h
  obtain ⟨-, h⟩ := at_append.1 h
  obtain ⟨hprotocol, h⟩ := at_cons.1 h
  obtain ⟨-, h⟩ := at_append.1 h
  obtain ⟨hsrc, h⟩ := at_append.1 h
  obtain ⟨hdst, h⟩ := at_append.1 h
  obtain ⟨-, hudp⟩ := at_append.1 h
  simp only [length_beBytes, macs.2, service.2, checksum.2, src.2, dst.2, options.2] at htype hihl hprotocol hsrc hdst hudp
  have hwords := words.isLt
  have hihlNat : (UInt8.ofNat (69 + words.val)).toNat = 69 + words.val :=
    UInt8.toNat_ofNat_of_lt (show 69 + words.val < 256 by omega)
  unfold dissect
  rw [require_of (by omega), u16At_of_at (by decide) htype]
  simp only [bind, Except.bind]
  rw [if_pos (by decide)]
  unfold dissect4
  rw [require_of (by omega), byteAt_of_at hprotocol]
  simp only [bind, Except.bind]
  rw [require_of trivial, byteAt_of_at hihl]
  dsimp only
  rw [hihlNat, udpQuery_wire q (hudp.congr (by omega)), slice_eq_of_at hsrc rfl (by rw [src.2])]
  dsimp only
  rw [slice_eq_of_at hdst rfl (by rw [dst.2])]
  rfl

theorem dissect_encode6 (macs : {b : List UInt8 // b.length = 12}) (flow : {b : List UInt8 // b.length = 6})
    (hopLimit : UInt8) (src dst : {b : List UInt8 // b.length = 16}) (chain : List ExtHeader) (q : DnsQuery) :
    dissect ((Headers.inet6 macs flow hopLimit src dst chain).encode q) =
      if chain.length ≤ maxExtHeaders then .ok ⟨.inet6, src.1, dst.1, q.srcPort, q.dstPort, q.name.read⟩
      else .error .rejected := by
  generalize hdata : (Headers.inet6 macs flow hopLimit src dst chain).encode q = data
  have h : At data 0 (macs.1 ++ (beBytes 2 0x86DD ++ (flow.1 ++ (nextType chain :: hopLimit :: (src.1 ++ (dst.1 ++
      (chainBytes chain ++ q.wire))))))) := hdata ▸ at_self _
  have hlength := h.le_length
  simp only [List.length_append, List.length_cons, length_beBytes, macs.2, flow.2, src.2, dst.2] at hlength
  obtain ⟨-, h⟩ := at_append.1 h
  obtain ⟨htype, h⟩ := at_append.1 h
  obtain ⟨-, h⟩ := at_append.1 h
  obtain ⟨hnext, h⟩ := at_cons.1 h
  obtain ⟨-, h⟩ := at_cons.1 h
  obtain ⟨hsrc, h⟩ := at_append.1 h
  obtain ⟨hdst, h⟩ := at_append.1 h
  obtain ⟨hchain, hudp⟩ := at_append.1 h
  simp only [length_beBytes, macs.2, flow.2, src.2, dst.2] at htype hnext hsrc hdst hchain hudp
  obtain ⟨cursor, hwalk, hcursor⟩ := walkExtHeaders_chain chain maxExtHeaders hchain
  unfold dissect
  rw [require_of (by omega), u16At_of_at (by decide) htype]
  simp only [bind, Except.bind]
  rw [if_neg (by decide), if_pos (by decide)]
  unfold dissect6
  rw [require_of (by omega), byteAt_of_at hnext]
  simp only [bind, Except.bind]
  rw [hwalk]
  dsimp only
  by_cases hle : chain.length ≤ maxExtHeaders
  · rw [if_pos hle, require_of ((nextType_eq_udp_iff _).2 (List.drop_eq_nil_of_le hle)), hcursor hle, udpQuery_wire q hudp,
      slice_eq_of_at hsrc rfl (by rw [src.2])]
    dsimp only
    rw [slice_eq_of_at hdst rfl (by rw [dst.2])]
    rfl
  · have hdrop : chain.drop maxExtHeaders ≠ [] := fun hnil => hle (List.drop_eq_nil_iff.1 hnil)
    rw [if_neg hle, require, if_neg (mt (nextType_eq_udp_iff _).1 hdrop)]

/-- **The program finds a query**, with all its fields, exactly if it is behind no more than eight extension headers. -/
theorem dissect_encode (hs : Headers) (q : DnsQuery) : dissect (hs.encode q) =
    if hs.extHeaders ≤ maxExtHeaders then .ok (hs.found q) else .error .rejected := by
  cases hs with
  | inet4 macs words service checksum src dst options =>
    exact (dissect_encode4 macs words service checksum src dst options q).trans (if_pos (Nat.zero_le maxExtHeaders)).symm
  | inet6 macs flow hopLimit src dst chain => exact dissect_encode6 macs flow hopLimit src dst chain q

/-- The name that the program finds is that of the query. -/
theorem labels_of_encode {hs : Headers} {q : DnsQuery} {found : Query}
    (h : (dissect (hs.encode q)).toOption = some found) : found.labels = q.name.read := by
  cases hs with
  | inet4 macs words service checksum src dst options =>
    rw [dissect_encode4] at h
    obtain rfl := Option.some.inj h
    rfl
  | inet6 macs flow hopLimit src dst chain =>
    rw [dissect_encode6] at h
    split_ifs at h
    · obtain rfl := Option.some.inj h
      rfl
    · cases h

/-! ## Host names -/

/-- A letter, a digit, a hyphen or an underscore. -/
def isHostByte (b : UInt8) : Bool := 65 ≤ b && b ≤ 90 || 97 ≤ b && b ≤ 122 || 48 ≤ b && b ≤ 57 || b = 45 || b = 95

def DnsName.IsHost (name : DnsName) : Prop := ∀ label ∈ name.labels, ∀ b ∈ label, isHostByte b = true

/-- Of the bytes below 64, a host name has only the digits and the hyphen. -/
theorem low_hostByte {b : UInt8} (hb : isHostByte b = true) (hlow : b < 64) : b.toNat ∈ Finset.Icc 45 57 := by
  have hlt : b.toNat < 64 := UInt8.lt_iff_toNat_lt.1 hlow
  simp only [isHostByte, Bool.or_eq_true, Bool.and_eq_true, decide_eq_true_iff, UInt8.le_iff_toNat_le,
    ← UInt8.toNat_inj, UInt8.reduceToNat] at hb
  rw [Finset.mem_Icc]
  omega

theorem not_isHighEntropy {label : List UInt8} (h : ∀ b ∈ label, isHostByte b = true) : isHighEntropy label = false := by
  rw [← Bool.not_eq_true, isHighEntropy_iff, Nat.not_lt,
    ← Finset.card_image_of_injective _ fun _ _ => UInt8.toNat_inj.1]
  refine (Finset.card_le_card (Finset.image_subset_iff.2 fun b hb => ?_)).trans
    (show (Finset.Icc 45 57).card ≤ 20 by decide)
  obtain ⟨hmem, hlow⟩ := Finset.mem_filter.1 hb
  exact low_hostByte (h b (List.mem_of_mem_take (List.mem_toFinset.1 hmem))) hlow

/-- **A query for a host name is never reported as one for a generated name**, whatever came before. -/
theorem host_name_not_dga (is : List Input) (hs : Headers) (q : DnsQuery) (hname : q.name.IsHost) (now : UInt64)
    (room : Bool) :
    ¬ ∃ ev ∈ (dnsMonitor (Mealy.after step .empty is) (hs.encode q) now room).2, ev.eventType = .dga := by
  have hentropy : q.name.read.maxEntropy = false :=
    List.any_eq_false.2 fun label hlabel =>
      Bool.not_eq_true _ ▸ not_isHighEntropy (hname label (List.mem_of_mem_take hlabel))
  have hclassify (n : ℕ) : classify q.name.read n ≠ .dga := by
    simp only [classify, hentropy, Bool.false_eq_true, if_false]
    split_ifs <;> decide
  rintro ⟨ev, hev, hdga⟩
  cases room with
  | false =>
    unfold dnsMonitor at hev
    cases hd : dissect (hs.encode q) <;> rw [hd] at hev <;> cases hev
  | true =>
    rw [dnsMonitor_run, Option.mem_def, Option.map_eq_some_iff] at hev
    obtain ⟨found, hfound, rfl⟩ := hev
    rw [eventOf_eq, labels_of_encode hfound] at hdga
    exact hclassify _ hdga

/-- The letters, a hyphen and the digits. -/
def exampleLabel : List UInt8 :=
  [97, 98, 99, 100, 101, 102, 103, 104, 105, 106, 107, 108, 109, 110, 111, 112, 113, 114, 115, 116, 117, 118, 119, 120,
    121, 122, 45, 48, 49, 50, 51, 52, 53, 54, 55, 56, 57]

/-- A query for this label in `com`, over IPv6 with a fragment header. -/
def exampleQuery : DnsQuery where
  srcPort := 5353
  dstPort := 53
  port_dns := .inl rfl
  lengthAndChecksum := ⟨[0, 67, 0, 0], rfl⟩
  id := ⟨[18, 52], rfl⟩
  flags := 0x0100
  is_query := by decide
  qdcount := 1
  qdcount_ne := by decide
  counts := ⟨[0, 0, 0, 0, 0, 0], rfl⟩
  name := { labels := [exampleLabel, [99, 111, 109]], label_length := by decide, wire_length := by decide }
  rest := [0, 1, 0, 1]

def exampleHeaders : Headers := .inet6 ⟨List.replicate 12 0, rfl⟩ ⟨[96, 0, 0, 0, 0, 75], rfl⟩ 64
  ⟨List.replicate 16 1, rfl⟩ ⟨List.replicate 16 2, rfl⟩ [.fragment ⟨List.replicate 7 0, rfl⟩]

theorem exampleQuery_host : exampleQuery.name.IsHost :=
  List.forall_mem_cons.2 ⟨List.all_eq_true.1 rfl, List.forall_mem_singleton.2 (List.all_eq_true.1 rfl)⟩

theorem example_not_dga :
    ¬ ∃ ev ∈ (dnsMonitor (Mealy.after step .empty []) (exampleHeaders.encode exampleQuery) 7 true).2,
      ev.eventType = .dga :=
  host_name_not_dga [] exampleHeaders exampleQuery exampleQuery_host 7 true

end ThorFirewall.DnsMonitor
