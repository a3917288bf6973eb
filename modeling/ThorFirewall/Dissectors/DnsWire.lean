import Mathlib
import ThorFirewall.Dissectors.Dns

/-!
# DNS messages on the wire

A message in the format of RFC 1035: `Encodes m data` says that `data` are the bytes of `m`, where each name is written
out up to its end or up to a pointer to an earlier place at which the rest of it stands. `parse_encoded`: the dissector
returns the message.
-/

namespace ThorFirewall.Dissectors

open ByteReader Utf8 Text

/-! ## Messages -/

/-- Labels of 1 to 63 bytes, without points. -/
structure DnsName where
  labels : List (List Char)
  valid : ∀ l ∈ labels, 0 < (bytes l).length ∧ (bytes l).length < 64 ∧ '.' ∉ l

/-- The labels, joined by points. -/
def DnsName.text (n : DnsName) : List Char := ['.'].intercalate n.labels

structure Question where
  name : DnsName
  qtype : UInt16
  qclass : UInt16

/-- The data of a record with their type. -/
inductive RecordData
  | a (ip : {ip : List UInt8 // ip.length = 4})
  | aaaa (ip : {ip : List UInt8 // ip.length = 16})
  | cname (name : DnsName)
  | ns (name : DnsName)
  | ptr (name : DnsName)
  | mx (priority : UInt16) (exchange : DnsName)
  | txt (parts : List {s : List Char // (bytes s).length < 256})
  | other (rtype : {t : UInt16 // t ∉ [1, 28, 5, 15, 16, 2, 12]}) (opaqueBytes : List UInt8)

def RecordData.rtype : RecordData → UInt16
  | a _ => 1
  | aaaa _ => 28
  | cname _ => 5
  | ns _ => 2
  | ptr _ => 12
  | mx _ _ => 15
  | txt _ => 16
  | other rtype _ => rtype.1

structure ResourceRecord where
  name : DnsName
  rclass : UInt16
  ttl : UInt32
  data : RecordData

structure DnsMessage where
  id : UInt16
  flags : UInt16
  questions : List Question
  answers : List ResourceRecord
  authority : List ResourceRecord
  additional : List ResourceRecord

/-! ## What the dissector has to say about a message -/

def Question.question (q : Question) : DnsQuestion := ⟨q.name.text, q.qtype, q.qclass⟩

def RecordData.rdata : RecordData → DnsRdata
  | a ip => .a ip
  | aaaa ip => .aaaa ip
  | cname name => .cname name.text
  | ns name => .ns name.text
  | ptr name => .ptr name.text
  | mx priority exchange => .mx priority exchange.text
  | txt parts => .txt (parts.map Subtype.val)
  | other _ opaqueBytes => .unknown opaqueBytes

def ResourceRecord.record (r : ResourceRecord) : DnsRecord :=
  ⟨r.name.text, r.data.rtype, r.rclass, r.ttl, r.data.rdata⟩

/-- The fields of the flags are those of the header. -/
def DnsMessage.packet (m : DnsMessage) : DnsPacket where
  transactionId := m.id
  flags := m.flags
  isResponse := m.flags.toNat.testBit 15
  opcode := UInt8.ofNat (m.flags.toNat / 2 ^ 11 % 16)
  rcode := UInt8.ofNat (m.flags.toNat % 16)
  questions := m.questions.map Question.question
  answers := m.answers.map ResourceRecord.record
  authority := m.authority.map ResourceRecord.record
  additional := m.additional.map ResourceRecord.record

/-! ## Bytes of a message -/

variable (data : List UInt8)

/-- Labels stand at `pos`: up to `next`, and behind that number of pointers. -/
inductive LabelsAt : ℕ → List (List Char) → ℕ → ℕ → Prop
  | root {pos : ℕ} (h : At data pos [0]) : LabelsAt pos [] (pos + 1) 0
  | label {pos : ℕ} {l : List Char} {labels : List (List Char)} {next hops : ℕ}
      (h : At data pos (UInt8.ofNat (bytes l).length :: bytes l))
      (rest : LabelsAt (pos + 1 + (bytes l).length) labels next hops) : LabelsAt pos (l :: labels) next hops
  | pointer {pos target : ℕ} {labels : List (List Char)} {next hops : ℕ}
      (h : At data pos (beBytes 2 (0xc000 + target))) (earlier : target < pos) (hlt : target < 2 ^ 14)
      (rest : LabelsAt target labels next hops) : LabelsAt pos labels (pos + 2) (hops + 1)

/-- A name stands at `pos`, in ten hops at most. -/
def NameAt (pos : ℕ) (n : DnsName) (next : ℕ) : Prop := ∃ hops ≤ 10, LabelsAt data pos n.labels next hops

def QuestionAt (pos : ℕ) (q : Question) (next : ℕ) : Prop :=
  ∃ p, NameAt data pos q.name p ∧ At data p (beBytes 2 q.qtype.toNat ++ beBytes 2 q.qclass.toNat) ∧ next = p + 4

/-- The data of a record stand between two positions. -/
def DataAt (pos : ℕ) (d : RecordData) (next : ℕ) : Prop :=
  match d with
  | .a ip => At data pos ip.1 ∧ next = pos + 4
  | .aaaa ip => At data pos ip.1 ∧ next = pos + 16
  | .cname name => NameAt data pos name next
  | .ns name => NameAt data pos name next
  | .ptr name => NameAt data pos name next
  | .mx priority exchange => At data pos (beBytes 2 priority.toNat) ∧ NameAt data (pos + 2) exchange next
  | .txt parts =>
    let texts := parts.flatMap fun s => UInt8.ofNat (bytes s.1).length :: bytes s.1
    At data pos texts ∧ next = pos + texts.length
  | .other _ opaqueBytes => At data pos opaqueBytes ∧ next = pos + opaqueBytes.length

/-- A record: its name, its type, class and time to live, and its data behind their length. -/
def RecordAt (pos : ℕ) (r : ResourceRecord) (next : ℕ) : Prop :=
  ∃ p rdlen, NameAt data pos r.name p ∧ rdlen < 2 ^ 16 ∧
    At data p (beBytes 2 r.data.rtype.toNat ++ beBytes 2 r.rclass.toNat ++ beBytes 4 r.ttl.toNat ++ beBytes 2 rdlen) ∧
    DataAt data (p + 10) r.data next ∧ next = p + 10 + rdlen

/-- One item behind the other. -/
def Sequence {α : Type} (Stands : ℕ → α → ℕ → Prop) : ℕ → List α → ℕ → Prop
  | pos, [], next => next = pos
  | pos, a :: as, next => ∃ p, Stands pos a p ∧ Sequence Stands p as next

/-- **The bytes of a message**: its header and its four sections, and nothing behind them. -/
def Encodes (m : DnsMessage) : Prop :=
  m.questions.length < 2 ^ 16 ∧ m.answers.length < 2 ^ 16 ∧ m.authority.length < 2 ^ 16 ∧
    m.additional.length < 2 ^ 16 ∧
    At data 0 (beBytes 2 m.id.toNat ++ beBytes 2 m.flags.toNat ++ beBytes 2 m.questions.length ++
      beBytes 2 m.answers.length ++ beBytes 2 m.authority.length ++ beBytes 2 m.additional.length) ∧
    ∃ p q r, Sequence (QuestionAt data) 12 m.questions p ∧ Sequence (RecordAt data) p m.answers q ∧
      Sequence (RecordAt data) q m.authority r ∧ Sequence (RecordAt data) r m.additional data.length

variable {data} {pos next hops : ℕ}

/-! ## Names -/

theorem LabelsAt.lt_length {labels : List (List Char)} (h : LabelsAt data pos labels next hops) : pos < data.length := by
  cases h with
  | root h => exact Nat.lt_of_lt_of_le (by simp) h.le_length
  | label h => exact Nat.lt_of_lt_of_le (by simp) h.le_length
  | pointer h => exact Nat.lt_of_lt_of_le (by simp) h.le_length

/-- The two bytes of a pointer. -/
theorem beBytes_pointer {target : ℕ} (h : target < 2 ^ 14) :
    ∃ high low : UInt8, beBytes 2 (0xc000 + target) = [high, low] ∧ high ≠ 0 ∧ high &&& 0xc0 = 0xc0 ∧
      ((high &&& 0x3f).toNat <<< 8) ||| low.toNat = target := by
  have hhigh : ∀ t < 64, UInt8.ofNat (0xc0 + t) ≠ 0 ∧ UInt8.ofNat (0xc0 + t) &&& 0xc0 = 0xc0 ∧
      (UInt8.ofNat (0xc0 + t) &&& 0x3f).toNat = t := by decide
  obtain ⟨hne, hmark, hbits⟩ := hhigh (target / 256) (by omega)
  have hdiv : (0xc000 + target) / 256 = 0xc0 + target / 256 := by omega
  have hlow : (UInt8.ofNat (0xc000 + target)).toNat = target % 256 := by
    rw [UInt8.toNat_ofNat']
    omega
  refine ⟨UInt8.ofNat (0xc0 + target / 256), UInt8.ofNat (0xc000 + target), ?_, hne, hmark, ?_⟩
  · rw [beBytes, beBytes, beBytes, hdiv]
    rfl
  · rw [hbits, hlow, ← Nat.shiftLeft_add_eq_or_of_lt (Nat.mod_lt _ (by decide)), Nat.shiftLeft_eq]
    omega

/-- The length of a label is no pointer. -/
theorem labelLength {l : List Char} (hpos : 0 < (bytes l).length) (hlt : (bytes l).length < 64) :
    UInt8.ofNat (bytes l).length ≠ 0 ∧ UInt8.ofNat (bytes l).length &&& 0xc0 ≠ 0xc0 ∧
      (UInt8.ofNat (bytes l).length).toNat = (bytes l).length := by
  have hlengths : ∀ n < 64, 0 < n → UInt8.ofNat n ≠ 0 ∧ UInt8.ofNat n &&& 0xc0 ≠ 0xc0 ∧ (UInt8.ofNat n).toNat = n := by
    decide
  exact hlengths _ hlt hpos

/-- **The loop reads what stands there**, in as many hops as are left. -/
theorem parseNameLoop_labels {labels : List (List Char)} (h : LabelsAt data pos labels next hops)
    (hvalid : ∀ l ∈ labels, 0 < (bytes l).length ∧ (bytes l).length < 64) {jumps : ℕ} (hjumps : jumps + hops ≤ 10)
    (before : List (List Char)) (finalPos : Option ℕ) :
    parseNameLoop data jumps pos before finalPos = .ok (['.'].intercalate (before ++ labels), finalPos.getD next) := by
  have hlt := h.lt_length
  induction h generalizing jumps before finalPos with
  | root h =>
    rw [parseNameLoop, dif_neg (by omega), dif_neg (by omega), byteAt_of_at h, List.append_nil]
    cases finalPos <;> rfl
  | @label pos l labels next hops h rest ih =>
    obtain ⟨hl, hlabels⟩ := List.forall_mem_cons.1 hvalid
    obtain ⟨hne, hmark, htoNat⟩ := labelLength hl.1 hl.2
    have hend := h.le_length
    rw [List.length_cons] at hend
    have hslice := slice_of_at (at_cons.1 h).2
    have hrest := ih hlabels hjumps (before ++ [l]) finalPos rest.lt_length
    rw [List.append_assoc, List.singleton_append] at hrest
    rw [parseNameLoop, dif_neg (by omega), dif_neg (by omega), byteAt_of_at h]
    simp only [bind, Except.bind, if_neg hne, if_neg hmark, htoNat]
    rw [if_neg (by omega), hslice]
    simp only [fromUtf8_bytes, hrest]
  | @pointer pos target labels next hops h earlier hlt' rest ih =>
    obtain ⟨high, low, hbytes, hne, hmark, hptr⟩ := beBytes_pointer hlt'
    rw [hbytes] at h
    have hend := h.le_length
    simp only [List.length_cons, List.length_nil] at hend
    have hrest := @ih hvalid (jumps + 1) (by omega) before (finalPos <|> some (pos + 2)) rest.lt_length
    rw [parseNameLoop, dif_neg (by omega), dif_neg (by omega), byteAt_of_at h]
    simp only [bind, Except.bind, if_neg hne, if_pos hmark]
    rw [if_neg (by omega), byteAt_of_at (at_cons.1 h).2]
    simp only [hptr, hrest]
    cases finalPos <;> rfl

theorem parseName_of_at {n : DnsName} (h : NameAt data pos n next) : parseName data pos = .ok (n.text, next) := by
  obtain ⟨hops, hle, h⟩ := h
  exact parseNameLoop_labels h (fun l hl => ⟨(n.valid l hl).1, (n.valid l hl).2.1⟩) (by omega) [] none

theorem nameOrDefault_of_at {n : DnsName} (h : NameAt data pos n next) : nameOrDefault data pos = .ok n.text := by
  rw [nameOrDefault, parseName_of_at h]
  rfl

theorem LabelsAt.next_le {labels : List (List Char)} (h : LabelsAt data pos labels next hops) :
    pos < next ∧ next ≤ data.length := by
  induction h with
  | root h =>
    have hle := h.le_length
    simp only [List.length_singleton] at hle
    omega
  | label h rest ih => omega
  | pointer h earlier hlt rest ih =>
    have hle := h.le_length
    rw [length_beBytes] at hle
    omega

theorem NameAt.next_le {n : DnsName} (h : NameAt data pos n next) : pos < next ∧ next ≤ data.length := by
  obtain ⟨hops, -, h⟩ := h
  exact h.next_le

/-! ## Records -/

theorem DataAt.next_le {d : RecordData} (h : DataAt data pos d next) : pos ≤ next ∧ next ≤ data.length := by
  have hbytes : ∀ {bs : List UInt8} {n : ℕ}, At data pos bs → bs.length = n → next = pos + n →
      pos ≤ next ∧ next ≤ data.length := by
    intro bs n hat hlength hnext
    have hle := hat.le_length
    omega
  cases d with
  | a ip => exact hbytes h.1 ip.2 h.2
  | aaaa ip => exact hbytes h.1 ip.2 h.2
  | cname name => exact ⟨(NameAt.next_le h).1.le, (NameAt.next_le h).2⟩
  | ns name => exact ⟨(NameAt.next_le h).1.le, (NameAt.next_le h).2⟩
  | ptr name => exact ⟨(NameAt.next_le h).1.le, (NameAt.next_le h).2⟩
  | mx priority exchange =>
    have hle := NameAt.next_le h.2
    omega
  | txt parts => exact hbytes h.1 rfl h.2
  | other rtype bytes => exact hbytes h.1 rfl h.2

/-- The texts of a TXT record, behind those that have been read. -/
theorem parseTxt_of_at {rdataBytes : List UInt8} (parts : List {s : List Char // (bytes s).length < 256}) {p : ℕ}
    (h : At rdataBytes p (parts.flatMap fun s => UInt8.ofNat (bytes s.1).length :: bytes s.1))
    (hend : rdataBytes.length = p + (parts.flatMap fun s => UInt8.ofNat (bytes s.1).length :: bytes s.1).length)
    (before : List (List Char)) :
    parseTxt rdataBytes p before = .ok (before ++ parts.map Subtype.val) := by
  induction parts generalizing p before with
  | nil =>
    rw [List.flatMap_nil, List.length_nil] at hend
    rw [parseTxt, dif_neg (by omega), List.map_nil, List.append_nil]
    rfl
  | cons s parts ih =>
    rw [List.flatMap_cons] at h hend
    obtain ⟨htext, hrest⟩ := at_append.1 h
    obtain ⟨hlength, hchars⟩ := at_cons.1 htext
    have htoNat : (UInt8.ofNat (bytes s.1).length).toNat = (bytes s.1).length := UInt8.toNat_ofNat_of_lt s.2
    rw [List.length_append, List.length_cons] at hend
    rw [List.length_cons, Nat.add_comm (bytes s.1).length 1, ← Nat.add_assoc] at hrest
    have hparts := ih hrest (by omega) (before ++ [s.1])
    rw [parseTxt, dif_pos (by omega), byteAt_of_at hlength]
    simp only [bind, Except.bind, htoNat]
    rw [if_pos (by omega), slice_of_at hchars]
    simp only [fromUtf8_bytes, hparts, List.map_cons, List.append_assoc, List.singleton_append]

theorem checkedSub_add (a b : ℕ) : checkedSub (a + b) b = .ok a := by
  rw [checkedSub, if_pos (Nat.le_add_left _ _), Nat.add_sub_cancel]

theorem u16At_toNat {x : UInt16} (h : At data pos (beBytes 2 x.toNat)) : u16At data pos = .ok x := by
  rw [u16At_of_at x.toNat_lt h, UInt16.ofNat_toNat]

/-- **The data are read back**, from the bytes that stand where they do. -/
theorem parseRdata_of_at {d : RecordData} {rdataBytes : List UInt8} (h : DataAt data pos d (pos + rdataBytes.length))
    (hpart : At data pos rdataBytes) :
    parseRdata data d.rtype rdataBytes (pos + rdataBytes.length) = .ok d.rdata := by
  have hwhole : ∀ {bs : List UInt8} {n : ℕ}, At data pos bs → bs.length = n →
      pos + rdataBytes.length = pos + n → rdataBytes = bs :=
    fun hbs hn hlength => hpart.unique hbs (by omega)
  cases d with
  | a ip =>
    obtain rfl := hwhole h.1 ip.2 h.2
    rw [parseRdata, dif_pos ⟨rfl, ip.2⟩]
    rfl
  | aaaa ip =>
    obtain rfl := hwhole h.1 ip.2 h.2
    rw [parseRdata, dif_neg fun hone => absurd (show (28 : UInt16) = 1 from hone.1) (by decide), dif_pos ⟨rfl, ip.2⟩]
    rfl
  | cname name =>
    simp [parseRdata, RecordData.rtype, checkedSub_add, nameOrDefault_of_at h, RecordData.rdata, bind, Except.bind,
      pure, Except.pure]
  | ns name =>
    simp [parseRdata, RecordData.rtype, checkedSub_add, nameOrDefault_of_at h, RecordData.rdata, bind, Except.bind,
      pure, Except.pure]
  | ptr name =>
    simp [parseRdata, RecordData.rtype, checkedSub_add, nameOrDefault_of_at h, RecordData.rdata, bind, Except.bind,
      pure, Except.pure]
  | mx priority exchange =>
    have hle := NameAt.next_le h.2
    have hpriority : u16At rdataBytes 0 = .ok priority :=
      u16At_toNat (hpart.inPart h.1 (by rw [length_beBytes]; omega))
    simp [parseRdata, RecordData.rtype, checkedSub_add, hpriority, nameOrDefault_of_at h.2, RecordData.rdata, bind,
      Except.bind, pure, Except.pure]
    omega
  | txt parts =>
    have hbytes := hwhole h.1 rfl h.2
    have htexts := parseTxt_of_at parts (at_self _) (Nat.zero_add _).symm []
    rw [← hbytes] at htexts
    simp [parseRdata, RecordData.rtype, htexts, RecordData.rdata, bind, Except.bind, pure, Except.pure]
  | other rtype bs =>
    obtain rfl := hwhole h.1 rfl h.2
    obtain ⟨rtype, hrtype⟩ := rtype
    simp only [List.mem_cons, List.not_mem_nil, or_false, not_or] at hrtype
    simp [parseRdata, RecordData.rtype, RecordData.rdata, hrtype, pure, Except.pure]

/-- **A record is read back**, and the position is behind it. -/
theorem parseRecord_of_at {r : ResourceRecord} (h : RecordAt data pos r next) :
    parseRecord data pos = .ok (some r.record, next) := by
  obtain ⟨p, rdlen, hname, hlt, hfixed, hdata, rfl⟩ := h
  simp only [at_append, length_beBytes, List.length_append] at hfixed
  obtain ⟨⟨⟨hrtype, hrclass⟩, httl⟩, hrdlen⟩ := hfixed
  have hle := hdata.next_le
  obtain ⟨rdataBytes, hpart, hlength⟩ := exists_at hle.1 hle.2
  obtain rfl : rdlen = rdataBytes.length := by omega
  have hread : u32At data (p + (2 + 2)) = .ok r.ttl := by
    rw [u32At_of_at r.ttl.toNat_lt httl, UInt32.ofNat_toNat]
  have htoNat : (UInt16.ofNat rdataBytes.length).toNat = rdataBytes.length := UInt16.toNat_ofNat_of_lt hlt
  rw [parseRecord, parseName_of_at hname]
  simp only [attempt, bind, Except.bind, pure, Except.pure]
  rw [if_neg (by omega), u16At_toNat hrtype, u16At_toNat hrclass, hread, u16At_of_at hlt hrdlen]
  simp only [htoNat]
  rw [if_neg (by omega), slice_of_at hpart]
  simp only [parseRdata_of_at hdata hpart]
  rfl

/-! ## Sections -/

theorem parseRecords_of_at {records : List ResourceRecord} (h : Sequence (RecordAt data) pos records next) :
    parseRecords data records.length pos = .ok (records.map ResourceRecord.record, next) := by
  induction records generalizing pos with
  | nil =>
    obtain rfl := h
    rfl
  | cons r records ih =>
    obtain ⟨p, hr, hrest⟩ := h
    rw [List.length_cons, parseRecords, parseRecord_of_at hr]
    simp only [bind, Except.bind, ih hrest]
    rfl

theorem parseQuestions_of_at {questions : List Question} (h : Sequence (QuestionAt data) pos questions next) :
    parseQuestions data questions.length pos = .ok (questions.map Question.question, next) := by
  induction questions generalizing pos with
  | nil =>
    obtain rfl := h
    rfl
  | cons q questions ih =>
    obtain ⟨_, ⟨p, hname, hfixed, rfl⟩, hrest⟩ := h
    have hle := hfixed.le_length
    rw [List.length_append, length_beBytes, length_beBytes] at hle
    obtain ⟨hqtype, hqclass⟩ := at_append.1 hfixed
    rw [length_beBytes] at hqclass
    rw [List.length_cons, parseQuestions, parseName_of_at hname]
    simp only [bind, Except.bind]
    rw [if_neg (by omega), u16At_toNat hqtype, u16At_toNat hqclass]
    simp only [ih hrest]
    rfl

/-- The fields of the flags. -/
theorem flags_fields (flags : UInt16) :
    ((flags >>> 15) &&& 1 == 1) = flags.toNat.testBit 15 ∧
      ((flags >>> 11) &&& 0xf).toUInt8 = UInt8.ofNat (flags.toNat / 2 ^ 11 % 16) ∧
        (flags &&& 0xf).toUInt8 = UInt8.ofNat (flags.toNat % 16) := by
  have hmask : ∀ n : ℕ, n &&& 15 = n % 16 := fun n => Nat.and_two_pow_sub_one_eq_mod n 4
  have hshift : (flags >>> 15).toNat = flags.toNat / 2 ^ 15 := by
    rw [UInt16.toNat_shiftRight, Nat.shiftRight_eq_div_pow]
    rfl
  have hshift' : (flags >>> 11).toNat = flags.toNat / 2 ^ 11 := by
    rw [UInt16.toNat_shiftRight, Nat.shiftRight_eq_div_pow]
    rfl
  refine ⟨?_, ?_, ?_⟩
  · rw [Bool.eq_iff_iff, beq_iff_eq, ← UInt16.toNat_inj, UInt16.toNat_and, hshift, UInt16.toNat_one, Nat.and_one_is_mod,
      Nat.testBit_eq_decide_div_mod_eq, decide_eq_true_iff]
  · apply UInt8.toNat_inj.1
    rw [UInt16.toNat_toUInt8, UInt16.toNat_and, hshift']
    exact congrArg (· % 256) (hmask _)
  · apply UInt8.toNat_inj.1
    rw [UInt16.toNat_toUInt8, UInt16.toNat_and]
    exact congrArg (· % 256) (hmask _)

/-- **The dissector returns the message that the bytes are those of.** -/
theorem parse_encoded (m : DnsMessage) (h : Encodes data m) : parseDnsPacket data = .ok m.packet := by
  obtain ⟨hquestions, hanswers, hauthority, hadditional, hheader, p, q, r, hqs, hans, haut, hadd⟩ := h
  have hle := hheader.le_length
  simp only [List.length_append, length_beBytes] at hle
  simp only [at_append, length_beBytes, List.length_append] at hheader
  obtain ⟨⟨⟨⟨⟨hid, hflags⟩, hqd⟩, han⟩, hns⟩, har⟩ := hheader
  obtain ⟨hresponse, hopcode, hrcode⟩ := flags_fields m.flags
  have hqdcount : (UInt16.ofNat m.questions.length).toNat = m.questions.length := UInt16.toNat_ofNat_of_lt hquestions
  have hancount : (UInt16.ofNat m.answers.length).toNat = m.answers.length := UInt16.toNat_ofNat_of_lt hanswers
  have hnscount : (UInt16.ofNat m.authority.length).toNat = m.authority.length := UInt16.toNat_ofNat_of_lt hauthority
  have harcount : (UInt16.ofNat m.additional.length).toNat = m.additional.length := UInt16.toNat_ofNat_of_lt hadditional
  rw [parseDnsPacket, if_neg (by omega), u16At_toNat hid, u16At_toNat hflags, u16At_of_at hquestions hqd,
    u16At_of_at hanswers han, u16At_of_at hauthority hns, u16At_of_at hadditional har]
  simp only [bind, Except.bind, hqdcount, hancount, hnscount, harcount, parseQuestions_of_at hqs,
    parseRecords_of_at hans, parseRecords_of_at haut, parseRecords_of_at hadd, hresponse, hopcode, hrcode]
  rfl

/-! ## A response -/

def domain : DnsName := ⟨["a".toList, "com".toList], by decide +kernel⟩
def mailHost : DnsName := ⟨["m".toList, "com".toList], by decide +kernel⟩

/-- The mail host of a domain. -/
def mxResponse : DnsMessage where
  id := 0x1234
  flags := 0x8180
  questions := [⟨domain, 15, 1⟩]
  answers := [⟨domain, 1, 60, .mx 10 mailHost⟩]
  authority := []
  additional := []

/-- The answer points to the name in the question, and its mail host to the end of that name. -/
def mxBytes : List UInt8 :=
  [0x12, 0x34, 0x81, 0x80, 0, 1, 0, 1, 0, 0, 0, 0] ++
    [1, 0x61, 3, 0x63, 0x6f, 0x6d, 0, 0, 15, 0, 1] ++
      [0xc0, 12, 0, 15, 0, 1, 0, 0, 0, 60, 0, 6, 0, 10, 1, 0x6d, 0xc0, 14]

theorem mxBytes_encodes : Encodes mxBytes mxResponse := by
  have hcom : LabelsAt mxBytes 14 ["com".toList] 19 0 := .label (by decide +kernel) (.root (by decide))
  have hdomain : LabelsAt mxBytes 12 domain.labels 19 0 := .label (by decide +kernel) hcom
  have hanswer : LabelsAt mxBytes 23 domain.labels 25 1 := .pointer (by decide) (by decide) (by decide) hdomain
  have hmail : LabelsAt mxBytes 37 mailHost.labels 41 1 :=
    .label (by decide +kernel) (.pointer (by decide) (by decide) (by decide) hcom)
  refine ⟨by decide, by decide, by decide, by decide, by decide, 23, 41, 41, ?_, ?_, rfl, rfl⟩
  · exact ⟨23, ⟨19, ⟨0, by decide, hdomain⟩, by decide, rfl⟩, rfl⟩
  · exact ⟨41, ⟨25, 6, ⟨1, by decide, hanswer⟩, by decide, by decide, ⟨by decide, 1, by decide, hmail⟩, rfl⟩, rfl⟩

theorem parse_mxBytes : parseDnsPacket mxBytes = .ok mxResponse.packet := parse_encoded mxResponse mxBytes_encodes

end ThorFirewall.Dissectors
