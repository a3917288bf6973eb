import Mathlib
import ThorFirewall.Ids.FileReassembler
import ThorFirewall.Lib.Wire

/-!
# HTTP bodies in pieces

An HTTP message with a length is cut into payloads at any places. The session of its stream holds what has arrived: bytes
without an end of headers, or the headers and a part of the body (`Collects`). It is complete when the body is, or when a
payload ends behind a part of the body that looks like a last chunk (`Premature`).

- `findHeaderEnd_wire`, `parseContentLength_head`: the headers end where they do, and tell the length;
- `pushHttp_collects`: what a payload does to what has been collected;
- `extracted_iff`: the file is extracted whole, with the last payload, exactly if no cut is premature.
-/

namespace ThorFirewall.Ids

open Text Utf8 TextSearch

/-! ## Messages -/

/-- A start line, fields of a name and a value with its white space, and a body. -/
structure HttpMessage where
  startLine : List Char
  fields : List (List Char × List Char)
  body : List UInt8

/-- Decimal digits between blanks. -/
def IsDecimal (value : List Char) (n : ℕ) : Prop :=
  ∃ l digits r, value = l ++ digits ++ r ∧ (∀ c ∈ l ++ r, c = ' ' ∨ c = '\t') ∧ digits ≠ [] ∧
    digits.all Char.isDigit = true ∧ Nat.ofDigitChars 10 digits 0 = n

namespace HttpMessage

def fieldText (f : List Char × List Char) : List Char := f.1 ++ ':' :: f.2

/-- The lines before the empty one. -/
def headLines (m : HttpMessage) : List (List Char) := m.startLine :: m.fields.map fieldText

def head (m : HttpMessage) : List Char := "\r\n".toList.intercalate m.headLines

/-- The message on the wire. -/
def wire (m : HttpMessage) : List UInt8 := bytes m.head ++ ascii "\r\n\r\n" ++ m.body

/-- The headers with the empty line. -/
def headLength (m : HttpMessage) : ℕ := (bytes m.head).length + 4

/-- ASCII headers, with an extractable content type and the length of the body. The first word of the start line has no
colon. -/
structure Valid (lower : List Char → List Char) (m : HttpMessage) : Prop where
  isAscii : ∀ line ∈ m.headLines, IsAscii line
  noBreak : ∀ line ∈ m.headLines, '\r' ∉ line ∧ '\n' ∉ line
  startLine : ∃ word rest, m.startLine = word ++ ' ' :: rest ∧ ':' ∉ word
  names : ∀ f ∈ m.fields, ':' ∉ f.1
  hasLength : ∃ f ∈ m.fields, f.1.map Char.toLower = "content-length".toList
  length : ∀ f ∈ m.fields, f.1.map Char.toLower = "content-length".toList → IsDecimal f.2 m.body.length
  contentType : (contentType lower m.head).any isInterestingMime = true
  minSize : 64 ≤ m.body.length
  maxSize : m.body.length ≤ 50 * 1024 * 1024

variable {lower : List Char → List Char} {m : HttpMessage}

theorem headLines_ne_nil (h : m.Valid lower) : ∀ line ∈ m.headLines, line ≠ [] := by
  rintro line hline rfl
  rcases List.mem_cons.1 hline with hstart | hfield
  · obtain ⟨word, rest, hword, -⟩ := h.startLine
    rw [hword] at hstart
    simp at hstart
  · obtain ⟨f, -, hf⟩ := List.mem_map.1 hfield
    simp [fieldText] at hf

theorem isAscii_head (h : m.Valid lower) : IsAscii m.head := isAscii_intercalate h.isAscii

/-! ## The end of the headers -/

theorem findHeaderEnd_head (h : m.Valid lower) :
    findHeaderEnd (bytes m.head ++ ascii "\r\n\r\n") = some (bytes m.head).length := by
  have hhead := isAscii_head h
  have hend : ascii "\r\n\r\n" = bytes emptyLine := by decide
  rw [findHeaderEnd, hend, ← bytes_append, find_bytes (by decide) (isAscii_append.2 ⟨hhead, by decide⟩), head,
    find_intercalate (by simp [headLines]) (fun line hline => headLines_ne_nil h line (List.mem_of_mem_tail hline))
      fun line hline => (h.noBreak line hline).2]
  rw [length_bytes_ascii (head.eq_1 m ▸ hhead)]

/-- **The headers end where they do.** -/
theorem findHeaderEnd_wire (h : m.Valid lower) : findHeaderEnd m.wire = some (bytes m.head).length :=
  find_append (findHeaderEnd_head h) m.body

/-! ## The length -/

theorem lines_head (h : m.Valid lower) : lines m.head = m.headLines :=
  lines_intercalate (headLines_ne_nil h) fun line hline => (h.noBreak line hline).2

/-- A line is one of the field exactly if its name is. -/
theorem isPrefixOf_fieldText (hlower : IsLowercase lower) {f : List Char × List Char} (hascii : IsAscii (fieldText f))
    (hcolon : ':' ∉ f.1) {name : List Char} (hname : ':' ∉ name) :
    (name ++ [':']).isPrefixOf (lower (fieldText f)) = decide (f.1.map Char.toLower = name) := by
  have hlow : lower (fieldText f) = f.1.map Char.toLower ++ ':' :: f.2.map Char.toLower := by
    rw [hlower _ hascii, fieldText, List.map_append, List.map_cons]
    rfl
  have hcolon' := notMem_map_toLower (by decide) hcolon
  rw [Bool.eq_iff_iff, decide_eq_true_iff, List.isPrefixOf_iff_prefix, hlow]
  constructor
  · rintro ⟨t, ht⟩
    rw [List.append_assoc, List.singleton_append] at ht
    exact ((Wire.append_cons_inj hname hcolon').1 ht).1.symm
  · rintro rfl
    exact ⟨f.2.map Char.toLower, by simp⟩

/-- The start line is no line of a field. -/
theorem isPrefixOf_startLine (hlower : IsLowercase lower) (h : m.Valid lower) {name : List Char} (hname : ':' ∉ name)
    (hspace : ' ' ∉ name) : (name ++ [':']).isPrefixOf (lower m.startLine) = false := by
  obtain ⟨word, rest, hstart, hword⟩ := h.startLine
  have hlow : lower m.startLine = word.map Char.toLower ++ ' ' :: rest.map Char.toLower := by
    rw [hlower _ (h.isAscii _ (by simp [headLines])), hstart, List.map_append, List.map_cons]
    rfl
  have hcolon := notMem_map_toLower (by decide) hword
  rw [Bool.eq_false_iff, ne_eq, List.isPrefixOf_iff_prefix, hlow]
  generalize word.map Char.toLower = w at hcolon
  -- the colon of the name comes before the blank of the line, or behind it
  induction name generalizing w with
  | nil =>
    intro hp
    cases w with
    | nil => exact absurd (List.cons_prefix_cons.1 hp).1 (by decide)
    | cons c w => exact hcolon (List.mem_cons.2 (Or.inl (List.cons_prefix_cons.1 hp).1))
  | cons d name ih =>
    intro hp
    cases w with
    | nil => exact hspace (List.mem_cons.2 (Or.inl (List.cons_prefix_cons.1 hp).1.symm))
    | cons c w =>
      exact ih (fun h => hname (List.mem_cons_of_mem _ h)) (fun h => hspace (List.mem_cons_of_mem _ h)) w
        (fun h => hcolon (List.mem_cons_of_mem _ h)) (List.cons_prefix_cons.1 hp).2

theorem trim_decimal {value : List Char} {n : ℕ} (h : IsDecimal value n) (hn : n < 2 ^ 64) :
    parseUnsigned 64 (trim value) = some n := by
  obtain ⟨l, digits, r, rfl, hblank, hne, hdigits, rfl⟩ := h
  have hdigit : ∀ c ∈ digits, c.isDigit = true := List.all_eq_true.1 hdigits
  have hwhite : ∀ c, c = ' ' ∨ c = '\t' → isWhitespace c = true := by
    rintro c (rfl | rfl) <;> decide
  have hsolid : ∀ c ∈ digits, isWhitespace c = false := fun c hc => isWhitespace_digit (hdigit c hc)
  rw [List.forall_mem_append] at hblank
  rw [trim_append (List.all_eq_true.2 fun c hc => hwhite c (hblank.1 c hc))
    (List.all_eq_true.2 fun c hc => hwhite c (hblank.2 c hc)) (fun c hc => hsolid c (List.mem_of_head? hc))
    fun c hc => hsolid c (List.mem_of_getLast? hc)]
  unfold parseUnsigned
  split
  · exact absurd (hdigit '+' (by simp)) (by decide)
  · exact if_pos ⟨hne, hdigits, hn⟩

/-- **The headers tell the length of the body.** -/
theorem parseContentLength_head (hlower : IsLowercase lower) (h : m.Valid lower) :
    parseContentLength lower m.head = some m.body.length := by
  obtain ⟨f₀, hf₀, hname₀⟩ := h.hasLength
  have hname : "content-length:".toList = "content-length".toList ++ [':'] := by decide
  have hfield : ∀ f ∈ m.fields, "content-length:".toList.isPrefixOf (lower (fieldText f)) =
      decide (f.1.map Char.toLower = "content-length".toList) := fun f hf => by
    rw [hname]
    exact isPrefixOf_fieldText hlower (h.isAscii _ (List.mem_cons_of_mem _ (List.mem_map_of_mem hf))) (h.names f hf)
      (by decide)
  have hline : ∃ f ∈ m.fields, fieldLine lower "content-length:" m.head = some (fieldText f) ∧
      f.1.map Char.toLower = "content-length".toList := by
    rw [fieldLine, lines_head h, headLines, List.find?_cons_of_neg, List.find?_map]
    · cases hfind : m.fields.find? ((fun line => "content-length:".toList.isPrefixOf (lower line)) ∘ fieldText) with
      | none =>
        have := List.find?_eq_none.1 hfind f₀ hf₀
        rw [Function.comp_apply, hfield f₀ hf₀, hname₀] at this
        exact absurd (decide_eq_true rfl) this
      | some f =>
        have hmem := List.mem_of_find?_eq_some hfind
        have hp := List.find?_some hfind
        rw [Function.comp_apply, hfield f hmem, decide_eq_true_iff] at hp
        exact ⟨f, hmem, rfl, hp⟩
    · rw [hname, isPrefixOf_startLine hlower h (by decide) (by decide)]
      decide
  obtain ⟨f, hf, hfind, hfname⟩ := hline
  have hlength : f.1.length = 14 := by
    rw [← List.length_map (f := Char.toLower), hfname]
    rfl
  have hdrop : (fieldText f).drop 15 = f.2 := by
    rw [fieldText, List.append_cons, List.drop_left' (by simp [hlength])]
  have hsize := h.maxSize
  rw [parseContentLength, hfind, Option.bind_some, hdrop]
  exact trim_decimal (h.length f hf hfname) (by omega)

end HttpMessage

/-! ## Extraction -/

variable {lower : List Char → List Char} {m : HttpMessage} {flow : SessionKey} {now : ℕ}

/-- ASCII lines do not panic. -/
theorem filenameIn_ascii (hlower : IsLowercase lower) {ls : List (List Char)} (h : ∀ line ∈ ls, IsAscii line) :
    ∃ name, filenameIn lower ls = some name := by
  induction ls with
  | nil => exact ⟨none, rfl⟩
  | cons line ls ih =>
    have hline := h line (by simp)
    have hlow := hlower line hline
    obtain ⟨name, hname⟩ := ih fun line hline => h line (List.mem_cons_of_mem _ hline)
    unfold filenameIn
    split_ifs
    · cases hfind : find "filename=".toList (lower line) with
      | none => exact ⟨name, hname⟩
      | some pos =>
        -- the position is one of the line, which is as long as the lower-cased one
        obtain ⟨rest, hrest, hle⟩ := eq_append_of_find hfind
        have hlength := congrArg List.length hrest
        rw [List.length_append, List.length_append, List.length_take, Nat.min_eq_left hle, hlow, List.length_map]
          at hlength
        have hbytes : byteLength ((lower line).take pos) = pos := by
          rw [byteLength_ascii fun c hc => isAscii_toLower hline c (hlow ▸ List.mem_of_mem_take hc), List.length_take,
            Nat.min_eq_left hle]
        have hpattern : "filename=".toList.length = 9 := rfl
        simp only [hbytes, dropBytes_ascii hline (n := pos + 9) (by omega), Option.map_some]
        exact ⟨_, rfl⟩
    · exact ⟨name, hname⟩

theorem extractHttp_wire (hlower : IsLowercase lower) (h : m.Valid lower) :
    ∃ f, FileExtractor.new.extractHttp lower m.wire flow = some [f] ∧ f.data = m.body := by
  obtain ⟨name, hname⟩ := filenameIn_ascii hlower h.isAscii
  have hfind : find (ascii "\r\n\r\n") m.wire = some (bytes m.head).length := HttpMessage.findHeaderEnd_wire h
  have hbody : m.wire.drop ((bytes m.head).length + 4) = m.body :=
    List.drop_left' (by rw [List.length_append]; rfl)
  have hheaders : fromUtf8 (m.wire.take (bytes m.head).length) = some m.head := by
    rw [HttpMessage.wire, List.append_assoc, List.take_left, fromUtf8_bytes]
  have hfilename : contentDispositionFilename lower m.head = some name := by
    rw [contentDispositionFilename, HttpMessage.lines_head h, hname]
  have hmime : isInterestingMime ((contentType lower m.head).getD "application/octet-stream".toList) = true := by
    have hany := h.contentType
    cases hmime : contentType lower m.head with
    | none =>
      rw [hmime] at hany
      cases hany
    | some mime =>
      rw [hmime] at hany
      exact hany
  have hsize : ¬ (m.body.length < FileExtractor.new.minSize ∨ FileExtractor.new.maxSize < m.body.length) := by
    have hmin := h.minSize
    have hmax := h.maxSize
    simp only [FileExtractor.new]
    omega
  refine ⟨.new lower m.body name .http flow, ?_, rfl⟩
  simp only [FileExtractor.extractHttp, hfind, hbody, hheaders, Option.getD_some, hfilename, Option.map_some, hmime,
    Bool.not_true, Bool.false_and, Bool.false_eq_true, if_false]
  exact if_neg hsize

/-! ## What has been collected -/

/-- The session holds what has arrived of the message. -/
structure Collects (m : HttpMessage) (flow : SessionKey) (s : ReassemblySession) (arrived : List UInt8) : Prop where
  flow_eq : s.flow = flow
  isHttp : (∃ cl chunked, s.kind = .httpRequest cl chunked) ∨ ∃ cl chunked, s.kind = .httpResponse cl chunked
  before : arrived.length < m.headLength → s.headersDone = false ∧ s.buffer = arrived
  behind : m.headLength ≤ arrived.length → s.headersDone = true ∧ s.headers = m.head ∧
    s.expected = some m.body.length ∧ s.buffer = arrived.drop m.headLength

variable {s : ReassemblySession} {arrived payload : List UInt8}

theorem readHeaders_http (hs : (∃ cl chunked, s.kind = .httpRequest cl chunked) ∨
    ∃ cl chunked, s.kind = .httpResponse cl chunked) (headers : List Char) :
    let s' := s.readHeaders lower headers
    s'.flow = s.flow ∧ s'.headersDone = true ∧ s'.headers = headers ∧ s'.expected = parseContentLength lower headers ∧
      ((∃ cl chunked, s'.kind = .httpRequest cl chunked) ∨ ∃ cl chunked, s'.kind = .httpResponse cl chunked) := by
  unfold ReassemblySession.readHeaders
  rcases hs with ⟨cl, chunked, hkind⟩ | ⟨cl, chunked, hkind⟩ <;> simp [hkind]

theorem accumulate_collects (now : ℕ) (hlower : IsLowercase lower) (h : m.Valid lower) (hs : Collects m flow s arrived)
    (hp : arrived ++ payload <+: m.wire) : Collects m flow (s.accumulate lower payload now) (arrived ++ payload) := by
  unfold ReassemblySession.accumulate
  by_cases hlong : m.headLength ≤ arrived.length
  · obtain ⟨hdone, hheaders, hexpected, hbuffer⟩ := hs.behind hlong
    rw [if_pos hdone]
    refine ⟨hs.flow_eq, hs.isHttp, fun hshort => ?_, fun _ => ⟨hdone, hheaders, hexpected, ?_⟩⟩
    · rw [List.length_append] at hshort
      omega
    · rw [List.drop_append_of_le_length hlong, ← hbuffer]
      rfl
  · obtain ⟨hdone, hbuffer⟩ := hs.before (Nat.lt_of_not_le hlong)
    rw [if_neg (by simp [hdone]), hbuffer]
    by_cases hend : m.headLength ≤ (arrived ++ payload).length
    · -- the headers end in this payload
      have hhead : bytes m.head ++ ascii "\r\n\r\n" <+: arrived ++ payload := by
        refine List.prefix_of_prefix_length_le (List.prefix_append _ m.body) hp ?_
        rw [List.length_append]
        exact hend
      obtain ⟨rest, hrest⟩ := hhead
      have hfind : findHeaderEnd (arrived ++ payload) = some (bytes m.head).length := by
        rw [← hrest]
        exact find_append (HttpMessage.findHeaderEnd_head h) rest
      have htake : (arrived ++ payload).take (bytes m.head).length = bytes m.head := by
        rw [← hrest, List.append_assoc, List.take_left]
      obtain ⟨hflow, hdone', hheaders, hexpected, hkind⟩ := @readHeaders_http lower _ hs.isHttp m.head
      simp only [hfind, htake, fromUtf8Lossy_bytes]
      refine ⟨hflow.trans hs.flow_eq, hkind, fun hshort => absurd hend (Nat.not_le.2 hshort),
        fun _ => ⟨hdone', hheaders, ?_, rfl⟩⟩
      exact hexpected.trans (HttpMessage.parseContentLength_head hlower h)
    · have hfind : findHeaderEnd (arrived ++ payload) = none :=
        find_prefix_eq_none (HttpMessage.findHeaderEnd_wire h) hp (Nat.lt_of_not_le hend)
      simp only [hfind]
      refine ⟨hs.flow_eq, hs.isHttp, fun _ => ⟨hdone, ?_⟩, fun hlong => absurd hlong hend⟩
      rw [ReassemblySession.append, hbuffer]

/-- The cut is inside the body, and the part before it looks like one with a last chunk. -/
def Premature (m : HttpMessage) (arrived : List UInt8) : Prop :=
  ∃ i, arrived.length = m.headLength + i ∧ i < m.body.length ∧ 5 < i ∧
    ascii "0\r\n\r\n" <:+: (m.body.take i).drop (i - 8)

theorem length_wire (m : HttpMessage) : m.wire.length = m.headLength + m.body.length := by
  rw [HttpMessage.wire, List.length_append, List.length_append]
  rfl

/-- Behind the headers, a part of the message is one of the body. -/
theorem drop_headLength (hp : arrived <+: m.wire) :
    arrived.drop m.headLength = m.body.take (arrived.length - m.headLength) := by
  have hlength : (bytes m.head ++ ascii "\r\n\r\n").length = m.headLength := by
    rw [List.length_append]
    rfl
  obtain ⟨rest, hrest⟩ := hp
  have htake : arrived = m.wire.take arrived.length := by rw [← hrest, List.take_left]
  conv_lhs => rw [htake]
  rw [List.drop_take, HttpMessage.wire, List.drop_left' hlength]

/-- What the two tests for completion say of a session behind the headers. -/
theorem Collects.complete_iff (hs : Collects m flow s arrived) (hp : arrived <+: m.wire)
    (hlong : m.headLength ≤ arrived.length) :
    (s.isComplete || s.looksComplete) = true ↔ arrived = m.wire ∨ Premature m arrived := by
  obtain ⟨-, -, hexpected, hbuffer⟩ := hs.behind hlong
  have hbody := hbuffer.trans (drop_headLength hp)
  have hle : arrived.length ≤ m.headLength + m.body.length := length_wire m ▸ hp.length_le
  have hlength : s.buffer.length = arrived.length - m.headLength := by
    rw [hbody, List.length_take]
    omega
  have hwhole : s.isComplete = true ↔ arrived = m.wire := by
    rw [ReassemblySession.isComplete, hexpected, Option.any_some, decide_eq_true_iff, hlength]
    refine ⟨fun hn => hp.eq_of_length_le ?_, fun heq => ?_⟩
    · rw [length_wire]
      omega
    · have := congrArg List.length heq
      rw [length_wire] at this
      omega
  rw [Bool.or_eq_true, hwhole]
  refine or_congr_right' fun hne => ?_
  have hinside : arrived.length - m.headLength < m.body.length := by
    by_contra hge
    exact hne (hp.eq_of_length_le (by rw [length_wire]; omega))
  have hfind : (find (ascii "0\r\n\r\n") (s.buffer.drop (s.buffer.length - 8))).isSome = true ↔
      ascii "0\r\n\r\n" <:+: s.buffer.drop (s.buffer.length - 8) := by
    rw [← not_iff_not, ← find_eq_none_iff, Option.not_isSome_iff_eq_none]
  rw [ReassemblySession.looksComplete, Bool.and_eq_true, decide_eq_true_iff, hfind, hlength, hbody]
  constructor
  · rintro ⟨hfive, hchunk⟩
    exact ⟨_, by omega, hinside, hfive, hchunk⟩
  · rintro ⟨i, hi, -, hfive, hchunk⟩
    have : arrived.length - m.headLength = i := by omega
    rw [this]
    exact ⟨hfive, hchunk⟩

/-- The reassembler holds what has arrived of the message. -/
structure Holds (m : HttpMessage) (flow : SessionKey) (r : FileReassembler) (arrived : List UInt8) : Prop where
  extractor : r.extractor = .new
  maxFileSize : r.maxFileSize = 50 * 1024 * 1024
  collects : ∀ isResponse now, Collects m flow (r.entry (FileReassembler.httpKind isResponse) flow now) arrived

namespace FileReassembler

variable {r : FileReassembler}

theorem holds_nil (hx : r.extractor = .new) (hmax : r.maxFileSize = 50 * 1024 * 1024) (h : r.session? flow = none) :
    Holds m flow r [] := by
  refine ⟨hx, hmax, fun isResponse now => ?_⟩
  rw [entry, h]
  refine ⟨rfl, ?_, fun _ => ⟨rfl, rfl⟩, fun hlong => ?_⟩
  · cases isResponse
    · exact Or.inl ⟨none, false, rfl⟩
    · exact Or.inr ⟨none, false, rfl⟩
  · exact absurd hlong (by simp [HttpMessage.headLength])

theorem Holds.store (h : Holds m flow r arrived) (hs : Collects m flow s payload) :
    Holds m flow (r.store s) payload := by
  refine ⟨h.extractor, h.maxFileSize, fun isResponse now => ?_⟩
  rw [entry, session?_store, if_pos hs.flow_eq]
  exact hs

/-- The whole body is never too large. -/
theorem length_le (h : m.Valid lower) (hs : Collects m flow s arrived) (hp : arrived <+: m.wire)
    (hlong : m.headLength ≤ arrived.length) : s.buffer.length ≤ 50 * 1024 * 1024 := by
  have := h.maxSize
  rw [(hs.behind hlong).2.2.2, drop_headLength hp, List.length_take]
  omega

/-- A payload that neither ends the message nor is cut behind what looks like a last chunk is kept. -/
theorem pushHttp_collects (hlower : IsLowercase lower) (hm : m.Valid lower) (h : Holds m flow r arrived)
    (hp : arrived ++ payload <+: m.wire) (hne : arrived ++ payload ≠ m.wire)
    (hcut : ¬ Premature m (arrived ++ payload)) (isResponse : Bool) (now : ℕ) :
    ∃ r', r.pushHttp lower payload flow isResponse now = (some r', some []) ∧
      Holds m flow r' (arrived ++ payload) := by
  have hs := accumulate_collects now hlower hm (h.collects isResponse now) hp
  unfold pushHttp
  generalize (r.entry (httpKind isResponse) flow now).accumulate lower payload now = s at hs
  refine ⟨r.store s, ?_, Holds.store h hs⟩
  by_cases hlong : m.headLength ≤ (arrived ++ payload).length
  · have hdone := (hs.behind hlong).1
    have hsize := length_le hm hs hp hlong
    have hcomplete : (s.isComplete || s.looksComplete) = false := by
      rw [Bool.eq_false_iff, ne_eq, hs.complete_iff hp hlong]
      exact fun hor => hor.elim hne hcut
    simp only [hdone, Bool.not_true, Bool.false_eq_true, if_false, hcomplete]
    rw [if_neg (Nat.not_lt.2 (h.maxFileSize ▸ hsize))]
  · have hdone := (hs.before (Nat.lt_of_not_le hlong)).1
    simp only [hdone, Bool.not_false, if_true]

/-- A payload that ends the message or is cut too early ends the session. -/
theorem pushHttp_complete (hlower : IsLowercase lower) (hm : m.Valid lower) (h : Holds m flow r arrived)
    (hp : arrived ++ payload <+: m.wire) (hend : arrived ++ payload = m.wire ∨ Premature m (arrived ++ payload))
    (isResponse : Bool) (now : ℕ) :
    r.pushHttp lower payload flow isResponse now = (some (r.remove flow), FileExtractor.new.extractHttp lower
      (bytes m.head ++ ascii "\r\n\r\n" ++ (arrived ++ payload).drop m.headLength) flow) := by
  have hs := accumulate_collects now hlower hm (h.collects isResponse now) hp
  have hlong : m.headLength ≤ (arrived ++ payload).length := by
    rcases hend with heq | ⟨i, hi, -⟩
    · rw [heq, length_wire]
      omega
    · omega
  unfold pushHttp
  generalize (r.entry (httpKind isResponse) flow now).accumulate lower payload now = s at hs
  obtain ⟨hdone, hheaders, -, hbuffer⟩ := hs.behind hlong
  have hsize := length_le hm hs hp hlong
  have hcomplete := (hs.complete_iff hp hlong).2 hend
  simp only [hdone, Bool.not_true, Bool.false_eq_true, if_false, hcomplete, if_true]
  rw [if_neg (Nat.not_lt.2 (h.maxFileSize ▸ hsize)), hheaders, hbuffer, hs.flow_eq, h.extractor]

/-! ## What can come later -/

/-- No end of headers is in the headers of the session, and no more than so many bytes are in its buffer. -/
def Small (r : FileReassembler) (flow : SessionKey) (k : ℕ) : Prop :=
  ∀ s, r.session? flow = some s → ¬ ascii "\r\n\r\n" <:+: bytes s.headers ∧ s.buffer.length ≤ k

theorem not_infix_nil : ¬ ascii "\r\n\r\n" <:+: bytes [] := by decide

/-- What is before the first end of headers has none, also as a text. -/
theorem not_infix_lossy {data : List UInt8} {sep : ℕ} (h : findHeaderEnd data = some sep) :
    ¬ ascii "\r\n\r\n" <:+: bytes (fromUtf8Lossy (data.take sep)) := by
  intro hinfix
  have hend : ascii "\r\n\r\n" = bytes "\r\n\r\n".toList := by decide
  rw [hend] at hinfix
  have hbytes : bytes "\r\n\r\n".toList <:+: data.take sep :=
    infix_of_lossyFrom (by decide) (infix_of_bytes (by decide) hinfix)
  have hnone : find (ascii "\r\n\r\n") (data.take sep) = none := by
    refine find_prefix_eq_none h (List.take_prefix _ _) ?_
    have hlength : (ascii "\r\n\r\n").length = 4 := rfl
    rw [List.length_take, hlength]
    omega
  exact find_eq_none_iff.1 hnone (hend ▸ hbytes)

theorem accumulate_small (lower : List Char → List Char) (payload : List UInt8) (now : ℕ) {k : ℕ}
    (hs : ¬ ascii "\r\n\r\n" <:+: bytes s.headers ∧ s.buffer.length ≤ k) :
    ¬ ascii "\r\n\r\n" <:+: bytes (s.accumulate lower payload now).headers ∧
      (s.accumulate lower payload now).buffer.length ≤ k + payload.length := by
  have happend : (s.append payload now).buffer.length ≤ k + payload.length := by
    rw [ReassemblySession.append, List.length_append]
    omega
  unfold ReassemblySession.accumulate
  split_ifs
  · exact ⟨hs.1, happend⟩
  · cases hfind : findHeaderEnd (s.buffer ++ payload) with
    | none => exact ⟨hs.1, happend⟩
    | some sep =>
      have hheaders : ∀ headers, (s.readHeaders lower headers).headers = headers := fun headers => by
        unfold ReassemblySession.readHeaders
        cases s.kind <;> rfl
      refine ⟨?_, ?_⟩
      · show ¬ _ <:+: bytes (s.readHeaders lower _).headers
        rw [hheaders]
        exact not_infix_lossy hfind
      · show ((s.buffer ++ payload).drop (sep + 4)).length ≤ _
        rw [List.length_drop, List.length_append]
        omega

/-- The file of a message is what is behind its first end of headers. -/
theorem extractHttp_data {x : FileExtractor} {files : List ExtractedFile} {f : ExtractedFile}
    (h : x.extractHttp lower payload flow = some files) (hf : f ∈ files) :
    ∃ pos, find (ascii "\r\n\r\n") payload = some pos ∧ f.data = payload.drop (pos + 4) := by
  unfold FileExtractor.extractHttp at h
  cases hfind : find (ascii "\r\n\r\n") payload with
  | none =>
    rw [hfind] at h
    cases h
    cases hf
  | some pos =>
    simp only [hfind] at h
    split_ifs at h with hsize
    · cases h
      cases hf
    · obtain ⟨name, -, rfl⟩ := Option.map_eq_some_iff.1 h
      split_ifs at hf
      · cases hf
      · rw [List.mem_singleton.1 hf]
        exact ⟨pos, rfl, rfl⟩

/-- An end of headers can overlap with the one that is put between headers and body. -/
theorem length_drop_le {headers body : List UInt8} {pos : ℕ} (h : ¬ ascii "\r\n\r\n" <:+: headers)
    (hfind : find (ascii "\r\n\r\n") (headers ++ ascii "\r\n\r\n" ++ body) = some pos) :
    ((headers ++ ascii "\r\n\r\n" ++ body).drop (pos + 4)).length ≤ body.length + 3 := by
  have hlength : (ascii "\r\n\r\n").length = 4 := rfl
  have hpos : headers.length < pos + 4 := by
    by_contra hle
    obtain ⟨rest, hrest, hpos⟩ := eq_append_of_find hfind
    have hpre : (headers ++ ascii "\r\n\r\n" ++ body).take pos ++ ascii "\r\n\r\n" <+: headers := by
      refine List.prefix_of_prefix_length_le ⟨rest, hrest.symm⟩
        (by rw [List.append_assoc]; exact List.prefix_append _ _) ?_
      rw [List.length_append, List.length_take, hlength]
      omega
    exact h ((List.suffix_append _ _).isInfix.trans hpre.isInfix)
  rw [List.length_drop, List.length_append, List.length_append, hlength]
  omega

/-- A file is hardly longer than what was held and has come. -/
theorem pushHttp_small {k : ℕ} (h : Small r flow k) (isResponse : Bool) (now : ℕ) :
    (∀ r', (r.pushHttp lower payload flow isResponse now).1 = some r' → Small r' flow (k + payload.length)) ∧
      ∀ files, (r.pushHttp lower payload flow isResponse now).2 = some files →
        ∀ f ∈ files, f.data.length ≤ k + payload.length + 3 := by
  have hentry : ¬ ascii "\r\n\r\n" <:+: bytes (r.entry (httpKind isResponse) flow now).headers ∧
      (r.entry (httpKind isResponse) flow now).buffer.length ≤ k := by
    unfold entry
    cases hs : r.session? flow with
    | none => exact ⟨not_infix_nil, Nat.zero_le _⟩
    | some s => exact h s hs
  have hsmall := accumulate_small lower payload now hentry
  have hflow := (@accumulate_flow lower _ now payload).trans
    (@entry_flow r flow now (httpKind isResponse))
  unfold pushHttp
  generalize (r.entry (httpKind isResponse) flow now).accumulate lower payload now = s at hsmall hflow
  have hstore : Small (r.store s) flow (k + payload.length) := by
    intro t ht
    rw [session?_store, if_pos hflow] at ht
    cases ht
    exact hsmall
  dsimp only
  split_ifs with hdone hguard hcomplete
  · refine ⟨fun r' hr' => by cases hr'; exact hstore, fun files hfiles f hf => ?_⟩
    cases hfiles
    cases hf
  · exact ⟨fun r' hr' => (by cases hr'), fun files hfiles => (by cases hfiles)⟩
  · refine ⟨fun r' hr' => ?_, fun files hfiles f hf => ?_⟩
    · cases hr'
      intro t ht
      rw [session?_remove] at ht
      cases ht
    · obtain ⟨pos, hfind, hdata⟩ := extractHttp_data hfiles hf
      have := length_drop_le hsmall.1 hfind
      rw [hdata]
      omega
  · refine ⟨fun r' hr' => by cases hr'; exact hstore, fun files hfiles f hf => ?_⟩
    cases hfiles
    cases hf

/-! ## Payloads one after the other -/

/-- A payload, with the arguments that are the call's own. -/
structure Segment where
  payload : List UInt8
  isResponse : Bool
  now : ℕ

def Segment.call (flow : SessionKey) (g : Segment) : PushCall := .http g.payload flow g.isResponse g.now

/-- The calls of `push_http` for a stream. -/
def calls (flow : SessionKey) (gs : List Segment) : List PushCall := gs.map (Segment.call flow)

/-- What has arrived with some payloads. -/
def arrivedWith (gs : List Segment) : List UInt8 := gs.flatMap (·.payload)

theorem arrivedWith_append (gs gs' : List Segment) : arrivedWith (gs ++ gs') = arrivedWith gs ++ arrivedWith gs' :=
  List.flatMap_append

theorem calls_append (gs gs' : List Segment) : calls flow (gs ++ gs') = calls flow gs ++ calls flow gs' :=
  List.map_append

theorem arrivedWith_concat (gs : List Segment) (g : Segment) :
    arrivedWith (gs ++ [g]) = arrivedWith gs ++ g.payload := by
  simp [arrivedWith]

theorem outputs_blocked (pushes : List PushCall) : ∀ out ∈ Mealy.outputs (step lower) none pushes, out = none := by
  induction pushes with
  | nil => exact fun out h => by cases h
  | cons push pushes ih =>
    intro out h
    rcases List.mem_cons.1 h with rfl | h
    · rfl
    · exact ih out h

/-- The files of a run are hardly longer than what was held and has come. -/
theorem outputs_small (gs : List Segment) {r : FileReassembler} {k : ℕ} (h : Small r flow k) :
    ∀ out ∈ Mealy.outputs (step lower) (some r) (calls flow gs), ∀ files, out = some files →
      ∀ f ∈ files, f.data.length ≤ k + (arrivedWith gs).length + 3 := by
  induction gs generalizing r k with
  | nil => exact fun out hout => by cases hout
  | cons g gs ih =>
    obtain ⟨hnext, hfiles⟩ := @pushHttp_small lower _ g.payload _ _ h g.isResponse g.now
    have hlength : (arrivedWith (g :: gs)).length = g.payload.length + (arrivedWith gs).length := by
      simp [arrivedWith]
    intro out hout files hsome f hf
    rcases List.mem_cons.1 hout with rfl | hout
    · have := hfiles files hsome f hf
      omega
    · cases hr : (r.pushHttp lower g.payload flow g.isResponse g.now).1 with
      | none =>
        have hstate : (step lower (some r) (g.call flow)).1 = none := hr
        rw [hstate] at hout
        rw [outputs_blocked _ out hout] at hsome
        cases hsome
      | some r' =>
        have hstate : (step lower (some r) (g.call flow)).1 = some r' := hr
        rw [hstate] at hout
        have := ih (hnext r' hr) out hout files hsome f hf
        omega

/-- Without a premature cut, a part of the message is kept, and nothing is returned. -/
theorem keeps (hlower : IsLowercase lower) (hm : m.Valid lower) (h : Holds m flow r []) (gs : List Segment)
    (hp : arrivedWith gs <+: m.wire) (hne : arrivedWith gs ≠ m.wire)
    (hcut : ∀ p, p <+: gs → ¬ Premature m (arrivedWith p)) :
    ∃ r', Mealy.after (step lower) (some r) (calls flow gs) = some r' ∧ Holds m flow r' (arrivedWith gs) ∧
      Mealy.outputs (step lower) (some r) (calls flow gs) = List.replicate gs.length (some []) := by
  induction gs using List.reverseRecOn with
  | nil => exact ⟨r, rfl, h, rfl⟩
  | append_singleton gs g ih =>
    rw [arrivedWith_concat] at hp hne
    have hpart : arrivedWith gs <+: m.wire := (List.prefix_append _ _).trans hp
    have hpartne : arrivedWith gs ≠ m.wire := fun heq => by
      have := hp.length_le
      rw [List.length_append, heq] at this
      have hnil : g.payload = [] := List.length_eq_zero_iff.1 (by omega)
      exact hne (by rw [hnil, List.append_nil, heq])
    obtain ⟨r', hafter, hholds, houtputs⟩ := ih hpart hpartne fun p hp => hcut p (hp.trans (List.prefix_append _ _))
    have hcutnow := hcut _ List.prefix_rfl
    rw [arrivedWith_concat] at hcutnow
    obtain ⟨r'', hpush, hholds'⟩ := pushHttp_collects hlower hm hholds hp hne hcutnow g.isResponse g.now
    have hstep : step lower (some r') (g.call flow) = (some r'', some []) := hpush
    refine ⟨r'', ?_, by rwa [arrivedWith_concat], ?_⟩
    · rw [calls_append, Mealy.after_append, hafter]
      exact congrArg Prod.fst hstep
    · rw [calls_append, Mealy.outputs_append, hafter, houtputs, List.length_append, List.replicate_add]
      exact congrArg (fun out => _ ++ [out]) (congrArg Prod.snd hstep)

/-- The last payload ends what has been collected, as the whole message or as a part cut too early. -/
theorem ends (hlower : IsLowercase lower) (hm : m.Valid lower) (h : Holds m flow r []) (gs : List Segment) (g : Segment)
    (hp : arrivedWith (gs ++ [g]) <+: m.wire) (hne : arrivedWith gs ≠ m.wire)
    (hcut : ∀ p, p <+: gs → ¬ Premature m (arrivedWith p))
    (hend : arrivedWith (gs ++ [g]) = m.wire ∨ Premature m (arrivedWith (gs ++ [g]))) :
    ∃ r' : FileReassembler, Mealy.after (step lower) (some r) (calls flow (gs ++ [g])) = some (r'.remove flow) ∧
      Mealy.outputs (step lower) (some r) (calls flow (gs ++ [g])) = List.replicate gs.length (some []) ++
        [FileExtractor.new.extractHttp lower
          (bytes m.head ++ ascii "\r\n\r\n" ++ (arrivedWith (gs ++ [g])).drop m.headLength) flow] := by
  rw [arrivedWith_concat] at hp hend ⊢
  obtain ⟨r', hafter, hholds, houtputs⟩ := keeps hlower hm h gs ((List.prefix_append _ _).trans hp) hne hcut
  have hpush := pushHttp_complete hlower hm hholds hp hend g.isResponse g.now
  refine ⟨r', ?_, ?_⟩
  · rw [calls_append, Mealy.after_append, hafter]
    exact congrArg Prod.fst hpush
  · rw [calls_append, Mealy.outputs_append, hafter, houtputs]
    exact congrArg (fun out => _ ++ [out]) (congrArg Prod.snd hpush)

/-- Nothing but one file with the body comes, and with the last payload. -/
def Extracted (body : List UInt8) (outs : List (Option (List ExtractedFile))) : Prop :=
  ∃ f : ExtractedFile, f.data = body ∧ outs = List.replicate (outs.length - 1) (some []) ++ [some [f]]

theorem extracted_of_cuts (hlower : IsLowercase lower) (hm : m.Valid lower) (h : Holds m flow r []) (gs : List Segment)
    (hne : ∀ g ∈ gs, g.payload ≠ []) (hwire : arrivedWith gs = m.wire)
    (hcut : ∀ p, p <+: gs → ¬ Premature m (arrivedWith p)) :
    Extracted m.body (Mealy.outputs (step lower) (some r) (calls flow gs)) := by
  cases gs using List.reverseRecOn with
  | nil =>
    have := congrArg List.length hwire
    rw [length_wire, HttpMessage.headLength] at this
    simp [arrivedWith] at this
    omega
  | append_singleton gs g =>
    have hlast : arrivedWith gs ≠ m.wire := fun heq => by
      rw [arrivedWith_concat, heq] at hwire
      exact hne g (by simp) (List.append_right_eq_self.1 hwire)
    obtain ⟨-, -, houtputs⟩ := ends hlower hm h gs g (hwire ▸ List.prefix_rfl) hlast
      (fun p hp => hcut p (hp.trans (List.prefix_append _ _))) (Or.inl hwire)
    have hbody : bytes m.head ++ ascii "\r\n\r\n" ++ (arrivedWith (gs ++ [g])).drop m.headLength = m.wire := by
      rw [hwire, drop_headLength List.prefix_rfl, length_wire, Nat.add_sub_cancel_left, List.take_length]
      rfl
    obtain ⟨f, hf, hdata⟩ := @extractHttp_wire lower m flow hlower hm
    refine ⟨f, hdata, ?_⟩
    rw [houtputs, hbody, hf]
    simp

/-- The first prefix of a kind. -/
theorem exists_first_prefix {α : Type*} {Q : List α → Prop} (h0 : ¬ Q []) {l : List α} (h : ∃ p, p <+: l ∧ Q p) :
    ∃ front a rest, l = front ++ [a] ++ rest ∧ Q (front ++ [a]) ∧ ∀ p, p <+: front → ¬ Q p := by
  induction l using List.reverseRecOn with
  | nil =>
    obtain ⟨p, hp, hQ⟩ := h
    rw [List.prefix_nil.1 hp] at hQ
    exact absurd hQ h0
  | append_singleton l a ih =>
    by_cases hbefore : ∃ p, p <+: l ∧ Q p
    · obtain ⟨front, b, rest, rfl, hQ, hfirst⟩ := ih hbefore
      exact ⟨front, b, rest ++ [a], by simp, hQ, hfirst⟩
    · obtain ⟨p, hp, hQ⟩ := h
      rcases List.prefix_concat_iff.1 hp with rfl | hp
      · exact ⟨l, a, [], by simp, hQ, fun p hp hQ => hbefore ⟨p, hp, hQ⟩⟩
      · exact absurd ⟨p, hp, hQ⟩ hbefore

/-- After a premature cut, what is left is too short for the body. -/
theorem not_extracted_of_premature (hlower : IsLowercase lower) (hm : m.Valid lower) (h : Holds m flow r [])
    (gs : List Segment) (hwire : arrivedWith gs = m.wire) (hcut : ∃ p, p <+: gs ∧ Premature m (arrivedWith p)) :
    ¬ Extracted m.body (Mealy.outputs (step lower) (some r) (calls flow gs)) := by
  have h0 : ¬ Premature m (arrivedWith []) := by
    rintro ⟨i, hi, -⟩
    simp [arrivedWith, HttpMessage.headLength] at hi
    omega
  obtain ⟨front, g, rest, rfl, hpre, hfirst⟩ := exists_first_prefix (Q := fun p => Premature m (arrivedWith p)) h0 hcut
  obtain ⟨i, hi, hinside, hfive, -⟩ := id hpre
  rw [arrivedWith_append] at hwire
  have hlength := congrArg List.length hwire
  rw [List.length_append, length_wire] at hlength
  have hfront : arrivedWith front ≠ m.wire := fun heq => by
    rw [arrivedWith_concat, List.length_append, heq, length_wire] at hi
    omega
  obtain ⟨r', hafter, -⟩ := ends hlower hm h front g ⟨_, hwire⟩ hfront hfirst (Or.inr hpre)
  have hrest : rest ≠ [] := by
    rintro rfl
    simp only [arrivedWith, List.flatMap_nil, List.length_nil] at hlength hi
    omega
  rintro ⟨f, hdata, houtputs⟩
  -- the file comes with one of the payloads behind the cut
  have hmem : some [f] ∈ Mealy.outputs (step lower) (some (r'.remove flow)) (calls flow rest) := by
    rw [calls_append, Mealy.outputs_append, hafter] at houtputs
    have hne : Mealy.outputs (step lower) (some (r'.remove flow)) (calls flow rest) ≠ [] := fun hnil => by
      have hnone := congrArg List.length hnil
      rw [Mealy.length_outputs, calls, List.length_map, List.length_nil] at hnone
      exact hrest (List.length_eq_zero_iff.1 hnone)
    have hlast := congrArg List.getLast? houtputs
    rw [List.getLast?_append_of_ne_nil _ hne, List.getLast?_concat] at hlast
    exact List.mem_of_getLast? hlast
  have hsmall : Small (r'.remove flow) flow 0 := fun s hs => by
    rw [session?_remove] at hs
    cases hs
  have := outputs_small rest hsmall _ hmem [f] rfl f (by simp)
  rw [hdata] at this
  omega

/-- **File extraction from segments.** For every message and every way to cut it, exactly the body is extracted, as one
file and with the last payload, exactly if no payload ends inside the body behind more than five bytes of it the last
eight of which contain `0\r\n\r\n`. -/
theorem extracted_iff (hlower : IsLowercase lower) (hm : m.Valid lower) (r : FileReassembler)
    (hx : r.extractor = .new) (hmax : r.maxFileSize = 50 * 1024 * 1024) (hfresh : r.session? flow = none)
    (gs : List Segment) (hne : ∀ g ∈ gs, g.payload ≠ []) (hwire : arrivedWith gs = m.wire) :
    Extracted m.body (Mealy.outputs (step lower) (some r) (calls flow gs)) ↔
      ∀ p, p <+: gs → ¬ Premature m (arrivedWith p) := by
  have hholds : Holds m flow r [] := holds_nil hx hmax hfresh
  constructor
  · intro h p hp hpre
    exact not_extracted_of_premature hlower hm hholds gs hwire ⟨p, hp, hpre⟩ h
  · exact extracted_of_cuts hlower hm hholds gs hne hwire

/-- A PDF file of 64 bytes. -/
def pdfMessage (body : List UInt8) : HttpMessage where
  startLine := "HTTP/1.1 200 OK".toList
  fields := [("Content-Type".toList, " application/pdf".toList), ("Content-Length".toList, " 64".toList)]
  body := body

theorem pdfMessage_valid {body : List UInt8} (h : body.length = 64) :
    (pdfMessage body).Valid (List.map Char.toLower) where
  isAscii := (by decide +kernel : ∀ line ∈ (pdfMessage []).headLines, IsAscii line)
  noBreak := (by decide +kernel : ∀ line ∈ (pdfMessage []).headLines, '\r' ∉ line ∧ '\n' ∉ line)
  startLine := ⟨"HTTP/1.1".toList, "200 OK".toList, (by decide +kernel : (pdfMessage []).startLine = _), by decide⟩
  names := (by decide +kernel : ∀ f ∈ (pdfMessage []).fields, ':' ∉ f.1)
  hasLength := ⟨("Content-Length".toList, " 64".toList), .tail _ (.head _), by decide +kernel⟩
  length := by
    intro f hf hname
    rcases List.mem_pair.1 hf with rfl | rfl
    · exact absurd hname (by decide +kernel)
    · have hsize : Nat.ofDigitChars 10 ['6', '4'] 0 = body.length := by rw [h]; decide
      exact ⟨[' '], ['6', '4'], [], by decide +kernel, by simp, by simp, by decide, hsize⟩
  contentType := (by decide +kernel :
    (contentType (List.map Char.toLower) (pdfMessage []).head).any isInterestingMime = true)
  minSize := (by omega : 64 ≤ body.length)
  maxSize := (by omega : body.length ≤ 50 * 1024 * 1024)

/-- The ends of the examples. -/
def pdfFlow : SessionKey := ⟨"192.0.2.1", 80, "192.0.2.2", 54321⟩

/-- A message in two payloads. -/
def twoSegments (wire : List UInt8) (n : ℕ) : List Segment := [⟨wire.take n, true, 0⟩, ⟨wire.drop n, true, 1⟩]

theorem arrivedWith_twoSegments (wire : List UInt8) (n : ℕ) : arrivedWith (twoSegments wire n) = wire := by
  simp [arrivedWith, twoSegments]

theorem extracted_pdf : Extracted (List.replicate 64 0x41) (Mealy.outputs (step (List.map Char.toLower))
    (some (new .new)) (calls pdfFlow (twoSegments (pdfMessage (List.replicate 64 0x41)).wire 100))) := by
  refine (extracted_iff (m := pdfMessage (List.replicate 64 0x41)) (fun _ _ => rfl) (pdfMessage_valid (by simp))
    (new .new) rfl rfl rfl _ (by decide +kernel) (arrivedWith_twoSegments _ _)).2 ?_
  rintro p - ⟨i, -, -, -, hchunk⟩
  have hmem : (0x30 : UInt8) ∈ List.replicate 64 (0x41 : UInt8) :=
    List.mem_of_mem_take (List.mem_of_mem_drop (hchunk.subset (by decide)))
  exact absurd (List.eq_of_mem_replicate hmem) (by decide)

/-- A body that begins with what looks like a last chunk is lost when a payload ends there. -/
theorem body_lost : ¬ ∀ (lower : List Char → List Char), IsLowercase lower → ∀ m : HttpMessage, m.Valid lower →
    ∀ (flow : SessionKey) (r : FileReassembler), r.extractor = .new → r.maxFileSize = 50 * 1024 * 1024 →
    r.session? flow = none → ∀ gs : List Segment, (∀ g ∈ gs, g.payload ≠ []) → arrivedWith gs = m.wire →
    Extracted m.body (Mealy.outputs (step lower) (some r) (calls flow gs)) := by
  intro h
  let m := pdfMessage (0x41 :: ascii "0\r\n\r\n" ++ List.replicate 58 0x42)
  have hm : m.Valid (List.map Char.toLower) := pdfMessage_valid (by decide)
  have hholds : Holds m pdfFlow (new .new) [] := holds_nil rfl rfl rfl
  have hlower : IsLowercase (List.map Char.toLower) := fun _ _ => rfl
  refine not_extracted_of_premature hlower hm hholds (twoSegments m.wire (m.headLength + 6))
    (arrivedWith_twoSegments _ _) ⟨[⟨m.wire.take (m.headLength + 6), true, 0⟩], by simp [twoSegments], 6, ?_, ?_, ?_, ?_⟩
    (h _ hlower m hm pdfFlow (new .new) rfl rfl rfl _ (by decide +kernel) (arrivedWith_twoSegments _ _))
  all_goals decide +kernel

end FileReassembler

end ThorFirewall.Ids
