import Mathlib
import ThorFirewall.Ids.FileReassembler
import ThorFirewall.Lib.Base64

/-!
# Attachments of e-mails

An e-mail with attachments is a multipart message: header lines, one of which names a boundary, and behind each delimiter
a part with its own header lines, an empty line and the bytes in base64, folded into lines. It comes in pieces that are
collected up to the final call.

- `base64Decode_encode`: the decoder inverts the encoding of bytes;
- `extractPart_piece`, `splitMimeParts_text`: what is read from a part, and which parts there are;
- `attachments_extracted`: exactly the attachments are extracted, with their names trimmed.
-/

namespace ThorFirewall.Ids

open Text Utf8 TextSearch

/-! ## Base64 -/

theorem base64Lookup_digit : ∀ n < 64, base64Lookup (Base64.digit n).val.toUInt8 = some (UInt32.ofNat n) := by
  decide +kernel

theorem digit_ne_pad : ∀ n < 64, (Base64.digit n).val.toUInt8 ≠ 0x3D := by decide +kernel

theorem isAscii_encode (data : List UInt8) : IsAscii (Base64.encode data) :=
  Base64.forall_mem_encode (P := fun c => c.toNat < 128) (by decide +kernel) (by decide) data

section Digits

variable {u v w x : ℕ} (bs : List UInt8) (buf : UInt32)

theorem base64Loop_digit (hu : u < 64) (bits : UInt32) :
    base64Loop ((Base64.digit u).val.toUInt8 :: bs) buf bits =
      if 8 ≤ bits + 6 then Base64.byte (Base64.push buf (UInt32.ofNat u)) (bits + 6 - 8) ::
          base64Loop bs (Base64.push buf (UInt32.ofNat u)) (bits + 6 - 8)
        else base64Loop bs (Base64.push buf (UInt32.ofNat u)) (bits + 6) := by
  rw [base64Loop, if_neg (digit_ne_pad u hu), base64Lookup_digit u hu]
  rfl

/-- Two digits are a byte and four bits, whatever is left in the upper end of the word. -/
theorem base64Loop_two (hu : u < 64) (hv : v < 64) : ∃ rest,
    base64Loop ((Base64.digit u).val.toUInt8 :: (Base64.digit v).val.toUInt8 :: bs) buf 0 =
      UInt8.ofNat (u * 4 + v / 16) :: base64Loop bs (Base64.push rest (UInt32.ofNat v)) 4 := by
  refine ⟨Base64.push buf (UInt32.ofNat u), ?_⟩
  rw [base64Loop_digit _ _ hu, if_neg (by decide), base64Loop_digit _ _ hv, if_pos (by decide)]
  show Base64.byte _ 4 :: _ = _
  rw [Base64.byte_push_four hu hv]
  rfl

/-- A third digit is a byte with the four bits, and leaves two. -/
theorem base64Loop_three (hv : v < 64) (hw : w < 64) : ∃ rest,
    base64Loop ((Base64.digit w).val.toUInt8 :: bs) (Base64.push buf (UInt32.ofNat v)) 4 =
      UInt8.ofNat (v % 16 * 16 + w / 4) :: base64Loop bs (Base64.push rest (UInt32.ofNat w)) 2 := by
  refine ⟨Base64.push buf (UInt32.ofNat v), ?_⟩
  rw [base64Loop_digit _ _ hw, if_pos (by decide)]
  show Base64.byte _ 2 :: _ = _
  rw [Base64.byte_push_two hv hw]
  rfl

/-- A fourth digit is a byte with the two bits. -/
theorem base64Loop_four (hw : w < 64) (hx : x < 64) : ∃ rest,
    base64Loop ((Base64.digit x).val.toUInt8 :: bs) (Base64.push buf (UInt32.ofNat w)) 2 =
      UInt8.ofNat (w % 4 * 64 + x) :: base64Loop bs rest 0 := by
  refine ⟨Base64.push (Base64.push buf (UInt32.ofNat w)) (UInt32.ofNat x), ?_⟩
  rw [base64Loop_digit _ _ hx, if_pos (by decide)]
  show Base64.byte _ 0 :: _ = _
  rw [Base64.byte_push_zero hw hx]
  rfl

theorem base64Loop_pad (bits : UInt32) : base64Loop (('=' : Char).val.toUInt8 :: bs) buf bits = [] := rfl

end Digits

theorem base64Loop_encode (data : List UInt8) (buf : UInt32) :
    base64Loop ((Base64.encode data).map fun c => c.val.toUInt8) buf 0 = data := by
  have hbyte : ∀ b : UInt8, b.toNat < 256 := UInt8.toNat_lt
  have heq : ∀ (b : UInt8) (n : ℕ), n = b.toNat → UInt8.ofNat n = b := fun b n h => by rw [h, UInt8.ofNat_toNat]
  fun_induction Base64.encode data generalizing buf with
  | case1 => rfl
  | case2 a =>
    have := hbyte a
    obtain ⟨rest, htwo⟩ := base64Loop_two (u := a.toNat / 4) (v := a.toNat % 4 * 16)
      ((['=', '='] : List Char).map fun c => c.val.toUInt8) buf (by omega) (by omega)
    simp only [List.map_cons, List.map_nil] at htwo ⊢
    rw [htwo, base64Loop_pad, heq a _ (by omega)]
  | case3 a b =>
    have := hbyte a
    have := hbyte b
    obtain ⟨rest, htwo⟩ := base64Loop_two (u := a.toNat / 4) (v := a.toNat % 4 * 16 + b.toNat / 16)
      (([Base64.digit (b.toNat % 16 * 4), '='] : List Char).map fun c => c.val.toUInt8) buf (by omega) (by omega)
    obtain ⟨rest', hthree⟩ := base64Loop_three (v := a.toNat % 4 * 16 + b.toNat / 16) (w := b.toNat % 16 * 4)
      ((['='] : List Char).map fun c => c.val.toUInt8) rest (by omega) (by omega)
    simp only [List.map_cons, List.map_nil] at htwo hthree ⊢
    rw [htwo, hthree, base64Loop_pad, heq a _ (by omega), heq b _ (by omega)]
  | case4 a b c data ih =>
    have := hbyte a
    have := hbyte b
    have := hbyte c
    let bs := (Base64.encode data).map fun c => c.val.toUInt8
    obtain ⟨rest, htwo⟩ := base64Loop_two (u := a.toNat / 4) (v := a.toNat % 4 * 16 + b.toNat / 16)
      ((Base64.digit (b.toNat % 16 * 4 + c.toNat / 64)).val.toUInt8 :: (Base64.digit (c.toNat % 64)).val.toUInt8 :: bs)
      buf (by omega) (by omega)
    obtain ⟨rest', hthree⟩ := base64Loop_three (v := a.toNat % 4 * 16 + b.toNat / 16)
      (w := b.toNat % 16 * 4 + c.toNat / 64) ((Base64.digit (c.toNat % 64)).val.toUInt8 :: bs) rest (by omega) (by omega)
    obtain ⟨buf', hfour⟩ := base64Loop_four (w := b.toNat % 16 * 4 + c.toNat / 64) (x := c.toNat % 64) bs rest' (by omega)
      (by omega)
    simp only [List.map_cons]
    rw [htwo, hthree, hfour, ih, heq a _ (by omega), heq b _ (by omega), heq c _ (by omega)]

/-- **The decoder inverts the encoding**, for bytes of any number. -/
theorem base64Decode_encode (data : List UInt8) : base64Decode (Base64.encode data) = data := by
  rw [base64Decode, bytes_ascii (isAscii_encode data)]
  exact base64Loop_encode data 0

/-! ## Parts -/

/-- A file, the header lines around the one that names it, and the lines of its base64 text. -/
structure Attachment where
  name : List Char
  data : List UInt8
  before : List (List Char)
  after : List (List Char)
  fold : List (List Char)

namespace Attachment

def disposition (a : Attachment) : List Char :=
  "Content-Disposition: attachment; filename=".toList ++ ('"' :: a.name ++ ['"'])

def headers (a : Attachment) : List (List Char) := a.before ++ a.disposition :: a.after

def text (a : Attachment) : List Char :=
  "\r\n".toList.intercalate a.headers ++ emptyLine ++ "\r\n".toList.intercalate a.fold

/-- A name of one line without quotes; ASCII header lines, one of which tells the encoding and none of which names another
file before; base64 text in lines of any lengths. -/
structure Valid (a : Attachment) : Prop where
  name : IsAscii a.name ∧ '"' ∉ a.name ∧ '\'' ∉ a.name ∧ '\n' ∉ a.name
  header : ∀ line ∈ a.before ++ a.after, IsAscii line ∧ '\n' ∉ line ∧ line ≠ []
  before : ∀ line ∈ a.before, ¬ "content-disposition:".toList <+: line.map Char.toLower
  encoding : ∃ line ∈ a.before ++ a.after, line.map Char.toLower = "content-transfer-encoding: base64".toList
  fold : a.fold.flatten = Base64.encode a.data
  minSize : 64 ≤ a.data.length

/-- What is between two delimiters. -/
def piece (a : Attachment) : List Char := "\r\n".toList ++ a.text ++ "\r\n".toList

variable {a : Attachment}

theorem isAscii_start : IsAscii "Content-Disposition: attachment; filename=".toList := by decide +kernel

theorem header_lines (h : a.Valid) : ∀ line ∈ a.headers, IsAscii line ∧ '\n' ∉ line ∧ line ≠ [] := by
  intro line hline
  rcases List.mem_append.1 hline with hbefore | hline
  · exact h.header line (List.mem_append_left _ hbefore)
  · rcases List.mem_cons.1 hline with rfl | hafter
    · obtain ⟨hascii, -, -, hbreak⟩ := h.name
      unfold disposition
      refine ⟨isAscii_append.2 ⟨isAscii_start, isAscii_append.2 ⟨?_, by decide⟩⟩, ?_,
        List.append_ne_nil_of_right_ne_nil _ (by simp)⟩
      · exact List.forall_mem_cons.2 ⟨by decide, hascii⟩
      · rw [List.mem_append, not_or]
        exact ⟨by decide +kernel, by simp [hbreak]⟩
    · exact h.header line (List.mem_append_right _ hafter)

theorem isAscii_fold (h : a.Valid) : ∀ line ∈ a.fold, IsAscii line := by
  intro line hline c hc
  exact isAscii_encode a.data c (h.fold ▸ List.mem_flatten_of_mem hline hc)

theorem isAscii_piece (h : a.Valid) : IsAscii a.piece := by
  rw [piece, text, isAscii_append, isAscii_append, isAscii_append, isAscii_append]
  exact ⟨⟨by decide, ⟨isAscii_intercalate fun line hline => (header_lines h line hline).1, by decide⟩,
    isAscii_intercalate (isAscii_fold h)⟩, by decide⟩

/-- The piece begins with an empty line, and its headers end with one. -/
theorem piece_eq (a : Attachment) : a.piece = "\r\n".toList.intercalate ([] :: a.headers) ++ emptyLine ++
    ("\r\n".toList.intercalate a.fold ++ "\r\n".toList) := by
  obtain ⟨l, ls, hls⟩ : ∃ l ls, a.headers = l :: ls :=
    List.exists_cons_of_ne_nil (by simp [headers])
  rw [piece, text, hls, List.intercalate_cons_cons, ← hls, List.nil_append]
  simp only [List.append_assoc]

theorem find_piece (h : a.Valid) :
    find emptyLine a.piece = some ("\r\n".toList.intercalate ([] :: a.headers)).length := by
  rw [piece_eq]
  refine find_append (find_intercalate (List.cons_ne_nil _ _) (fun line hline => ?_) fun line hline => ?_) _
  · exact (header_lines h line hline).2.2
  rcases List.mem_cons.1 hline with rfl | hline
  · simp
  · exact (header_lines h line hline).2.1

theorem encode_solid : ∀ n < 64, isWhitespace (Base64.digit n) = false := by decide +kernel

theorem filter_encode (data : List UInt8) :
    (Base64.encode data).filter (fun c => !isWhitespace c) = Base64.encode data := by
  refine List.filter_eq_self.2 fun c hc => ?_
  rw [Base64.forall_mem_encode (P := fun c => isWhitespace c = false) encode_solid (by decide) data c hc]
  rfl

/-- **The bytes of a part.** -/
theorem extractBase64Attachment_piece {lower : List Char → List Char} (hlower : IsLowercase lower) (h : a.Valid) :
    extractBase64Attachment lower a.piece = some a.data := by
  have hencoding : (find "content-transfer-encoding: base64".toList (lower a.piece)).isSome = true := by
    rw [Option.isSome_iff_ne_none, ne_eq, find_eq_none_iff, not_not, hlower _ (isAscii_piece h)]
    obtain ⟨line, hline, hlow⟩ := h.encoding
    have hmem : line ∈ [] :: a.headers := by
      rw [headers, List.mem_cons, List.mem_append, List.mem_cons]
      rcases List.mem_append.1 hline with hline | hline <;> simp [hline]
    rw [← hlow]
    refine List.IsInfix.map Char.toLower ((@infix_intercalate _ "\r\n".toList _ _ hmem).trans ?_)
    rw [piece_eq]
    exact ((List.prefix_append _ _).trans (List.prefix_append _ _)).isInfix
  have hpos : find "\r\n\r\n".toList a.piece = some ("\r\n".toList.intercalate ([] :: a.headers)).length :=
    find_piece h
  have hdrop : a.piece.drop (("\r\n".toList.intercalate ([] :: a.headers)).length + 2) =
      "\r\n".toList ++ ("\r\n".toList.intercalate a.fold ++ "\r\n".toList) := by
    rw [piece_eq, List.append_assoc, ← List.drop_drop, List.drop_left]
    rfl
  have hbody : (trim ("\r\n".toList ++ ("\r\n".toList.intercalate a.fold ++ "\r\n".toList))).filter
      (fun c => !isWhitespace c) = Base64.encode a.data := by
    have hcrlf : "\r\n".toList.filter (fun c => !isWhitespace c) = [] := by decide
    rw [filter_trim, List.filter_append, List.filter_append, filter_intercalate hcrlf, hcrlf, h.fold, filter_encode,
      List.append_nil, List.nil_append]
  have hne : trim ("\r\n".toList ++ ("\r\n".toList.intercalate a.fold ++ "\r\n".toList)) ≠ [] := fun hnil => by
    rw [hnil] at hbody
    have hsize := h.minSize
    refine Base64.encode_ne_nil (fun hdata => ?_) hbody.symm
    rw [hdata, List.length_nil] at hsize
    omega
  unfold extractBase64Attachment
  rw [if_pos hencoding, hpos]
  simp only [Option.some_or, Option.map_some, Option.getD_some, hdrop]
  rw [if_neg hne, hbody, base64Decode_encode]

/-! ### Names -/

variable {lower : List Char → List Char}

theorem filenameIn_skip (hlower : IsLowercase lower) {ls : List (List Char)}
    (h : ∀ line ∈ ls, IsAscii line ∧ ¬ "content-disposition:".toList <+: line.map Char.toLower) (rest : List (List Char)) :
    filenameIn lower (ls ++ rest) = filenameIn lower rest := by
  induction ls with
  | nil => rfl
  | cons line ls ih =>
    obtain ⟨hascii, hother⟩ := h line (by simp)
    rw [List.cons_append, filenameIn, hlower line hascii,
      if_neg fun hp => hother (List.isPrefixOf_iff_prefix.1 hp)]
    exact ih fun line hline => h line (List.mem_cons_of_mem _ hline)

/-- The quotes around the name are taken off, and white space at its ends. -/
theorem trim_quoted (h : a.Valid) :
    trim (trimMatches '\'' (trimMatches '"' ('"' :: a.name ++ ['"']))) = trim a.name := by
  obtain ⟨-, hdouble, hsingle, -⟩ := h.name
  rw [trimMatches_quoted hdouble, trimMatches_of_notMem hsingle]

theorem filenameIn_disposition (hlower : IsLowercase lower) (h : a.Valid) (rest : List (List Char)) :
    filenameIn lower (a.disposition :: rest) = some (some (trim a.name)) := by
  have hascii : IsAscii a.disposition := (header_lines h _ (by simp [headers])).1
  generalize hstart : "Content-Disposition: attachment; filename=".toList = start
  have hdisposition : a.disposition = start ++ ('"' :: a.name ++ ['"']) := by rw [← hstart]; rfl
  have hlow : lower a.disposition = start.map Char.toLower ++ ('"' :: a.name ++ ['"']).map Char.toLower := by
    rw [hlower _ hascii, hdisposition, List.map_append]
  have hpre : "content-disposition:".toList <+: start.map Char.toLower := by
    rw [← hstart]
    decide +kernel
  have hfind : find "filename=".toList (start.map Char.toLower) = some 33 := by
    rw [← hstart]
    decide +kernel
  have hlength : start.length = 42 := by
    rw [← hstart]
    decide +kernel
  have hbytes : byteLength ((start.map Char.toLower).take 33) = 33 := by
    rw [← hstart]
    decide +kernel
  have htake : (lower a.disposition).take 33 = (start.map Char.toLower).take 33 := by
    rw [hlow, List.take_append_of_le_length (by rw [List.length_map]; omega)]
  have hdrop : dropBytes a.disposition 42 = some ('"' :: a.name ++ ['"']) := by
    rw [dropBytes_ascii hascii (by rw [hdisposition, List.length_append]; omega), hdisposition,
      List.drop_left' hlength]
  rw [filenameIn, if_pos (List.isPrefixOf_iff_prefix.2 (hlow ▸ hpre.trans (List.prefix_append _ _)))]
  have hfound : find "filename=".toList (lower a.disposition) = some 33 := by
    rw [hlow]
    exact find_append hfind _
  simp only [hfound, htake, hbytes, hdrop, Option.map_some, trim_quoted h]

theorem contentDispositionFilename_piece (hlower : IsLowercase lower) (h : a.Valid) :
    contentDispositionFilename lower a.piece = some (some (trim a.name)) := by
  have hlines : lines a.piece = ([] :: a.before) ++ a.disposition :: (a.after ++
      lines ("\r\n".toList ++ ("\r\n".toList.intercalate a.fold ++ "\r\n".toList))) := by
    have hjoin : a.piece = "\r\n".toList.intercalate ([] :: a.headers) ++ '\r' :: '\n' ::
        ("\r\n".toList ++ ("\r\n".toList.intercalate a.fold ++ "\r\n".toList)) := by
      rw [piece_eq, List.append_assoc]
      rfl
    rw [hjoin, lines_intercalate_append (List.cons_ne_nil _ _) fun line hline => ?_, headers]
    · simp only [List.cons_append, List.append_assoc]
    · rcases List.mem_cons.1 hline with rfl | hline
      · exact List.not_mem_nil
      · exact (header_lines h line hline).2.1
  rw [contentDispositionFilename, hlines, filenameIn_skip hlower, filenameIn_disposition hlower h]
  intro line hline
  rcases List.mem_cons.1 hline with rfl | hline
  · exact ⟨fun c hc => (by cases hc), by decide⟩
  · exact ⟨(h.header line (List.mem_append_left _ hline)).1, h.before line hline⟩

/-- **The file of a part.** -/
theorem extractPart_piece (hlower : IsLowercase lower) (h : a.Valid) (flow : SessionKey) :
    FileExtractor.new.extractPart lower a.piece flow =
      some [.new lower a.data (some (trim a.name)) .smtp flow] := by
  have hsize : ¬ a.data.length < FileExtractor.new.minSize := Nat.not_lt.2 h.minSize
  unfold FileExtractor.extractPart
  rw [extractBase64Attachment_piece hlower h, contentDispositionFilename_piece hlower h]
  exact if_neg hsize

end Attachment

/-! ## Messages -/

/-- Header lines, one of which names the boundary, and the attachments. -/
structure MimeMessage where
  before : List (List Char)
  after : List (List Char)
  boundary : List Char
  attachments : List Attachment

namespace MimeMessage

def boundaryLine (m : MimeMessage) : List Char :=
  "Content-Type: multipart/mixed; boundary=".toList ++ ('"' :: m.boundary ++ ['"'])

def headers (m : MimeMessage) : List (List Char) := m.before ++ m.boundaryLine :: m.after

def delim (m : MimeMessage) : List Char := "--".toList ++ m.boundary

/-- The parts, each before a delimiter, and what ends the last one. -/
def parts (m : MimeMessage) (attachments : List Attachment) : List Char :=
  attachments.foldr (fun a rest => a.piece ++ m.delim ++ rest) "--\r\n".toList

def text (m : MimeMessage) : List Char :=
  "\r\n".toList.intercalate m.headers ++ "\r\n".toList ++ m.delim ++ m.parts m.attachments

/-- A boundary without quotes, line breaks and white space at its ends; header lines without the delimiter, none of which
names a boundary before; parts without the delimiter. -/
structure Valid (m : MimeMessage) : Prop where
  isAscii : IsAscii m.boundary
  plain : '"' ∉ m.boundary ∧ '\r' ∉ m.boundary ∧ '\n' ∉ m.boundary
  ne_nil : m.boundary ≠ []
  head : ∀ c ∈ m.boundary.head?, isWhitespace c = false
  last : ∀ c ∈ m.boundary.getLast?, isWhitespace c = false
  header : ∀ line ∈ m.before ++ m.after, IsAscii line ∧ '\n' ∉ line ∧ ¬ m.delim <:+: line
  before : ∀ line ∈ m.before, ¬ "boundary=".toList <:+: line.map Char.toLower
  attachments : ∀ a ∈ m.attachments, a.Valid ∧ ¬ m.delim <:+: a.text

variable {m : MimeMessage} {lower : List Char → List Char}

theorem delim_plain (h : m.Valid) : '"' ∉ m.delim ∧ '\r' ∉ m.delim ∧ '\n' ∉ m.delim := by
  obtain ⟨hquote, hcr, hlf⟩ := h.plain
  simp [delim, hquote, hcr, hlf]

theorem delim_ne_nil : m.delim ≠ [] := by simp [delim]

theorem length_delim (h : m.Valid) : 2 < m.delim.length := by
  have := List.length_pos_of_ne_nil h.ne_nil
  rw [delim, List.length_append]
  show 2 < 2 + _
  omega

theorem not_infix_short (h : m.Valid) {l : List Char} (hl : l.length ≤ 2) : ¬ m.delim <:+: l := fun hi => by
  have := hi.length_le
  have := length_delim h
  omega

/-! ### Delimiters -/

theorem not_infix_boundaryLine (h : m.Valid) : ¬ m.delim <:+: m.boundaryLine := by
  have hstart : ¬ "--".toList <:+: "Content-Type: multipart/mixed; boundary=".toList :=
    find_eq_none_iff.1 (by decide +kernel)
  intro hi
  rcases infix_of_notMem (delim_plain h).1 hi with hi | hi
  · exact hstart ((List.prefix_append _ _).isInfix.trans hi)
  · rcases infix_of_notMem (m := []) (delim_plain h).1 hi with hi | hi
    · have := hi.length_le
      rw [delim, List.length_append] at this
      have htwo : "--".toList.length = 2 := rfl
      omega
    · exact not_infix_short h (by simp) hi

theorem header_lines (h : m.Valid) : ∀ line ∈ m.headers, IsAscii line ∧ '\n' ∉ line ∧ ¬ m.delim <:+: line := by
  intro line hline
  rcases List.mem_append.1 hline with hbefore | hline
  · exact h.header line (List.mem_append_left _ hbefore)
  · rcases List.mem_cons.1 hline with rfl | hafter
    · refine ⟨?_, ?_, not_infix_boundaryLine h⟩
      · unfold boundaryLine
        exact isAscii_append.2 ⟨by decide +kernel,
          isAscii_append.2 ⟨List.forall_mem_cons.2 ⟨by decide, h.isAscii⟩, by decide⟩⟩
      · unfold boundaryLine
        rw [List.mem_append, not_or]
        exact ⟨by decide +kernel, by simp [h.plain.2.2]⟩
    · exact h.header line (List.mem_append_right _ hafter)

/-- A delimiter begins behind the end of a line. -/
theorem find_delim (h : m.Valid) {l : List Char} (hl : ¬ m.delim <:+: l) :
    find m.delim (l ++ "\r\n".toList ++ m.delim) = some (l ++ "\r\n".toList).length := by
  have hcr : ¬ m.delim <:+: l ++ '\r' :: [] := fun hi =>
    (infix_of_notMem (delim_plain h).2.1 hi).elim hl (not_infix_short h (by simp))
  have hfind := find_behind (delim_plain h).2.2 hcr
  have hjoin : l ++ "\r\n".toList ++ m.delim = l ++ ['\r'] ++ '\n' :: m.delim := by simp
  rw [hjoin, hfind]
  simp

theorem split_parts (h : m.Valid) {attachments : List Attachment}
    (hparts : ∀ a ∈ attachments, ¬ m.delim <:+: a.text) :
    split m.delim (m.parts attachments) = attachments.map Attachment.piece ++ ["--\r\n".toList] := by
  induction attachments with
  | nil =>
    refine split_of_find_none (find_eq_none_iff.2 fun hi => ?_)
    exact (infix_of_notMem (l := "--".toList) (m := ['\n']) (delim_plain h).2.1 hi).elim
      (not_infix_short h (by decide)) (not_infix_short h (by decide))
  | cons a attachments ih =>
    have hpiece : ¬ m.delim <:+: "\r\n".toList ++ a.text := by
      intro hi
      rcases infix_of_notMem (l := []) (delim_plain h).2.1 hi with hi | hi
      · exact not_infix_short h (by simp) hi
      · rcases infix_of_notMem (l := []) (delim_plain h).2.2 hi with hi | hi
        · exact not_infix_short h (by simp) hi
        · exact hparts a (by simp) hi
    have hfind : find m.delim (a.piece ++ m.delim) = some a.piece.length := find_delim h hpiece
    rw [List.map_cons, List.cons_append, ← ih fun b hb => hparts b (List.mem_cons_of_mem _ hb)]
    exact split_append delim_ne_nil hfind _

/-! ### The boundary -/

theorem boundary_text (hlower : IsLowercase lower) (h : m.Valid) : Ids.boundary lower m.text = some m.boundary := by
  have hlines : lines m.text = m.before ++ m.boundaryLine :: (m.after ++ lines (m.delim ++ m.parts m.attachments)) := by
    have hjoin : m.text = "\r\n".toList.intercalate m.headers ++ '\r' :: '\n' ::
        (m.delim ++ m.parts m.attachments) := by
      simp [text]
    rw [hjoin, lines_intercalate_append (by simp [headers]) fun line hline => (header_lines h line hline).2.1, headers]
    simp only [List.cons_append, List.append_assoc]
  have hascii : IsAscii m.boundaryLine := (header_lines h _ (by simp [headers])).1
  have hbefore : m.before.find? (fun line => (find "boundary=".toList (lower line)).isSome) = none := by
    refine List.find?_eq_none.2 fun line hline => ?_
    rw [Bool.not_eq_true, Option.isSome_eq_false_iff, Option.isNone_iff_eq_none, find_eq_none_iff,
      hlower line (h.header line (List.mem_append_left _ hline)).1]
    exact h.before line hline
  generalize hstart : "Content-Type: multipart/mixed; boundary=".toList = start
  have hline : m.boundaryLine = start ++ ('"' :: m.boundary ++ ['"']) := by rw [← hstart]; rfl
  have hfind : find "boundary=".toList m.boundaryLine = some 31 := by
    rw [hline]
    refine find_append ?_ _
    rw [← hstart]
    decide +kernel
  have hfindlow : find "boundary=".toList (lower m.boundaryLine) = some 31 := by
    rw [hlower _ hascii, hline, List.map_append]
    refine find_append ?_ _
    rw [← hstart]
    decide +kernel
  have hlength : start.length = 31 + 9 := by
    rw [← hstart]
    decide +kernel
  have htrim : trim m.boundary = m.boundary := by
    have := trim_append (l := []) (r := []) rfl rfl h.head h.last
    rwa [List.nil_append, List.append_nil] at this
  unfold Ids.boundary
  rw [hlines, List.find?_append, hbefore, Option.none_or, List.find?_cons_of_pos (by rw [hfindlow]; rfl),
    Option.bind_some, hfind, Option.map_some, hline, List.drop_left' hlength, trimMatches_quoted h.plain.1, htrim]

/-- **The parts of a message.** -/
theorem splitMimeParts_text (hlower : IsLowercase lower) (h : m.Valid) :
    splitMimeParts lower m.text = m.attachments.map Attachment.piece ++ ["--\r\n".toList] := by
  have hheaders : ¬ m.delim <:+: "\r\n".toList.intercalate m.headers := fun hi => by
    obtain ⟨line, hline, hi⟩ := infix_of_intercalate delim_ne_nil (delim_plain h).2.1 (delim_plain h).2.2 hi
    exact (header_lines h line hline).2.2 hi
  have hsplit := split_append delim_ne_nil (find_delim h hheaders) (m.parts m.attachments)
  unfold splitMimeParts
  rw [boundary_text hlower h]
  show (split m.delim m.text).tail = _
  unfold text
  rw [hsplit, List.tail_cons, split_parts h fun a ha => (h.attachments a ha).2]

end MimeMessage

/-! ## Transfers -/

variable {lower : List Char → List Char} {m : MimeMessage} {flow : SessionKey}

/-- What is told of an attachment: its trimmed name and its bytes. -/
def Attachment.expected (a : Attachment) : Option (List Char) × List UInt8 := (some (trim a.name), a.data)

theorem extractParts_pieces (hlower : IsLowercase lower) {attachments : List Attachment}
    (h : ∀ a ∈ attachments, a.Valid) :
    ∃ files, FileExtractor.new.extractParts lower flow (attachments.map Attachment.piece ++ ["--\r\n".toList]) =
      some files ∧ files.map (fun f => (f.filename, f.data)) = attachments.map Attachment.expected := by
  induction attachments with
  | nil =>
    have hlast : lower "--\r\n".toList = "--\r\n".toList := by
      rw [hlower _ (by decide)]
      decide
    have hnone : extractBase64Attachment lower "--\r\n".toList = none := by
      unfold extractBase64Attachment
      rw [hlast]
      decide +kernel
    refine ⟨[], ?_, rfl⟩
    rw [List.map_nil, List.nil_append, FileExtractor.extractParts, FileExtractor.extractPart, hnone]
    rfl
  | cons a attachments ih =>
    obtain ⟨files, hfiles, hexpected⟩ := ih fun b hb => h b (List.mem_cons_of_mem _ hb)
    refine ⟨.new lower a.data (some (trim a.name)) .smtp flow :: files, ?_, ?_⟩
    · rw [List.map_cons, List.cons_append, FileExtractor.extractParts,
        Attachment.extractPart_piece hlower (h a (by simp)), Option.bind_some, hfiles]
      rfl
    · rw [List.map_cons, List.map_cons, hexpected]
      rfl

theorem extractSmtp_text (hlower : IsLowercase lower) (h : m.Valid) :
    ∃ files, FileExtractor.new.extractSmtp lower (bytes m.text) flow = some files ∧
      files.map (fun f => (f.filename, f.data)) = m.attachments.map Attachment.expected := by
  rw [FileExtractor.extractSmtp, fromUtf8_bytes, Option.getD_some, MimeMessage.splitMimeParts_text hlower h]
  exact extractParts_pieces hlower fun a ha => (h.attachments a ha).1

namespace FileReassembler

/-- The calls of `push_smtp` for a transfer: pieces with their times, and the final one. -/
def smtpCalls (flow : SessionKey) (pieces : List (List UInt8 × ℕ)) (final : List UInt8 × ℕ) : List PushCall :=
  pieces.map (fun g => .smtp g.1 flow false g.2) ++ [.smtp final.1 flow true final.2]

variable {r : FileReassembler}

/-- The pieces are collected, and nothing is returned. -/
theorem smtp_collects (hx : r.extractor = .new) (hfresh : r.session? flow = none) (pieces : List (List UInt8 × ℕ)) :
    ∃ r' : FileReassembler, Mealy.after (step lower) (some r) (pieces.map fun g => .smtp g.1 flow false g.2) = some r' ∧
      Mealy.outputs (step lower) (some r) (pieces.map fun g => .smtp g.1 flow false g.2) =
        List.replicate pieces.length (some []) ∧
      r'.extractor = .new ∧ r'.held flow = pieces.flatMap (·.1) := by
  induction pieces using List.reverseRecOn with
  | nil => exact ⟨r, rfl, rfl, hx, by simp [held, hfresh]⟩
  | append_singleton pieces g ih =>
    obtain ⟨r', hafter, houtputs, hx', hheld⟩ := ih
    have hpush : r'.pushSmtp lower g.1 flow false g.2 =
        (some (r'.store ((r'.entry .smtpData flow g.2).append g.1 g.2)), some []) := rfl
    refine ⟨r'.store ((r'.entry .smtpData flow g.2).append g.1 g.2), ?_, ?_, hx', ?_⟩
    · rw [List.map_append, Mealy.after_append, hafter]
      exact congrArg Prod.fst hpush
    · rw [List.map_append, Mealy.outputs_append, hafter, houtputs, List.length_append, List.replicate_add]
      exact congrArg (fun out => _ ++ [out]) (congrArg Prod.snd hpush)
    · rw [held, session?_store_append, Option.map_some, Option.getD_some, ReassemblySession.append, entry_buffer, hheld]
      simp

/-- The final call extracts what is held and what it brings. -/
theorem pushSmtp_final (data : List UInt8) (now : ℕ) :
    (r.pushSmtp lower data flow true now).2 = r.extractor.extractSmtp lower (r.held flow ++ data) flow := by
  simp only [pushSmtp, session?_store_append, store_extractor, append_flow, entry_flow]
  rw [ReassemblySession.append, entry_buffer]

/-- **E-mail attachments.** However a message is cut into pieces, the final call returns exactly its attachments, in
order, with their bytes and with their names without white space at the ends; the other calls return nothing. -/
theorem attachments_extracted (hlower : IsLowercase lower) (h : m.Valid) (r : FileReassembler)
    (hx : r.extractor = .new) (hfresh : r.session? flow = none) (pieces : List (List UInt8 × ℕ))
    (final : List UInt8 × ℕ) (hwire : pieces.flatMap (·.1) ++ final.1 = bytes m.text) :
    ∃ files : List ExtractedFile, Mealy.outputs (step lower) (some r) (smtpCalls flow pieces final) =
        List.replicate pieces.length (some []) ++ [some files] ∧
      files.map (fun f => (f.filename, f.data)) = m.attachments.map Attachment.expected := by
  obtain ⟨r', hafter, houtputs, hx', hheld⟩ := @smtp_collects lower _ _ hx hfresh pieces
  obtain ⟨files, hfiles, hexpected⟩ := @extractSmtp_text _ _ flow hlower h
  have hpush : (r'.pushSmtp lower final.1 flow true final.2).2 = some files := by
    rw [pushSmtp_final, hx', hheld, hwire, hfiles]
  refine ⟨files, ?_, hexpected⟩
  rw [smtpCalls, Mealy.outputs_append, hafter, houtputs]
  exact congrArg (fun out => _ ++ [out]) hpush

/-- Base64 text, the first 76 characters on a line of their own. -/
def folded (data : List UInt8) : List (List Char) := [(Base64.encode data).take 76, (Base64.encode data).drop 76]

theorem flatten_folded (data : List UInt8) : (folded data).flatten = Base64.encode data := by
  simp [folded]

/-- An attachment whose name begins with a blank. -/
def noteAttachment : Attachment where
  name := " a.txt".toList
  data := List.replicate 64 0
  before := []
  after := ["Content-Transfer-Encoding: base64".toList]
  fold := folded (List.replicate 64 0)

def scanAttachment : Attachment where
  name := "scan.png".toList
  data := List.replicate 72 255
  before := ["Content-Type: image/png".toList]
  after := ["Content-Transfer-Encoding: base64".toList]
  fold := folded (List.replicate 72 255)

theorem noteAttachment_valid : noteAttachment.Valid where
  name := by decide +kernel
  header := by decide +kernel
  before := by decide +kernel
  encoding := by decide +kernel
  fold := flatten_folded (List.replicate 64 0)
  minSize := List.length_replicate.ge

theorem scanAttachment_valid : scanAttachment.Valid where
  name := by decide +kernel
  header := by decide +kernel
  before := by decide +kernel
  encoding := by decide +kernel
  fold := flatten_folded (List.replicate 72 255)
  minSize := by
    show 64 ≤ (List.replicate 72 255).length
    rw [List.length_replicate]
    decide

def noteMessage : MimeMessage where
  before := []
  after := [[]]
  boundary := "b1".toList
  attachments := [noteAttachment, scanAttachment]

theorem noteMessage_valid : noteMessage.Valid where
  isAscii := by decide +kernel
  plain := by decide +kernel
  ne_nil := by decide +kernel
  head := by
    have hhead : noteMessage.boundary.head? = some 'b' := by decide +kernel
    rw [hhead]
    exact fun c hc => Option.some.inj hc ▸ by decide
  last := by
    have hlast : noteMessage.boundary.getLast? = some '1' := by decide +kernel
    rw [hlast]
    exact fun c hc => Option.some.inj hc ▸ by decide
  header := by
    have : ∀ line ∈ noteMessage.before ++ noteMessage.after,
        IsAscii line ∧ '\n' ∉ line ∧ find noteMessage.delim line = none := by decide +kernel
    exact fun line hline => (this line hline).imp_right (And.imp_right find_eq_none_iff.1)
  before := fun line hline => by cases hline
  attachments := by
    have hnote : find noteMessage.delim noteAttachment.text = none := by decide +kernel
    have hscan : find noteMessage.delim scanAttachment.text = none := by decide +kernel
    exact List.forall_mem_cons.2 ⟨⟨noteAttachment_valid, find_eq_none_iff.1 hnote⟩,
      List.forall_mem_singleton.2 ⟨scanAttachment_valid, find_eq_none_iff.1 hscan⟩⟩

theorem attachments_note : ∃ files : List ExtractedFile,
    Mealy.outputs (step (List.map Char.toLower)) (some (new .new))
        (smtpCalls ⟨"192.0.2.1", 25, "192.0.2.2", 54321⟩ [((bytes noteMessage.text).take 100, 0)]
          ((bytes noteMessage.text).drop 100, 1)) = List.replicate 1 (some []) ++ [some files] ∧
      files.map (fun f => (f.filename, f.data)) = noteMessage.attachments.map Attachment.expected :=
  attachments_extracted (fun _ _ => rfl) noteMessage_valid (new .new) rfl rfl _ _ (by simp)

/-- A blank in front of a name is lost. -/
theorem name_trimmed : ¬ ∀ (lower : List Char → List Char), IsLowercase lower → ∀ m : MimeMessage, m.Valid →
    ∀ (flow : SessionKey) (r : FileReassembler), r.extractor = .new → r.session? flow = none →
    ∀ (pieces : List (List UInt8 × ℕ)) (final : List UInt8 × ℕ),
    pieces.flatMap (·.1) ++ final.1 = bytes m.text →
    ∃ files : List ExtractedFile, Mealy.outputs (step lower) (some r) (smtpCalls flow pieces final) =
        List.replicate pieces.length (some []) ++ [some files] ∧
      files.map (fun f => (f.filename, f.data)) = m.attachments.map fun a => (some a.name, a.data) := by
  intro h
  have hlower : IsLowercase (List.map Char.toLower) := fun _ _ => rfl
  let flow : SessionKey := ⟨"192.0.2.1", 25, "192.0.2.2", 54321⟩
  obtain ⟨files, houtputs, hnames⟩ := h _ hlower noteMessage noteMessage_valid flow (new .new) rfl rfl []
    (bytes noteMessage.text, 0) rfl
  obtain ⟨files', hfiles, hexpected⟩ := @extractSmtp_text _ _ flow hlower noteMessage_valid
  have hrun : Mealy.outputs (step (List.map Char.toLower)) (some (new .new))
      (smtpCalls flow [] (bytes noteMessage.text, 0)) = [some files'] := by
    rw [← hfiles]
    exact congrArg (fun out => [out]) (pushSmtp_final (r := new .new) (bytes noteMessage.text) 0)
  rw [hrun, List.length_nil, List.replicate_zero, List.nil_append] at houtputs
  have heq : some files' = some files := (List.cons.inj houtputs).1
  cases heq
  rw [hexpected] at hnames
  exact absurd (congrArg (List.map Prod.fst) hnames) (by decide +kernel)

end FileReassembler

end ThorFirewall.Ids
