import ThorFirewall.Ids.FileExtractor
import ThorFirewall.Lib.Lowercase

/-!
# Slices of header lines (`ids/file_extractor.rs`)

`extract_content_disposition_filename` finds `filename=` in the lower-cased line, and slices the line itself there. The
two lines may differ in length: the position need not be one of the line's characters, and may be behind its end.

- `boundary_iff_level`: the slice is at a boundary of the line if and only if the characters in front of `filename=` have
  as many bytes in lower case, or the difference is that of whole characters next to it;
- `contentTypeSlice_eq`: the slice behind `content-type:` never panics;
- `extraction_returns_iff`: when an extraction returns.
-/

namespace ThorFirewall.Ids

open Text Utf8 TextSearch

variable (L : Lowercase)

/-- The characters in front of `filename=`, in a line that begins with `content-disposition:`; case is ignored. -/
def filenameFront (line : List Char) : Option ℕ :=
  if "content-disposition:".toList.isPrefixOf (line.map Char.toLower) then
    find "filename=".toList (line.map Char.toLower)
  else none

/-- The characters in front of `filename=` have as many bytes in lower case. If they have more, the others are those of
some characters behind `filename=`; if fewer, those of some characters up to its end. -/
def Level (line : List Char) (k : ℕ) : Prop :=
  let front := byteLength (line.take k)
  let lowered := byteLength ((line.take k).flatMap L.char)
  (∃ x, x <+: line.drop (k + 9) ∧ lowered = front + byteLength x) ∨
    ∃ x, x <:+ line.take (k + 9) ∧ lowered + byteLength x = front

/-- The first line that gives a name is level. -/
def Aligned (headers : List Char) : Prop :=
  ∀ line ∈ (lines headers).find? fun line => (filenameFront line).isSome,
    ∀ k ∈ filenameFront line, Level L line k

/-- `extract_content_type` with its slice; the outer `none` is a panic. -/
def contentTypeSlice (lower : List Char → List Char) (headers : List Char) : Option (Option (List Char)) :=
  match fieldLine lower "content-type:" headers with
  | none => some none
  | some line => (dropBytes line 13).map fun rest => some (trim ((trim rest).takeWhile (· ≠ ';')))

variable {L} {line : List Char} {k : ℕ}

theorem level_of_byteLength (h : byteLength ((line.take k).flatMap L.char) = byteLength (line.take k)) :
    Level L line k :=
  .inl ⟨[], List.nil_prefix, h⟩

theorem level_ascii (h : IsAscii (line.take k)) : Level L line k := by
  refine level_of_byteLength ?_
  rw [Lowercase.flatMap_char_ascii h, byteLength_ascii (isAscii_toLower h), byteLength_ascii h, List.length_map]

theorem dropBytes_ne_none_iff {s : List Char} {n : ℕ} : dropBytes s n ≠ none ↔ Boundary s n := by
  rw [Option.ne_none_iff_exists']
  simp only [dropBytes_eq_some_iff]
  exact exists_comm.trans (exists_congr fun a => exists_congr fun b => Iff.rfl)

theorem ofAscii_filename : Lowercase.OfAscii "filename=".toList := by decide +kernel

theorem ofAscii_disposition : Lowercase.OfAscii "content-disposition:".toList := by decide +kernel

theorem ofAscii_contentType : Lowercase.OfAscii "content-type:".toList := by decide +kernel

/-- The name of the field takes nine bytes. -/
theorem byteLength_take_add (h : find "filename=".toList (line.map Char.toLower) = some k) :
    byteLength (line.take (k + 9)) = byteLength (line.take k) + 9 := by
  obtain ⟨rest, hline, hk⟩ := eq_append_of_find h
  rw [List.length_map] at hk
  have hname : ((line.drop k).take 9).map Char.toLower = "filename=".toList := by
    rw [← List.map_take, List.append_assoc] at hline
    rw [List.map_take, List.map_drop, hline, List.drop_left' (by rw [List.length_map, List.length_take, min_eq_left hk])]
    exact List.take_left' rfl
  rw [List.take_add, byteLength_append, Lowercase.byteLength_of_map ofAscii_filename.1 hname]
  rfl

/-- **Where the slice is at a boundary.** -/
theorem boundary_iff_level (h : find "filename=".toList (line.map Char.toLower) = some k) :
    Boundary line (byteLength ((line.take k).flatMap L.char) + 9) ↔ Level L line k := by
  have hname := byteLength_take_add h
  have hline := List.take_append_drop (k + 9) line
  constructor
  · rintro ⟨a, b, hab, hlength⟩
    rcases List.append_eq_append_iff.1 (hline.trans hab) with ⟨x, ha, hb⟩ | ⟨x, ha, hb⟩
    · rw [ha, byteLength_append] at hlength
      exact .inl ⟨x, ⟨b, hb.symm⟩, by omega⟩
    · rw [ha, byteLength_append] at hname
      exact .inr ⟨x, ⟨a, ha.symm⟩, by omega⟩
  · rintro (⟨x, ⟨b, hx⟩, hlength⟩ | ⟨x, ⟨a, hx⟩, hlength⟩)
    · refine ⟨line.take (k + 9) ++ x, b, by rw [List.append_assoc, hx, hline], ?_⟩
      rw [byteLength_append]
      omega
    · refine ⟨a, x ++ line.drop (k + 9), by rw [← List.append_assoc, hx, hline], ?_⟩
      rw [← hx, byteLength_append] at hname
      omega

theorem isPrefixOf_text {t : List Char} (ht : Lowercase.OfAscii t) :
    t.isPrefixOf (L.text line) = t.isPrefixOf (line.map Char.toLower) := by
  rw [Bool.eq_iff_iff, List.isPrefixOf_iff_prefix, List.isPrefixOf_iff_prefix, Lowercase.prefix_text_iff ht]

/-- A line that gives no name is passed over. -/
theorem filenameIn_cons_none (h : filenameFront line = none) (rest : List (List Char)) :
    filenameIn L.text (line :: rest) = filenameIn L.text rest := by
  unfold filenameFront at h
  rw [filenameIn, isPrefixOf_text ofAscii_disposition]
  split_ifs at h ⊢ with hdisposition
  · have hfind := L.find_text line ofAscii_filename (List.cons_ne_nil _ _)
    rw [h] at hfind
    rw [hfind]
  · rfl

theorem filenameIn_cons_some (h : filenameFront line = some k) (rest : List (List Char)) :
    filenameIn L.text (line :: rest) ≠ none ↔ Level L line k := by
  unfold filenameFront at h
  rw [filenameIn, isPrefixOf_text ofAscii_disposition]
  split_ifs at h ⊢ with hdisposition
  have hfind := L.find_text line ofAscii_filename (List.cons_ne_nil _ _)
  rw [h] at hfind
  obtain ⟨pos, hpos, hlength⟩ := hfind
  rw [hpos]
  dsimp only
  rw [Ne, Option.map_eq_none_iff, ← Ne, dropBytes_ne_none_iff, hlength, boundary_iff_level h]

/-- **When the name is taken without a panic.** -/
theorem filenameIn_ne_none_iff (ls : List (List Char)) : filenameIn L.text ls ≠ none ↔
    ∀ line ∈ ls.find? fun line => (filenameFront line).isSome, ∀ k ∈ filenameFront line, Level L line k := by
  induction ls with
  | nil => exact iff_of_true nofun nofun
  | cons line rest ih =>
    cases hfront : filenameFront line with
    | none => rw [filenameIn_cons_none hfront, ih, List.find?_cons_of_neg (by rw [hfront]; exact Bool.false_ne_true)]
    | some k =>
      rw [filenameIn_cons_some hfront, List.find?_cons_of_pos (by rw [hfront]; rfl)]
      simp [hfront]

theorem contentDispositionFilename_ne_none_iff {headers : List Char} :
    contentDispositionFilename L.text headers ≠ none ↔ Aligned L headers := filenameIn_ne_none_iff _

/-- **The slice behind `content-type:`** is at a boundary. -/
theorem contentTypeSlice_eq (L : Lowercase) (headers : List Char) :
    contentTypeSlice L.text headers = some (contentType L.text headers) := by
  unfold contentTypeSlice contentType
  cases hline : fieldLine L.text "content-type:" headers with
  | none => rfl
  | some line =>
    have hstarts : "content-type:".toList <+: L.text line := by
      unfold fieldLine at hline
      have hfound := List.find?_some hline
      exact List.isPrefixOf_iff_prefix.1 hfound
    have hletters : (line.take 13).map Char.toLower = "content-type:".toList := by
      rw [List.map_take]
      exact (List.prefix_iff_eq_take.1 ((Lowercase.prefix_text_iff ofAscii_contentType).1 hstarts)).symm
    have hdrop : dropBytes line 13 = some (line.drop 13) :=
      dropBytes_eq_some_iff.2 ⟨line.take 13, (List.take_append_drop 13 line).symm,
        Lowercase.byteLength_of_map ofAscii_contentType.1 hletters⟩
    dsimp only
    rw [hdrop]
    rfl

/-! ## Extractions -/

variable (L)

/-- The headers of an HTTP message, if its body is extracted, are aligned. -/
def HttpAligned (x : FileExtractor) (payload : List UInt8) : Prop :=
  ∀ pos ∈ find (ascii "\r\n\r\n") payload, x.minSize ≤ (payload.drop (pos + 4)).length →
    (payload.drop (pos + 4)).length ≤ x.maxSize → Aligned L ((fromUtf8 (payload.take pos)).getD [])

/-- The parts of an e-mail, if their data is extracted, are aligned. -/
def SmtpAligned (x : FileExtractor) (payload : List UInt8) : Prop :=
  ∀ part ∈ splitMimeParts L.text ((fromUtf8 payload).getD []), ∀ data ∈ extractBase64Attachment L.text part,
    x.minSize ≤ data.length → Aligned L part

variable {L} {x : FileExtractor}

theorem extractHttp_ne_none_iff (payload : List UInt8) (flow : SessionKey) :
    x.extractHttp L.text payload flow ≠ none ↔ HttpAligned L x payload := by
  unfold FileExtractor.extractHttp HttpAligned
  cases find (ascii "\r\n\r\n") payload with
  | none => exact iff_of_true nofun nofun
  | some pos =>
    simp only [Option.mem_some_iff, forall_eq']
    split_ifs with hsize
    · refine iff_of_true nofun fun hmin hmax => ?_
      omega
    · rw [Ne, Option.map_eq_none_iff, ← Ne, contentDispositionFilename_ne_none_iff]
      exact ⟨fun h _ _ => h, fun h => h (by omega) (by omega)⟩

theorem extractPart_ne_none_iff (part : List Char) (flow : SessionKey) : x.extractPart L.text part flow ≠ none ↔
    ∀ data ∈ extractBase64Attachment L.text part, x.minSize ≤ data.length → Aligned L part := by
  unfold FileExtractor.extractPart
  cases extractBase64Attachment L.text part with
  | none => exact iff_of_true nofun nofun
  | some data =>
    simp only [Option.mem_some_iff, forall_eq']
    split_ifs with hsize
    · exact iff_of_true nofun fun hmin => absurd hmin (Nat.not_le.2 hsize)
    · rw [Ne, Option.map_eq_none_iff, ← Ne, contentDispositionFilename_ne_none_iff]
      exact ⟨fun h _ => h, fun h => h (Nat.le_of_not_lt hsize)⟩

theorem extractParts_ne_none_iff (parts : List (List Char)) (flow : SessionKey) :
    x.extractParts L.text flow parts ≠ none ↔ ∀ part ∈ parts, x.extractPart L.text part flow ≠ none := by
  induction parts with
  | nil => exact iff_of_true nofun nofun
  | cons part parts ih =>
    rw [FileExtractor.extractParts, List.forall_mem_cons, ← ih]
    cases x.extractPart L.text part flow with
    | none => exact iff_of_false (fun h => h rfl) fun h => h.1 rfl
    | some files => rw [Option.bind_some, Ne, Option.map_eq_none_iff]; exact (and_iff_right nofun).symm

theorem extractSmtp_ne_none_iff (payload : List UInt8) (flow : SessionKey) :
    x.extractSmtp L.text payload flow ≠ none ↔ SmtpAligned L x payload := by
  rw [FileExtractor.extractSmtp, extractParts_ne_none_iff]
  exact forall₂_congr fun part _ => extractPart_ne_none_iff part flow

/-- **When an extraction returns**: the lines from which names are taken are level. -/
theorem extraction_returns_iff (L : Lowercase) (x : FileExtractor) (payload : List UInt8) (flow : SessionKey) :
    ((x.extractHttp L.text payload flow ≠ none ↔ HttpAligned L x payload) ∧
      (x.extractSmtp L.text payload flow ≠ none ↔ SmtpAligned L x payload)) ∧
    ∀ headers, contentTypeSlice L.text headers = some (contentType L.text headers) :=
  ⟨⟨extractHttp_ne_none_iff payload flow, extractSmtp_ne_none_iff payload flow⟩, contentTypeSlice_eq L⟩

def attachmentHeaders : List Char := "Content-Disposition: attachment; filename=\"a.exe\"".toList

theorem attachment_returns : FileExtractor.new.extractHttp Lowercase.simple.text
    (bytes attachmentHeaders ++ ascii "\r\n\r\n" ++ List.replicate 64 0)
    ⟨"192.0.2.1", 80, "192.0.2.2", 54321⟩ ≠ none := by
  have hfind : find (ascii "\r\n\r\n") (bytes attachmentHeaders ++ ascii "\r\n\r\n" ++ List.replicate 64 0) =
      some 49 := by decide +kernel
  have hheaders : (bytes attachmentHeaders ++ ascii "\r\n\r\n" ++ List.replicate 64 0).take 49 =
      bytes attachmentHeaders := by decide +kernel
  have hline : (lines attachmentHeaders).find? (fun line => (filenameFront line).isSome) = some attachmentHeaders := by
    decide +kernel
  refine (extraction_returns_iff Lowercase.simple _ _ _).1.1.2 fun pos hpos _ _ => ?_
  rw [hfind] at hpos
  obtain rfl := Option.some.inj hpos
  rw [hheaders, fromUtf8_bytes, Option.getD_some, Aligned, hline]
  rintro line hmem k -
  obtain rfl := Option.some.inj hmem
  have hascii : IsAscii attachmentHeaders := by decide +kernel
  exact level_ascii fun c hc => hascii c (List.mem_of_mem_take hc)

/-! ## A name at the end of its line -/

def dottedHeaders : List Char := "Content-Disposition: \u0130; filename=".toList

/-- The position in the lower-cased line is behind the end of the line. -/
theorem dotted_name_panics : FileExtractor.new.extractHttp Lowercase.simple.text
    (bytes dottedHeaders ++ ascii "\r\n\r\n" ++ List.replicate 64 0) ⟨"192.0.2.1", 80, "192.0.2.2", 54321⟩ = none := by
  have hfind : find (ascii "\r\n\r\n") (bytes dottedHeaders ++ ascii "\r\n\r\n" ++ List.replicate 64 0) = some 34 := by
    decide +kernel
  have hname : contentDispositionFilename Lowercase.simple.text dottedHeaders = none := by decide +kernel
  have hheaders : (bytes dottedHeaders ++ ascii "\r\n\r\n" ++ List.replicate 64 0).take 34 = bytes dottedHeaders := by
    decide +kernel
  rw [FileExtractor.extractHttp, hfind]
  dsimp only
  rw [if_neg (by decide +kernel), hheaders, fromUtf8_bytes, Option.getD_some, hname]
  rfl

end ThorFirewall.Ids
