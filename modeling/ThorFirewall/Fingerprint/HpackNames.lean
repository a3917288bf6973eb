import ThorFirewall.Fingerprint.Ja4h

/-!
# The names in a header block (`fingerprint/ja4h.rs`)

In HPACK a literal field with a new name is its first byte, the name and the value. `parse_hpack_header_names` takes
such a field for one whose name is in a table, and goes on two bytes behind its beginning: it expects a zero byte
between the first byte and the name.

- `Reads`: what it reads in any bytes, as a notation of its own;
- `parseHpackHeaderNames_reads`: it finds the names that are written in this notation;
- `sublist_of_reads`: of fields without a zero byte in their texts, names are read in their order, the first one never;
- `names_extracted`: the names of a block are extracted if it has no literal; a block of such fields, or one without any
  zero byte, has none if they are.
-/

namespace ThorFirewall.Fingerprint

open ByteReader Utf8
open Text (bytes)

/-! ## Header blocks -/

/-- A string that is not Huffman coded. -/
def hpackString (s : List Char) : List UInt8 := UInt8.ofNat (bytes s).length :: bytes s

/-- A field of a header block: an index of one byte, or a literal with a new name, with incremental indexing (0x40) or
without indexing (0x00). -/
inductive HeaderField
  | indexed (b : UInt8) (h : 0x80 < b ∧ b < 0xff)
  | literal (first : UInt8) (hfirst : first = 0x40 ∨ first = 0x00) (name value : List Char)
      (hname : (bytes name).length < 127) (hvalue : (bytes value).length < 127)

def HeaderField.encode : HeaderField → List UInt8
  | .indexed b _ => [b]
  | .literal first _ name value _ _ => first :: (hpackString name ++ hpackString value)

def HeaderField.literalName : HeaderField → Option (List Char)
  | .indexed _ _ => none
  | .literal _ _ name _ _ _ => some name

def headerBlock (fields : List HeaderField) : List UInt8 := fields.flatMap HeaderField.encode

def literalNames (fields : List HeaderField) : List (List Char) := fields.filterMap HeaderField.literalName

/-! ## The notation that is read -/

/-- The first byte of a literal field. -/
def IsLiteral (b : UInt8) : Prop := b &&& 0x80 = 0 ∧ (b &&& 0x40 ≠ 0 ∨ b &&& 0xf0 = 0 ∨ b &&& 0xf0 = 0x10)

/-- The bytes are a string, which is taken for this text. -/
def IsString (s : List UInt8) (text : List Char) : Prop :=
  ∃ first body, s = first :: body ∧ body.length = (first &&& 0x7f).toNat ∧
    text = if first &&& 0x80 ≠ 0 then "(hpack-huffman)".toList else (fromUtf8 body).getD []

/-- No string begins here. -/
def Unreadable (rest : List UInt8) : Prop := ∀ s text, IsString s text → ¬ s <+: rest

/-- The names that are read in the bytes. -/
inductive Reads : List UInt8 → List (List Char) → Prop
  | nil : Reads [] []
  | other {b : UInt8} {rest : List UInt8} {names : List (List Char)} (hb : ¬ IsLiteral b) (h : Reads rest names) :
      Reads (b :: rest) names
  | last {b : UInt8} (hb : IsLiteral b) : Reads [b] []
  | known {b c : UInt8} {rest : List UInt8} {names : List (List Char)} (hb : IsLiteral b) (hc : c ≠ 0)
      (h : Reads rest names) : Reads (b :: c :: rest) names
  | short {b : UInt8} {rest : List UInt8} {names : List (List Char)} (hb : IsLiteral b) (hrest : Unreadable rest)
      (h : Reads (rest.drop 1) names) : Reads (b :: 0 :: rest) names
  | bare {b : UInt8} {s rest : List UInt8} {name : List Char} {names : List (List Char)} (hb : IsLiteral b)
      (hname : IsString s name) (hvalue : Unreadable rest) (h : Reads rest names) :
      Reads (b :: 0 :: (s ++ rest)) (name :: names)
  | new {b : UInt8} {s v rest : List UInt8} {name value : List Char} {names : List (List Char)} (hb : IsLiteral b)
      (hname : IsString s name) (hvalue : IsString v value) (h : Reads rest names) :
      Reads (b :: 0 :: (s ++ (v ++ rest))) (name :: names)

variable {data rest s : List UInt8} {text : List Char} {names : List (List Char)}

theorem IsString.ne_nil (h : IsString s text) : s ≠ [] := by
  obtain ⟨first, body, rfl, -⟩ := h
  exact List.cons_ne_nil _ _

theorem hpackReadString_cons (first : UInt8) (rest : List UInt8) : hpackReadString (first :: rest) =
    if (first &&& 0x7f).toNat ≤ rest.length then
      .ok (if first &&& 0x80 ≠ 0 then "(hpack-huffman)".toList
        else (fromUtf8 (rest.take (first &&& 0x7f).toNat)).getD [], 1 + (first &&& 0x7f).toNat)
    else .error .rejected := by
  have hbyte : byteAt (first :: rest) 0 = .ok first := rfl
  have hiff : 1 + (first &&& 0x7f).toNat ≤ (first :: rest).length ↔ (first &&& 0x7f).toNat ≤ rest.length := by
    rw [List.length_cons]
    omega
  unfold hpackReadString
  rw [require_of (List.cons_ne_nil first rest)]
  simp only [bind, Except.bind, hbyte]
  by_cases hle : (first &&& 0x7f).toNat ≤ rest.length
  · have hslice : slice (first :: rest) 1 (1 + (first &&& 0x7f).toNat) = .ok (rest.take (first &&& 0x7f).toNat) := by
      rw [slice, if_pos ⟨Nat.le_add_right _ _, hiff.2 hle⟩, Nat.add_sub_cancel_left]
      rfl
    rw [require_of (hiff.2 hle), if_pos hle]
    simp only [hslice]
    by_cases hhuffman : first &&& 0x80 = 0
    · rw [if_neg (not_not.2 hhuffman), if_neg (by simpa using hhuffman)]
      rfl
    · rw [if_pos hhuffman, if_pos (by simpa using hhuffman)]
      rfl
  · rw [require, if_neg (mt hiff.1 hle), if_neg hle]

/-- A string is read. -/
theorem attempt_string (h : IsString s text) (rest : List UInt8) :
    attempt (hpackReadString (s ++ rest)) = .ok (some (text, s.length)) := by
  obtain ⟨first, body, rfl, hlength, rfl⟩ := h
  rw [List.cons_append, hpackReadString_cons, ← hlength, if_pos (by simp), List.take_left, List.length_cons,
    Nat.add_comm]
  rfl

/-- Nothing is read where no string begins. -/
theorem attempt_unreadable (h : Unreadable data) : attempt (hpackReadString data) = .ok none := by
  cases data with
  | nil => rfl
  | cons first rest =>
    rw [hpackReadString_cons, if_neg]
    · rfl
    intro hle
    refine h (first :: rest.take (first &&& 0x7f).toNat) _ ⟨first, _, rfl, ?_, rfl⟩ ?_
    · rw [List.length_take, Nat.min_eq_left hle]
    · exact (List.prefix_cons_inj first).2 (List.take_prefix _ _)

/-- A string begins in the data, or none does. -/
theorem exists_string_or (data : List UInt8) :
    (∃ s text rest, IsString s text ∧ data = s ++ rest) ∨ Unreadable data := by
  by_cases h : Unreadable data
  · exact Or.inr h
  · simp only [Unreadable, not_forall, not_not] at h
    obtain ⟨s, text, hs, rest, rfl⟩ := h
    exact Or.inl ⟨s, text, rest, hs, rfl⟩

/-- Something is read in any bytes. -/
theorem exists_reads (data : List UInt8) : ∃ names, Reads data names := by
  induction hn : data.length using Nat.strong_induction_on generalizing data with
  | _ n ih =>
    subst hn
    match data with
    | [] => exact ⟨[], .nil⟩
    | [b] =>
      by_cases hb : IsLiteral b
      · exact ⟨[], .last hb⟩
      · exact ⟨[], .other hb .nil⟩
    | b :: c :: rest =>
      have hshorter (part : List UInt8) (h : part.length ≤ rest.length + 1) : ∃ names, Reads part names :=
        ih part.length (by simp only [List.length_cons]; omega) part rfl
      by_cases hb : IsLiteral b
      · by_cases hc : c = 0
        · subst hc
          rcases exists_string_or rest with ⟨s, name, rest, hs, rfl⟩ | hrest
          · rcases exists_string_or rest with ⟨v, value, rest, hv, rfl⟩ | hvalue
            · obtain ⟨names, h⟩ := hshorter rest (by simp only [List.length_append]; omega)
              exact ⟨_, .new hb hs hv h⟩
            · obtain ⟨names, h⟩ := hshorter rest (by rw [List.length_append]; omega)
              exact ⟨_, .bare hb hs hvalue h⟩
          · obtain ⟨names, h⟩ := hshorter (rest.drop 1) (by rw [List.length_drop]; omega)
            exact ⟨_, .short hb hrest h⟩
        · obtain ⟨names, h⟩ := hshorter rest (by omega)
          exact ⟨_, .known hb hc h⟩
      · obtain ⟨names, h⟩ := hshorter (c :: rest) (by rw [List.length_cons])
        exact ⟨_, .other hb h⟩

/-! ## The scanner -/

section Scanner

variable (toLowercase : List Char → List Char) {payload bs : List UInt8} {i : ℕ} {b c : UInt8}

theorem at_of_drop (h : payload.drop i = b :: bs) : At payload i (b :: bs) ∧ i < payload.length := by
  have hlt : i < payload.length := by
    by_contra hge
    rw [List.drop_eq_nil_of_le (Nat.le_of_not_lt hge)] at h
    cases h
  exact ⟨⟨hlt.le, h ▸ List.prefix_rfl⟩, hlt⟩

theorem drop_front {front rest : List UInt8} {n : ℕ} (h : payload.drop i = front ++ rest) (hn : front.length = n) :
    payload.drop (i + n) = rest := by
  rw [← List.drop_drop, h, ← hn, List.drop_left]

theorem slice_rest_eq (h : i ≤ payload.length) : slice payload i payload.length = .ok (payload.drop i) := by
  rw [slice, if_pos ⟨h, Nat.le_refl _⟩, List.take_of_length_le (by rw [List.length_drop])]

/-- A byte that begins no literal. -/
theorem parse_other (h : payload.drop i = b :: bs) (hb : ¬ IsLiteral b) (headers : Http2HeadersMeta) :
    parseHpackHeaderNames toLowercase payload i headers =
      parseHpackHeaderNames toLowercase payload (i + 1) headers := by
  obtain ⟨hat, hlt⟩ := at_of_drop h
  rw [parseHpackHeaderNames, dif_pos hlt, byteAt_of_at hat]
  simp only [bind, Except.bind]
  by_cases hindexed : b &&& 0x80 = 0
  · rw [if_neg (not_not.2 hindexed), if_neg fun hkind => hb ⟨hindexed, hkind⟩]
  · rw [if_pos hindexed]

/-- The first byte of a literal, behind which nothing is left. -/
theorem parse_last (h : payload.drop i = [b]) (hb : IsLiteral b) (headers : Http2HeadersMeta) :
    parseHpackHeaderNames toLowercase payload i headers = .ok headers := by
  obtain ⟨hat, hlt⟩ := at_of_drop h
  have hend : payload.length ≤ i + 1 := List.drop_eq_nil_iff.1 (@drop_front _ _ [b] _ 1 h rfl)
  rw [parseHpackHeaderNames, dif_pos hlt, byteAt_of_at hat]
  simp only [bind, Except.bind]
  rw [if_neg (not_not.2 hb.1), if_pos hb.2, if_pos hend]
  rfl

/-- A literal whose name seems to be in a table. -/
theorem parse_known (h : payload.drop i = b :: c :: bs) (hb : IsLiteral b) (hc : c ≠ 0) (headers : Http2HeadersMeta) :
    parseHpackHeaderNames toLowercase payload i headers =
      parseHpackHeaderNames toLowercase payload (i + 2) headers := by
  obtain ⟨hat, hlt⟩ := at_of_drop h
  obtain ⟨hat', hlt'⟩ := at_of_drop (show payload.drop (i + 1) = c :: bs by rw [← List.drop_drop, h]; rfl)
  rw [parseHpackHeaderNames, dif_pos hlt, byteAt_of_at hat]
  simp only [bind, Except.bind]
  rw [if_neg (not_not.2 hb.1), if_pos hb.2, if_neg (Nat.not_le.2 hlt'), byteAt_of_at hat']
  simp only
  rw [if_neg hc]

theorem parse_short (h : payload.drop i = b :: 0 :: bs) (hb : IsLiteral b) (hbs : Unreadable bs)
    (headers : Http2HeadersMeta) : parseHpackHeaderNames toLowercase payload i headers =
      parseHpackHeaderNames toLowercase payload (i + 3) headers := by
  obtain ⟨hat, hlt⟩ := at_of_drop h
  have hdrop : payload.drop (i + 1 + 1) = bs := by rw [Nat.add_assoc, ← List.drop_drop, h]; rfl
  obtain ⟨hat', hlt'⟩ := at_of_drop (show payload.drop (i + 1) = 0 :: bs by rw [← List.drop_drop, h]; rfl)
  rw [parseHpackHeaderNames, dif_pos hlt, byteAt_of_at hat]
  simp only [bind, Except.bind]
  rw [if_neg (not_not.2 hb.1), if_pos hb.2, if_neg (Nat.not_le.2 hlt'), byteAt_of_at hat', slice_rest_eq hlt', hdrop]
  dsimp only
  rw [if_pos rfl, attempt_unreadable hbs]

/-- A literal whose name is read, and its value with it where one is. -/
theorem parse_named {found : Option (List Char × ℕ)} (h : payload.drop i = b :: 0 :: (s ++ rest)) (hb : IsLiteral b)
    (hname : IsString s text) (hvalue : attempt (hpackReadString rest) = .ok found) (headers : Http2HeadersMeta) :
    parseHpackHeaderNames toLowercase payload i headers =
      parseHpackHeaderNames toLowercase payload (i + 2 + s.length + (found.elim 0 Prod.snd))
        (headers.push toLowercase text) := by
  obtain ⟨hat, hlt⟩ := at_of_drop h
  have hdrop : payload.drop (i + 1 + 1) = s ++ rest := by rw [Nat.add_assoc, ← List.drop_drop, h]; rfl
  have hdrop' : payload.drop (i + 1 + 1 + s.length) = rest := by rw [← List.drop_drop, hdrop, List.drop_left]
  have hle : i + 1 + 1 + s.length ≤ payload.length := by
    have hlength := congrArg List.length hdrop
    rw [List.length_drop, List.length_append] at hlength
    have := List.length_pos_of_ne_nil hname.ne_nil
    omega
  obtain ⟨hat', hlt'⟩ := at_of_drop (show payload.drop (i + 1) = 0 :: (s ++ rest) by rw [← List.drop_drop, h]; rfl)
  rw [parseHpackHeaderNames, dif_pos hlt, byteAt_of_at hat]
  simp only [bind, Except.bind]
  rw [if_neg (not_not.2 hb.1), if_pos hb.2, if_neg (Nat.not_le.2 hlt'), byteAt_of_at hat', slice_rest_eq hlt', hdrop]
  dsimp only
  rw [if_pos rfl, attempt_string hname]
  dsimp only
  rw [slice_rest_eq hle, hdrop']
  dsimp only
  rw [hvalue]
  cases found <;> rfl

/-- **The scanner finds the names** that the bytes write in its notation. -/
theorem parseHpackHeaderNames_reads (h : Reads data names) (hdata : payload.drop i = data)
    (headers : Http2HeadersMeta) : parseHpackHeaderNames toLowercase payload i headers =
      .ok (names.foldl (fun headers name => headers.push toLowercase name) headers) := by
  induction h generalizing i headers with
  | nil =>
    rw [parseHpackHeaderNames, dif_neg (Nat.not_lt.2 (List.drop_eq_nil_iff.1 hdata))]
    rfl
  | @other b rest names hb h ih =>
    have hrest := @drop_front _ _ [b] _ 1 hdata rfl
    exact (parse_other toLowercase hdata hb headers).trans (ih hrest headers)
  | @last b hb =>
    exact parse_last toLowercase hdata hb headers
  | @known b c rest names hb hc h ih =>
    have hrest := @drop_front _ _ [b, c] _ 2 hdata rfl
    exact (parse_known toLowercase hdata hb hc headers).trans (ih hrest headers)
  | @short b rest names hb hrest h ih =>
    have hnext : payload.drop (i + 2 + 1) = rest.drop 1 := by
      rw [← List.drop_drop, @drop_front _ _ [b, 0] _ 2 hdata rfl]
    exact (parse_short toLowercase hdata hb hrest headers).trans (ih hnext headers)
  | @bare b s rest name names hb hname hvalue h ih =>
    have hrest : payload.drop (i + 2 + s.length) = rest :=
      drop_front (@drop_front _ _ [b, 0] _ 2 hdata rfl) rfl
    exact (parse_named toLowercase hdata hb hname (attempt_unreadable hvalue) headers).trans (ih hrest _)
  | @new b s v rest name value names hb hname hvalue h ih =>
    have hrest : payload.drop (i + 2 + s.length + v.length) = rest :=
      drop_front (drop_front (@drop_front _ _ [b, 0] _ 2 hdata rfl) rfl) rfl
    exact (parse_named toLowercase hdata hb hname (attempt_string hvalue rest) headers).trans (ih hrest _)

end Scanner

/-! ## Fields without a zero byte in their texts -/

theorem not_isLiteral_of_lt {b : UInt8} (h : 0x80 < b) : ¬ IsLiteral b := by
  have hall : ∀ n : Fin 256, 0x80 < n.val → UInt8.ofNat n.val &&& 0x80 ≠ 0 := by decide +kernel
  intro hb
  have := hall ⟨b.toNat, b.toNat_lt⟩ h
  rw [UInt8.ofNat_toNat] at this
  exact this hb.1

theorem isLiteral_of_first {b : UInt8} (h : b = 0x40 ∨ b = 0x00) : IsLiteral b := by
  rcases h with rfl | rfl
  · exact ⟨rfl, .inl (by decide)⟩
  · exact ⟨rfl, .inr (.inl rfl)⟩

theorem isString_hpackString {s : List Char} (h : (bytes s).length < 127) : IsString (hpackString s) s := by
  have hall : ∀ n : Fin 127, UInt8.ofNat n.val &&& 0x80 = 0 ∧ (UInt8.ofNat n.val &&& 0x7f).toNat = n.val := by
    decide +kernel
  obtain ⟨hplain, hlength⟩ := hall ⟨_, h⟩
  refine ⟨_, bytes s, rfl, hlength.symm, ?_⟩
  rw [if_neg (not_not.2 hplain), fromUtf8_bytes, Option.getD_some]

/-- The strings in front of the same bytes are the same. -/
theorem IsString.unique {s s' rest rest' : List UInt8} {text text' : List Char} (h : IsString s text)
    (h' : IsString s' text') (heq : s ++ rest = s' ++ rest') : s = s' ∧ text = text' ∧ rest = rest' := by
  obtain ⟨first, body, rfl, hlength, rfl⟩ := h
  obtain ⟨first', body', rfl, hlength', rfl⟩ := h'
  rw [List.cons_append, List.cons_append, List.cons.injEq] at heq
  obtain ⟨rfl, heq⟩ := heq
  obtain ⟨rfl, rfl⟩ := List.append_inj heq (hlength.trans hlength'.symm)
  exact ⟨rfl, rfl, rfl⟩

theorem Unreadable.not_string (h : Unreadable (s ++ rest)) (hs : IsString s text) : False :=
  h s text hs (List.prefix_append s rest)

/-- The texts of a literal are not empty and have no zero byte. -/
def HeaderField.Printable : HeaderField → Prop
  | .indexed _ _ => True
  | .literal _ _ name value _ _ => (name ≠ [] ∧ 0 ∉ bytes name) ∧ value ≠ [] ∧ 0 ∉ bytes value

theorem zero_notMem_hpackString {s : List Char} (hlength : (bytes s).length < 127) (hs : s ≠ [] ∧ 0 ∉ bytes s) :
    0 ∉ hpackString s := by
  have hall : ∀ n : Fin 127, 0 < n.val → UInt8.ofNat n.val ≠ 0 := by decide +kernel
  have hpos : 0 < (bytes s).length := by
    obtain ⟨c, s, rfl⟩ := List.exists_cons_of_ne_nil hs.1
    rw [bytes_cons, List.length_append, String.length_utf8EncodeChar]
    exact Nat.add_pos_left c.utf8Size_pos _
  exact List.not_mem_cons_of_ne_of_not_mem (hall ⟨_, hlength⟩ hpos).symm hs.2

variable {w : List UInt8} {fields : List HeaderField} {b c : UInt8}

/-- The next byte is one of the literal that has been begun, an index, or the first of a literal. -/
theorem cons_eq_append_block (h : b :: rest = w ++ headerBlock fields) :
    (∃ w', w = b :: w' ∧ rest = w' ++ headerBlock fields) ∨
    (∃ hb fs, w = [] ∧ fields = .indexed b hb :: fs ∧ rest = headerBlock fs) ∨
    ∃ hfirst name value hname hvalue fs, w = [] ∧ fields = .literal b hfirst name value hname hvalue :: fs ∧
      rest = hpackString name ++ hpackString value ++ headerBlock fs := by
  cases w with
  | cons a w =>
    obtain ⟨rfl, rfl⟩ := List.cons.inj h
    exact .inl ⟨w, rfl, rfl⟩
  | nil =>
    cases fields with
    | nil => cases h
    | cons field fs =>
      rw [List.nil_append, headerBlock, List.flatMap_cons] at h
      cases field with
      | indexed a ha =>
        obtain ⟨rfl, rfl⟩ := List.cons.inj h
        exact .inr (.inl ⟨ha, fs, rfl, rfl, rfl⟩)
      | literal first hfirst name value hname hvalue =>
        obtain ⟨rfl, rfl⟩ := List.cons.inj h
        exact .inr (.inr ⟨hfirst, name, value, hname, hvalue, fs, rfl, rfl, rfl⟩)

/-- A zero byte behind the first byte of a literal, if the texts have none, is the first byte of the next field. -/
theorem zero_eq_first (h : b :: 0 :: rest = w ++ headerBlock fields) (hb : IsLiteral b)
    (hprintable : ∀ field ∈ fields, field.Printable) (hw : 0 ∉ w) :
    ∃ hfirst name value hname hvalue fs, w = [b] ∧ fields = .literal 0 hfirst name value hname hvalue :: fs ∧
      rest = hpackString name ++ (hpackString value ++ headerBlock fs) := by
  rcases cons_eq_append_block h with ⟨w, rfl, hnext⟩ | ⟨hindex, fs, rfl, rfl, -⟩ |
    ⟨hfirst, name, value, hname, hvalue, fs, rfl, rfl, hrest⟩
  · rcases cons_eq_append_block hnext with ⟨w, rfl, -⟩ | ⟨hindex, fs, rfl, rfl, -⟩ |
      ⟨hfirst, name, value, hname, hvalue, fs, rfl, rfl, hrest⟩
    · exact absurd (by simp) hw
    · exact absurd hindex.1 (by decide)
    · exact ⟨hfirst, name, value, hname, hvalue, fs, rfl, rfl, by rw [hrest, List.append_assoc]⟩
  · exact absurd hb (not_isLiteral_of_lt hindex.1)
  · obtain ⟨hzero, -⟩ := List.cons.inj hrest
    have hfree := zero_notMem_hpackString hname (hprintable _ List.mem_cons_self).1
    exact absurd (hzero ▸ List.mem_cons_self) hfree

/-- **Names are read in their order**, of the fields behind the bytes of a literal; if the scanner begins with a field,
a name is missed. -/
theorem sublist_of_reads (h : Reads data names) : ∀ (w : List UInt8) (fields : List HeaderField),
    data = w ++ headerBlock fields → (∀ field ∈ fields, field.Printable) → 0 ∉ w →
      names.Sublist (literalNames fields) ∧
        (w = [] → literalNames fields ≠ [] → names.length < (literalNames fields).length) := by
  induction h with
  | nil => exact fun w fields _ _ _ => ⟨List.nil_sublist _, fun _ => List.length_pos_of_ne_nil⟩
  | last hb => exact fun w fields _ _ _ => ⟨List.nil_sublist _, fun _ => List.length_pos_of_ne_nil⟩
  | @other b rest names hb h ih =>
    intro w fields hdata hprintable hw
    rcases cons_eq_append_block hdata with ⟨w, rfl, hrest⟩ | ⟨hindex, fs, rfl, rfl, hrest⟩ |
      ⟨hfirst, name, value, hname, hvalue, fs, rfl, rfl, hrest⟩
    · exact ⟨(ih w fields hrest hprintable fun hmem => hw (List.mem_cons_of_mem _ hmem)).1, fun hnil => by cases hnil⟩
    · exact ih [] fs hrest (List.forall_mem_cons.1 hprintable).2 hw
    · exact absurd (isLiteral_of_first hfirst) hb
  | @known b c rest names hb hc h ih =>
    intro w fields hdata hprintable hw
    rcases cons_eq_append_block hdata with ⟨w, rfl, hnext⟩ | ⟨hindex, fs, rfl, rfl, -⟩ |
      ⟨hfirst, name, value, hname, hvalue, fs, rfl, rfl, hnext⟩
    · refine ⟨?_, fun hnil => by cases hnil⟩
      have hw : 0 ∉ w := fun hmem => hw (List.mem_cons_of_mem _ hmem)
      rcases cons_eq_append_block hnext with ⟨w, rfl, hrest⟩ | ⟨hindex, fs, rfl, rfl, hrest⟩ |
        ⟨hfirst, name, value, hname, hvalue, fs, rfl, rfl, hrest⟩
      · exact (ih w fields hrest hprintable fun hmem => hw (List.mem_cons_of_mem _ hmem)).1
      · exact (ih [] fs hrest (List.forall_mem_cons.1 hprintable).2 hw).1
      · obtain ⟨⟨hname', hvalue'⟩, hprintable⟩ := List.forall_mem_cons.1 hprintable
        have hfree : 0 ∉ hpackString name ++ hpackString value := List.not_mem_append
          (zero_notMem_hpackString hname hname') (zero_notMem_hpackString hvalue hvalue')
        exact (ih _ fs hrest hprintable hfree).1.cons _
    · exact absurd hb (not_isLiteral_of_lt hindex.1)
    · obtain ⟨⟨hname', hvalue'⟩, hprintable⟩ := List.forall_mem_cons.1 hprintable
      obtain ⟨-, hrest⟩ := List.cons.inj hnext
      have hfree : 0 ∉ bytes name ++ hpackString value :=
        List.not_mem_append hname'.2 (zero_notMem_hpackString hvalue hvalue')
      have hsub := (ih _ fs hrest hprintable hfree).1
      exact ⟨hsub.cons _, fun _ _ => Nat.lt_succ_of_le hsub.length_le⟩
  | @short b rest names hb hrest h ih =>
    intro w fields hdata hprintable hw
    obtain ⟨hfirst, name, value, hname, hvalue, fs, rfl, rfl, rfl⟩ := zero_eq_first hdata hb hprintable hw
    exact (hrest.not_string (isString_hpackString hname)).elim
  | @bare b s rest name' names hb hs hrest h ih =>
    intro w fields hdata hprintable hw
    obtain ⟨hfirst, name, value, hname, hvalue, fs, rfl, rfl, heq⟩ := zero_eq_first hdata hb hprintable hw
    obtain ⟨-, -, rfl⟩ := hs.unique (isString_hpackString hname) heq
    exact (hrest.not_string (isString_hpackString hvalue)).elim
  | @new b s v rest name' value' names hb hs hv h ih =>
    intro w fields hdata hprintable hw
    obtain ⟨hfirst, name, value, hname, hvalue, fs, rfl, rfl, heq⟩ := zero_eq_first hdata hb hprintable hw
    obtain ⟨-, rfl, hbehind⟩ := hs.unique (isString_hpackString hname) heq
    obtain ⟨-, -, hrest⟩ := hv.unique (isString_hpackString hvalue) hbehind
    refine ⟨(ih [] fs hrest (List.forall_mem_cons.1 hprintable).2 List.not_mem_nil).1.cons_cons _, fun hnil => ?_⟩
    cases hnil

/-! ## What is extracted of a block -/

variable (toLowercase : List Char → List Char)

def pseudoNames (names : List (List Char)) : List (List Char) :=
  (names.map toLowercase).filter fun name => [':'].isPrefixOf name

/-- All names but pseudo-headers and cookies. -/
def ordinaryNames (names : List (List Char)) : List (List Char) :=
  (names.map toLowercase).filter fun name => !([':'].isPrefixOf name || name = "cookie".toList)

section

attribute [local instance] Text.lawfulBEq_chars

def cookieNamed (names : List (List Char)) : Bool := "cookie".toList ∈ names.map toLowercase

end

/-- The names in addition to what has been extracted before. -/
def Http2HeadersMeta.append (headers : Http2HeadersMeta) (names : List (List Char)) : Http2HeadersMeta where
  pseudoOrder := headers.pseudoOrder ++ pseudoNames toLowercase names
  headerOrder := headers.headerOrder ++ ordinaryNames toLowercase names
  hasCookie := headers.hasCookie || cookieNamed toLowercase names

theorem foldl_push (names : List (List Char)) (headers : Http2HeadersMeta) :
    names.foldl (fun headers name => headers.push toLowercase name) headers = headers.append toLowercase names := by
  induction names generalizing headers with
  | nil => simp [Http2HeadersMeta.append, pseudoNames, ordinaryNames, cookieNamed]
  | cons name names ih =>
    have hcolon : [':'].isPrefixOf "cookie".toList = false := by decide
    rw [List.foldl_cons, ih]
    unfold Http2HeadersMeta.append Http2HeadersMeta.push pseudoNames ordinaryNames cookieNamed
    generalize "cookie".toList = cookie at hcolon
    by_cases hpseudo : [':'].isPrefixOf (toLowercase name) = true
    · have hne : cookie ≠ toLowercase name := by
        rintro rfl
        rw [hcolon] at hpseudo
        cases hpseudo
      simp [hpseudo, hne]
    · by_cases hcookie : toLowercase name = cookie
      · simp [hcookie, hcolon]
      · simp [hpseudo, hcookie, Ne.symm hcookie]

/-- The scanner extracts the literal names of a block, and no others. -/
def NamesExtracted (fields : List HeaderField) : Prop :=
  ∀ headers, parseHpackHeaderNames toLowercase (headerBlock fields) 0 headers =
    .ok (headers.append toLowercase (literalNames fields))

/-- The names that are extracted are those that are read. -/
theorem namesExtracted_iff {fields : List HeaderField} (hreads : Reads (headerBlock fields) names) :
    NamesExtracted toLowercase fields ↔
      pseudoNames toLowercase names = pseudoNames toLowercase (literalNames fields) ∧
      ordinaryNames toLowercase names = ordinaryNames toLowercase (literalNames fields) ∧
      cookieNamed toLowercase names = cookieNamed toLowercase (literalNames fields) := by
  have hfound := parseHpackHeaderNames_reads toLowercase hreads (List.drop_zero ..)
  constructor
  · intro h
    have heq := Except.ok.inj ((hfound {}).symm.trans (h {}))
    rw [foldl_push] at heq
    exact ⟨congrArg Http2HeadersMeta.pseudoOrder heq, congrArg Http2HeadersMeta.headerOrder heq,
      congrArg Http2HeadersMeta.hasCookie heq⟩
  · rintro ⟨hpseudo, hordinary, hcookie⟩ headers
    rw [hfound headers, foldl_push]
    unfold Http2HeadersMeta.append
    rw [hpseudo, hordinary, hcookie]

/-- A block without a literal. -/
theorem extracted_of_indexed {fields : List HeaderField} (h : literalNames fields = []) :
    NamesExtracted toLowercase fields := by
  have hreads : Reads (headerBlock fields) [] := by
    induction fields with
    | nil => exact .nil
    | cons field fields ih =>
      cases field with
      | literal first hfirst name value hname hvalue => cases h
      | indexed b hb => exact .other (not_isLiteral_of_lt hb.1) (ih h)
  refine (namesExtracted_iff toLowercase hreads).2 ?_
  rw [h]
  exact ⟨rfl, rfl, rfl⟩

/-- Without a zero byte no name is read. -/
theorem Reads.eq_nil (h : Reads data names) (hzero : 0 ∉ data) : names = [] := by
  induction h with
  | nil => rfl
  | other _ _ ih => exact ih fun hmem => hzero (List.mem_cons_of_mem _ hmem)
  | last _ => rfl
  | known _ _ _ ih => exact ih fun hmem => hzero (List.mem_cons_of_mem _ (List.mem_cons_of_mem _ hmem))
  | short _ _ _ _ => exact absurd (by simp) hzero
  | bare _ _ _ _ _ => exact absurd (by simp) hzero
  | new _ _ _ _ _ => exact absurd (by simp) hzero

/-- Each name is extracted as something. -/
theorem append_eq_self {names : List (List Char)} (h : Http2HeadersMeta.append toLowercase {} names = {}) :
    names = [] := by
  have hpseudo : pseudoNames toLowercase names = [] := congrArg Http2HeadersMeta.pseudoOrder h
  have hordinary : ordinaryNames toLowercase names = [] := congrArg Http2HeadersMeta.headerOrder h
  have hcookie : cookieNamed toLowercase names = false := congrArg Http2HeadersMeta.hasCookie h
  refine List.eq_nil_iff_forall_not_mem.2 fun name hname => ?_
  have hmem := (List.mem_map_of_mem hname : toLowercase name ∈ _)
  have hnot := List.filter_eq_nil_iff.1 hpseudo _ hmem
  have hnot' := List.filter_eq_nil_iff.1 hordinary _ hmem
  have hne : toLowercase name ≠ "cookie".toList := fun heq => of_decide_eq_false hcookie (heq ▸ hmem)
  rw [Bool.eq_false_of_not_eq_true hnot, decide_eq_false hne] at hnot'
  exact hnot' rfl

/-- A block without a zero byte is understood only if it has no literal. -/
theorem extracted_zero_free {fields : List HeaderField} (hzero : 0 ∉ headerBlock fields)
    (h : NamesExtracted toLowercase fields) : literalNames fields = [] := by
  obtain ⟨names, hreads⟩ := exists_reads (headerBlock fields)
  obtain rfl := hreads.eq_nil hzero
  have hfound := parseHpackHeaderNames_reads toLowercase hreads (List.drop_zero ..)
  exact append_eq_self toLowercase (Except.ok.inj ((h {}).symm.trans (hfound {})))

/-- Names are pseudo-headers, ordinary ones and cookies. -/
theorem length_eq_add (names : List (List Char)) : names.length = (pseudoNames toLowercase names).length +
    (ordinaryNames toLowercase names).length + (names.map toLowercase).count "cookie".toList := by
  have hcolon : [':'].isPrefixOf "cookie".toList = false := by decide
  unfold pseudoNames ordinaryNames
  generalize "cookie".toList = cookie at hcolon
  induction names with
  | nil => rfl
  | cons name names ih =>
    rw [List.length_cons, ih, List.map_cons, List.filter_cons, List.filter_cons, List.count_cons]
    by_cases hcookie : toLowercase name = cookie
    · simp [hcookie, hcolon]
      omega
    · by_cases hpseudo : [':'].isPrefixOf (toLowercase name) = true
      · simp [hcookie, hpseudo]
        omega
      · simp [hcookie, hpseudo]
        omega

/-- Where there is one cookie at most, no name hides that another one is missed. -/
theorem length_eq_of_extracted {names names' : List (List Char)} (hsub : names.Sublist names')
    (honce : (names'.map toLowercase).count "cookie".toList ≤ 1)
    (hpseudo : pseudoNames toLowercase names = pseudoNames toLowercase names')
    (hordinary : ordinaryNames toLowercase names = ordinaryNames toLowercase names')
    (hcookie : cookieNamed toLowercase names = cookieNamed toLowercase names') : names.length = names'.length := by
  have hle : (names.map toLowercase).count "cookie".toList ≤ (names'.map toLowercase).count "cookie".toList :=
    (hsub.map toLowercase).count_le _
  have hiff : 0 < (names.map toLowercase).count "cookie".toList ↔ 0 < (names'.map toLowercase).count "cookie".toList := by
    rw [List.count_pos_iff, List.count_pos_iff]
    exact decide_eq_decide.1 hcookie
  rw [length_eq_add toLowercase names, length_eq_add toLowercase names', hpseudo, hordinary]
  omega

/-- **When the names of a block are extracted**: it has no literal. Where the texts of the literals are not empty and have
no zero byte, and where the whole block has none, there is no other case, but for a cookie that another cookie hides. -/
theorem names_extracted (fields : List HeaderField) :
    (literalNames fields = [] → NamesExtracted toLowercase fields) ∧
    (0 ∉ headerBlock fields → NamesExtracted toLowercase fields → literalNames fields = []) ∧
    ((∀ field ∈ fields, field.Printable) →
      ((literalNames fields).map toLowercase).count "cookie".toList ≤ 1 →
      NamesExtracted toLowercase fields → literalNames fields = []) := by
  refine ⟨extracted_of_indexed toLowercase, extracted_zero_free toLowercase, fun hprintable honce h => ?_⟩
  obtain ⟨names, hreads⟩ := exists_reads (headerBlock fields)
  obtain ⟨hsub, hmissed⟩ := sublist_of_reads hreads [] fields rfl hprintable List.not_mem_nil
  obtain ⟨hpseudo, hordinary, hcookie⟩ := (namesExtracted_iff toLowercase hreads).1 h
  have hlength := length_eq_of_extracted toLowercase hsub honce hpseudo hordinary hcookie
  by_contra hne
  exact absurd (hmissed rfl hne) (Nat.not_lt.2 hlength.ge)

/-- The header `user-agent: curl`. -/
theorem user_agent_missed : ¬ NamesExtracted (List.map Char.toLower)
    [.literal 0x40 (Or.inl rfl) "user-agent".toList "curl".toList (by decide) (by decide)] :=
  fun h => absurd (extracted_zero_free _ (by decide) h) (List.cons_ne_nil _ _)

end ThorFirewall.Fingerprint
