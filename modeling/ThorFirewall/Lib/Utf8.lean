import Mathlib.Data.List.Basic
import ThorFirewall.Lib.Text

/-!
# Texts from bytes

`fromUtf8` reads bytes as UTF-8, `fromUtf8Lossy` puts a replacement character for every part of them that is none. Both
invert `Text.bytes`. ASCII texts have a byte for each character, so that their byte positions are list positions; in any
text, slices are taken between boundaries of characters.
-/

namespace Utf8

open Text

/-- `from_utf8`. -/
def fromUtf8 (bs : List UInt8) : Option (List Char) := bs.toByteArray.utf8Decode?.map Array.toList

/-- **Bytes are read as the text that they spell.** -/
theorem fromUtf8_eq_some_iff {bs : List UInt8} {s : List Char} : fromUtf8 bs = some s ↔ bytes s = bs := by
  constructor
  · intro h
    obtain ⟨a, ha, rfl⟩ := Option.map_eq_some_iff.1 h
    have hencode := ByteArray.utf8Encode_get_utf8Decode? (b := bs.toByteArray) (h := by rw [ha]; rfl)
    simp only [ha, Option.get_some] at hencode
    exact List.toByteArray_inj.1 hencode
  · rintro rfl
    have hdecode : (bytes s).toByteArray.utf8Decode? = some s.toArray := List.utf8Decode?_utf8Encode
    rw [fromUtf8, hdecode]
    rfl

@[simp] theorem fromUtf8_bytes (s : List Char) : fromUtf8 (bytes s) = some s := fromUtf8_eq_some_iff.2 rfl

/-! ## Replacement -/

/-- The character that the bytes begin with. -/
def decodeChar? (bs : List UInt8) : Option Char := bs.toByteArray.utf8DecodeChar? 0

@[simp] theorem decodeChar?_append (c : Char) (bs : List UInt8) :
    decodeChar? (String.utf8EncodeChar c ++ bs) = some c := by
  rw [decodeChar?, List.toByteArray_append]
  exact ByteArray.utf8DecodeChar?_utf8EncodeChar_append

def isContinuation (b : UInt8) : Bool := 0x80 ≤ b && b ≤ 0xBF

/-- The second byte of a character of three bytes or more. -/
def isSecond (first second : UInt8) : Bool :=
  if first = 0xE0 then 0xA0 ≤ second && second ≤ 0xBF
  else if first = 0xED then 0x80 ≤ second && second ≤ 0x9F
  else if first = 0xF0 then 0x90 ≤ second && second ≤ 0xBF
  else if first = 0xF4 then 0x80 ≤ second && second ≤ 0x8F
  else isContinuation second

/-- How many bytes are replaced, where no character begins: the beginning of one, or a single byte. -/
def invalidLength : List UInt8 → ℕ
  | first :: second :: rest =>
    if 0xE0 ≤ first ∧ first ≤ 0xF4 ∧ isSecond first second then
      if 0xF0 ≤ first ∧ rest.head?.any isContinuation then 3 else 2
    else 1
  | _ => 1

def lossyFrom : ℕ → List UInt8 → List Char
  | 0, _ => []
  | _ + 1, [] => []
  | fuel + 1, bs => match decodeChar? bs with
    | some c => c :: lossyFrom fuel (bs.drop c.utf8Size)
    | none => Char.ofNat 0xFFFD :: lossyFrom fuel (bs.drop (invalidLength bs))

/-- `from_utf8_lossy`. Each character takes a byte at least. -/
def fromUtf8Lossy (bs : List UInt8) : List Char := lossyFrom bs.length bs

theorem lossyFrom_some {fuel : ℕ} {bs : List UInt8} {c : Char} (h : decodeChar? bs = some c) :
    lossyFrom (fuel + 1) bs = c :: lossyFrom fuel (bs.drop c.utf8Size) := by
  cases bs with
  | nil => cases h
  | cons b bs => simp [lossyFrom, h]

theorem lossyFrom_bytes (s : List Char) {fuel : ℕ} (h : (bytes s).length ≤ fuel) : lossyFrom fuel (bytes s) = s := by
  induction s generalizing fuel with
  | nil => cases fuel <;> rfl
  | cons c s ih =>
    have hlength : (String.utf8EncodeChar c).length = c.utf8Size := String.length_utf8EncodeChar c
    have hbytes : bytes (c :: s) = String.utf8EncodeChar c ++ bytes s := List.flatMap_cons
    have hpos := c.utf8Size_pos
    rw [hbytes] at h ⊢
    rw [List.length_append] at h
    cases fuel with
    | zero => omega
    | succ fuel =>
      rw [lossyFrom_some (decodeChar?_append c _), List.drop_left' hlength]
      exact congrArg _ (ih (by omega))

@[simp] theorem fromUtf8Lossy_bytes (s : List Char) : fromUtf8Lossy (bytes s) = s := lossyFrom_bytes s (Nat.le_refl _)

/-! ## ASCII -/

/-- All characters are ASCII. -/
def IsAscii (s : List Char) : Prop := ∀ c ∈ s, c.toNat < 128

instance (s : List Char) : Decidable (IsAscii s) :=
  @List.decidableBAll Char (fun c => c.toNat < 128) (fun _ => Nat.decLt _ _) s

variable {s t : List Char} {c : Char}

theorem IsAscii.cons (h : IsAscii (c :: s)) : c.toNat < 128 ∧ IsAscii s := List.forall_mem_cons.1 h

theorem isAscii_append : IsAscii (s ++ t) ↔ IsAscii s ∧ IsAscii t := List.forall_mem_append

theorem isAscii_toLower (h : IsAscii s) : IsAscii (s.map Char.toLower) := by
  intro c hc
  obtain ⟨d, hd, rfl⟩ := List.mem_map.1 hc
  have := h d hd
  unfold Char.toLower
  split_ifs with hupper
  · have hle := UInt32.le_iff_toNat_le.1 hupper.2
    show UInt32.toNat _ < 128
    rw [UInt32.toNat_add]
    simp at hle ⊢
    omega
  · exact this

theorem utf8Size_ascii (h : c.toNat < 128) : c.utf8Size = 1 :=
  Char.utf8Size_eq_one_iff.2 (UInt32.le_iff_toNat_le.2 (Nat.lt_succ_iff.1 h))

theorem bytes_ascii (h : IsAscii s) : bytes s = s.map fun c => c.val.toUInt8 := by
  induction s with
  | nil => rfl
  | cons c s ih =>
    obtain ⟨hc, hs⟩ := h.cons
    have hbytes : bytes (c :: s) = String.utf8EncodeChar c ++ bytes s := List.flatMap_cons
    rw [hbytes, String.utf8EncodeChar_eq_singleton (utf8Size_ascii hc), ih hs]
    rfl

theorem length_bytes_ascii (h : IsAscii s) : (bytes s).length = s.length := by
  rw [bytes_ascii h, List.length_map]

theorem byteLength_ascii (h : IsAscii s) : byteLength s = s.length := by
  induction s with
  | nil => rfl
  | cons c s ih =>
    obtain ⟨hc, hs⟩ := h.cons
    have := ih hs
    simp only [byteLength, List.map_cons, List.sum_cons, List.length_cons, utf8Size_ascii hc] at this ⊢
    omega

theorem length_le_byteLength (s : List Char) : s.length ≤ byteLength s := by
  induction s with
  | nil => exact Nat.le_refl _
  | cons c s ih =>
    have hpos := c.utf8Size_pos
    simp only [byteLength, List.map_cons, List.sum_cons, List.length_cons] at ih ⊢
    omega

/-! ## Boundaries -/

/-- A byte position between two characters, or at an end. -/
def Boundary (s : List Char) (n : ℕ) : Prop := ∃ a b, s = a ++ b ∧ byteLength a = n

@[simp] theorem byteLength_append (s t : List Char) : byteLength (s ++ t) = byteLength s + byteLength t := by
  simp [byteLength]

theorem byteLength_cons (c : Char) (s : List Char) : byteLength (c :: s) = c.utf8Size + byteLength s := by
  simp [byteLength]

theorem eq_nil_of_byteLength (h : byteLength s = 0) : s = [] := by
  have hle := length_le_byteLength s
  exact List.length_eq_zero_iff.1 (by omega)

theorem Boundary.le {n : ℕ} (h : Boundary s n) : n ≤ byteLength s := by
  obtain ⟨a, b, rfl, rfl⟩ := h
  rw [byteLength_append]
  omega

theorem boundary_zero (s : List Char) : Boundary s 0 := ⟨[], s, rfl, rfl⟩

theorem boundary_byteLength (s : List Char) : Boundary s (byteLength s) := ⟨s, [], (List.append_nil s).symm, rfl⟩

theorem byteLength_take (h : IsAscii s) {n : ℕ} (hn : n ≤ s.length) : byteLength (s.take n) = n := by
  rw [byteLength_ascii fun c hc => h c (List.mem_of_mem_take hc), List.length_take, min_eq_left hn]

/-- In an ASCII text, every position is one. -/
theorem dropBytes_zero : dropBytes s 0 = some t ↔ ∃ a, s = a ++ t ∧ byteLength a = 0 := by
  rw [dropBytes, Option.some_inj]
  constructor
  · rintro rfl
    exact ⟨[], rfl, rfl⟩
  · rintro ⟨a, ha, hlen⟩
    rw [ha, eq_nil_of_byteLength hlen, List.nil_append]

theorem dropBytes_eq_some_iff {n : ℕ} : dropBytes s n = some t ↔ ∃ a, s = a ++ t ∧ byteLength a = n := by
  induction s generalizing n with
  | nil =>
    cases n with
    | zero => exact dropBytes_zero
    | succ n =>
      refine iff_of_false nofun fun ⟨a, ha, hlen⟩ => ?_
      rw [(List.append_eq_nil_iff.1 ha.symm).1] at hlen
      cases hlen
  | cons c s ih =>
    have hpos := c.utf8Size_pos
    cases n with
    | zero => exact dropBytes_zero
    | succ n =>
      rw [dropBytes]
      split_ifs with hle
      · rw [ih]
        constructor
        · rintro ⟨a, rfl, hlen⟩
          refine ⟨c :: a, rfl, ?_⟩
          rw [byteLength_cons]
          omega
        · rintro ⟨a, ha, hlen⟩
          obtain _ | ⟨d, a⟩ := a
          · cases hlen
          · obtain ⟨rfl, rfl⟩ := List.cons.inj ha
            rw [byteLength_cons] at hlen
            exact ⟨a, rfl, by omega⟩
      · refine iff_of_false nofun fun ⟨a, ha, hlen⟩ => ?_
        obtain _ | ⟨d, a⟩ := a
        · cases hlen
        · obtain ⟨rfl, rfl⟩ := List.cons.inj ha
          rw [byteLength_cons] at hlen
          omega

theorem takeBytes_zero : takeBytes s 0 = some t ↔ ∃ b, s = t ++ b ∧ byteLength t = 0 := by
  rw [takeBytes, Option.some_inj]
  constructor
  · rintro rfl
    exact ⟨s, rfl, rfl⟩
  · rintro ⟨b, -, hlen⟩
    exact (eq_nil_of_byteLength hlen).symm

theorem takeBytes_eq_some_iff {n : ℕ} : takeBytes s n = some t ↔ ∃ b, s = t ++ b ∧ byteLength t = n := by
  induction s generalizing n t with
  | nil =>
    cases n with
    | zero => exact takeBytes_zero
    | succ n =>
      refine iff_of_false nofun fun ⟨b, hb, hlen⟩ => ?_
      rw [(List.append_eq_nil_iff.1 hb.symm).1] at hlen
      cases hlen
  | cons c s ih =>
    have hpos := c.utf8Size_pos
    cases n with
    | zero => exact takeBytes_zero
    | succ n =>
      rw [takeBytes]
      split_ifs with hle
      · rw [Option.map_eq_some_iff]
        constructor
        · rintro ⟨u, hu, rfl⟩
          obtain ⟨b, rfl, hlen⟩ := ih.1 hu
          refine ⟨b, rfl, ?_⟩
          rw [byteLength_cons]
          omega
        · rintro ⟨b, hb, hlen⟩
          obtain _ | ⟨d, u⟩ := t
          · cases hlen
          · obtain ⟨rfl, rfl⟩ := List.cons.inj hb
            rw [byteLength_cons] at hlen
            exact ⟨u, ih.2 ⟨b, rfl, by omega⟩, rfl⟩
      · refine iff_of_false nofun fun ⟨b, hb, hlen⟩ => ?_
        obtain _ | ⟨d, u⟩ := t
        · cases hlen
        · obtain ⟨rfl, rfl⟩ := List.cons.inj hb
          rw [byteLength_cons] at hlen
          omega

theorem slice_eq_some_iff {i j : ℕ} :
    slice s i j = some t ↔ ∃ a b, s = a ++ (t ++ b) ∧ byteLength a = i ∧ i + byteLength t = j := by
  unfold slice
  split_ifs with hlt
  · exact iff_of_false nofun fun ⟨a, b, _, _, hlen⟩ => by omega
  · simp only [Option.bind_eq_some_iff, dropBytes_eq_some_iff, takeBytes_eq_some_iff]
    constructor
    · rintro ⟨u, ⟨a, rfl, hi⟩, b, rfl, hj⟩
      exact ⟨a, b, rfl, hi, by omega⟩
    · rintro ⟨a, b, rfl, hi, hj⟩
      exact ⟨t ++ b, ⟨a, rfl, hi⟩, b, rfl, by omega⟩

/-- **The slices that do not panic.** -/
theorem exists_slice_iff {i j : ℕ} : (∃ t, slice s i j = some t) ↔ Boundary s i ∧ Boundary s j ∧ i ≤ j := by
  simp only [slice_eq_some_iff]
  constructor
  · rintro ⟨t, a, b, rfl, rfl, rfl⟩
    exact ⟨⟨a, t ++ b, rfl, rfl⟩, ⟨a ++ t, b, (List.append_assoc a t b).symm, byteLength_append a t⟩, by omega⟩
  · rintro ⟨⟨a, u, rfl, rfl⟩, ⟨c, b, hsplit, rfl⟩, hle⟩
    rcases List.append_eq_append_iff.1 hsplit with ⟨t, rfl, rfl⟩ | ⟨t, rfl, rfl⟩
    · exact ⟨t, a, b, rfl, rfl, (byteLength_append a t).symm⟩
    · rw [byteLength_append] at hle
      have ht : t = [] := eq_nil_of_byteLength (by omega)
      subst ht
      exact ⟨[], c, u, by rw [List.append_nil, List.nil_append], by rw [List.append_nil],
        by rw [List.append_nil]; rfl⟩

instance (s : List Char) (n : ℕ) : Decidable (Boundary s n) :=
  decidable_of_iff ((dropBytes s n).isSome = true) <| by
    simp only [Option.isSome_iff_exists, dropBytes_eq_some_iff]
    exact exists_comm

theorem byteLength_le_of_infix (h : s <:+: t) : byteLength s ≤ byteLength t := by
  obtain ⟨a, b, rfl⟩ := h
  rw [byteLength_append, byteLength_append]
  omega

/-! ## Slices of ASCII -/

/-- In an ASCII text, byte positions are those of the list. -/
theorem dropBytes_ascii (h : IsAscii s) {n : ℕ} (hn : n ≤ s.length) : dropBytes s n = some (s.drop n) :=
  dropBytes_eq_some_iff.2 ⟨s.take n, (List.take_append_drop n s).symm, byteLength_take h hn⟩

theorem takeBytes_ascii (h : IsAscii s) {n : ℕ} (hn : n ≤ s.length) : takeBytes s n = some (s.take n) :=
  takeBytes_eq_some_iff.2 ⟨s.drop n, (List.take_append_drop n s).symm, byteLength_take h hn⟩

/-- Behind an ASCII text, the position is the number of its characters. -/
theorem slice_part (hs : IsAscii s) (ht : IsAscii t) (u : List Char) :
    slice (s ++ (t ++ u)) s.length (s.length + t.length) = some t :=
  slice_eq_some_iff.2 ⟨s, u, rfl, byteLength_ascii hs, by rw [byteLength_ascii ht]⟩

theorem slice_rest (hs : IsAscii s) (t : List Char) :
    slice (s ++ t) s.length (byteLength (s ++ t)) = some t := by
  refine slice_eq_some_iff.2 ⟨s, [], by rw [List.append_nil], byteLength_ascii hs, ?_⟩
  rw [byteLength_append, byteLength_ascii hs]

/-! ## ASCII patterns -/

theorem decodeChar?_eq_some {bs : List UInt8} (h : decodeChar? bs = some c) :
    ∃ rest, bs = String.utf8EncodeChar c ++ rest := by
  obtain ⟨b, hb⟩ := ByteArray.exists_of_utf8DecodeChar?_eq_some h
  have hdata : b.data.toList.toByteArray = b := ByteArray.ext (by simp)
  refine ⟨b.data.toList, List.toByteArray_inj.1 ?_⟩
  rw [hb, List.toByteArray_append, hdata]

theorem bytes_cons (c : Char) (s : List Char) : bytes (c :: s) = String.utf8EncodeChar c ++ bytes s := List.flatMap_cons

theorem bytes_append (s t : List Char) : bytes (s ++ t) = bytes s ++ bytes t := List.flatMap_append

theorem encode_ascii (h : c.toNat < 128) : String.utf8EncodeChar c = [c.val.toUInt8] :=
  String.utf8EncodeChar_eq_singleton (utf8Size_ascii h)

/-- An ASCII text in front of what is read stands in front of the bytes. -/
theorem prefix_of_lossyFrom (hs : IsAscii s) {fuel : ℕ} {bs : List UInt8} (h : s <+: lossyFrom fuel bs) :
    bytes s <+: bs := by
  induction s generalizing fuel bs with
  | nil => exact List.nil_prefix
  | cons c s ih =>
    obtain ⟨hc, hs⟩ := hs.cons
    cases fuel with
    | zero => simp [lossyFrom] at h
    | succ fuel =>
      cases hd : decodeChar? bs with
      | some d =>
        rw [lossyFrom_some hd, List.cons_prefix_cons] at h
        obtain ⟨rfl, h⟩ := h
        obtain ⟨rest, rfl⟩ := decodeChar?_eq_some hd
        rw [encode_ascii hc, utf8Size_ascii hc] at h
        rw [bytes_cons, List.prefix_append_right_inj]
        exact ih hs h
      | none =>
        cases bs with
        | nil => simp [lossyFrom] at h
        | cons b bs =>
          simp only [lossyFrom, hd, List.cons_prefix_cons] at h
          rw [h.1] at hc
          exact absurd hc (by decide)

/-- **An ASCII text that is read is in the bytes.** -/
theorem infix_of_lossyFrom (hs : IsAscii s) {fuel : ℕ} {bs : List UInt8} (h : s <:+: lossyFrom fuel bs) :
    bytes s <:+: bs := by
  induction fuel generalizing bs with
  | zero =>
    rw [List.infix_nil.1 h]
    exact List.nil_infix
  | succ fuel ih =>
    by_cases hp : s <+: lossyFrom (fuel + 1) bs
    · exact (prefix_of_lossyFrom hs hp).isInfix
    · cases bs with
      | nil => exact absurd (List.infix_nil.1 h ▸ List.nil_prefix) hp
      | cons b bs =>
        have hdrop : ∀ k, s <:+: lossyFrom fuel ((b :: bs).drop k) → bytes s <:+: b :: bs :=
          fun k hk => (ih hk).trans (List.drop_suffix k _).isInfix
        cases hd : decodeChar? (b :: bs) with
        | some d =>
          rw [lossyFrom_some hd] at h hp
          exact hdrop _ ((List.infix_cons_iff.1 h).resolve_left hp)
        | none =>
          simp only [lossyFrom, hd] at h hp
          exact hdrop _ ((List.infix_cons_iff.1 h).resolve_left hp)

theorem prefix_of_bytes (hs : IsAscii s) (h : bytes s <+: bytes t) : s <+: t := by
  induction s generalizing t with
  | nil => exact List.nil_prefix
  | cons c s ih =>
    obtain ⟨hc, hs⟩ := hs.cons
    cases t with
    | nil => simp [encode_ascii hc, bytes] at h
    | cons d t =>
      -- the first byte is of an ASCII character
      obtain ⟨rest, hrest⟩ := h
      rw [bytes_cons, List.append_assoc] at hrest
      have hd : some c = some d := by
        rw [← decodeChar?_append c (bytes s ++ rest), hrest, bytes_cons, decodeChar?_append]
      cases hd
      rw [bytes_cons, List.append_cancel_left_eq] at hrest
      exact List.cons_prefix_cons.2 ⟨rfl, ih hs ⟨rest, hrest⟩⟩

/-- An ASCII byte is nowhere in a character but in front. -/
theorem eq_nil_of_encode {d : Char} {x y : List UInt8} (hc : c.toNat < 128)
    (h : String.utf8EncodeChar d = x ++ c.val.toUInt8 :: y) : x = [] := by
  have hlt : x.length < (String.utf8EncodeChar d).length := by
    rw [h, List.length_append, List.length_cons]
    omega
  have hget : (String.utf8EncodeChar d)[x.length] = c.val.toUInt8 := by simp [h]
  have hpos : 0 < (String.utf8EncodeChar c).length := by simp [c.utf8Size_pos]
  have hfirst : (String.utf8EncodeChar c)[0] = c.val.toUInt8 := by simp [encode_ascii hc]
  have hzero := UInt8.isUTF8FirstByte_getElem_utf8EncodeChar.1
    (hget.trans hfirst.symm ▸ UInt8.isUTF8FirstByte_getElem_zero_utf8EncodeChar)
  exact List.length_eq_zero_iff.1 hzero

/-- **An ASCII text whose bytes are in those of another is in it.** -/
theorem infix_of_bytes (hs : IsAscii s) (h : bytes s <:+: bytes t) : s <:+: t := by
  induction t with
  | nil => exact (prefix_of_bytes hs (List.infix_nil.1 h ▸ List.nil_prefix)).isInfix
  | cons d t ih =>
    obtain ⟨x, y, hxy⟩ := h
    rw [bytes_cons, List.append_assoc] at hxy
    rcases List.append_eq_append_iff.1 hxy with ⟨z, hd, hz⟩ | ⟨z, hx, ht⟩
    · cases s with
      | nil => exact List.nil_infix
      | cons c s =>
        have hc := hs.cons.1
        cases z with
        | nil => exact List.infix_cons (ih ⟨[], y, hz⟩)
        | cons b z =>
          have hb : c.val.toUInt8 = b := by
            rw [bytes_cons, encode_ascii hc, List.singleton_append, List.cons_append, List.cons_append] at hz
            exact (List.cons.inj hz).1
          subst hb
          rw [eq_nil_of_encode hc hd, List.nil_append, ← bytes_cons] at hxy
          exact (prefix_of_bytes hs ⟨y, hxy⟩).isInfix
    · exact List.infix_cons (ih ⟨z, y, by rw [List.append_assoc, ht]⟩)

theorem mem_of_mem_bytes {c : Char} {s : List Char} (hc : c.toNat < 128) (h : c.val.toUInt8 ∈ bytes s) : c ∈ s := by
  apply (List.singleton_infix_iff c s).1
  apply infix_of_bytes
  · exact List.forall_mem_singleton.2 hc
  · rw [bytes_ascii (List.forall_mem_singleton.2 hc)]
    exact (List.singleton_infix_iff _ _).2 h

theorem mem_of_mem_fromUtf8Lossy {c : Char} {bs : List UInt8} (hc : c.toNat < 128) (h : c ∈ fromUtf8Lossy bs) :
    c.val.toUInt8 ∈ bs := by
  have hinfix := infix_of_lossyFrom (List.forall_mem_singleton.2 hc) ((List.singleton_infix_iff _ _).2 h)
  rw [bytes_ascii (List.forall_mem_singleton.2 hc)] at hinfix
  exact (List.singleton_infix_iff _ _).1 hinfix

end Utf8
