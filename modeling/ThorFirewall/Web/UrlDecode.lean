import Mathlib
import ThorFirewall.Lib.Utf8

/-!
# URL decoding in the web agent (`thor-agent-web/src/main.rs`)

`url_decode` puts a space for each `+`, and then walks over the bytes once: `%` and two hexadecimal digits stand for the
byte that they write, and every byte becomes the character of its number.

- `Spelled`: the ways to write a text with `+` for spaces and `%XX` for characters;
- `urlDecode_spelled`: each of them is read back;
- `urlDecode_within`: within a text too, if no escape in front of it reaches into it.
-/

namespace ThorFirewall.Web

open Text Utf8

/-! ## Hexadecimal numbers -/

/-- `char::to_digit(16)`. -/
def toDigit (c : Char) : Option ℕ :=
  if '0' ≤ c ∧ c ≤ '9' then some (c.toNat - '0'.toNat)
  else if 'a' ≤ c ∧ c ≤ 'f' then some (c.toNat - 'a'.toNat + 10)
  else if 'A' ≤ c ∧ c ≤ 'F' then some (c.toNat - 'A'.toNat + 10)
  else none

/-- The number of the digits, with an optional plus sign in front of them. -/
def fromStrRadix16 (s : List Char) : Option UInt8 :=
  let digits := if s.head? = some '+' then s.tail else s
  if digits = [] then none
  else (digits.mapM toDigit).bind fun ds =>
    let n := ds.foldl (16 * · + ·) 0
    if n < 256 then some (UInt8.ofNat n) else none

theorem toDigit_lt {c : Char} {m : ℕ} (h : toDigit c = some m) : m < 16 := by
  unfold toDigit at h
  split_ifs at h with hdigit hlower hupper <;> simp only [Option.some.injEq] at h
  · have : c.toNat ≤ '9'.toNat := hdigit.2
    simp at this h
    omega
  · have : c.toNat ≤ 'f'.toNat := hlower.2
    simp at this h
    omega
  · have : c.toNat ≤ 'F'.toNat := hupper.2
    simp at this h
    omega

/-- A digit is an ASCII character, and no sign. -/
theorem toDigit_char {c : Char} {m : ℕ} (h : toDigit c = some m) : c.toNat < 128 ∧ c ≠ '+' := by
  have hplus : c ≠ '+' := by
    rintro rfl
    have hnone : toDigit '+' = none := by decide
    rw [hnone] at h
    cases h
  refine ⟨?_, hplus⟩
  unfold toDigit at h
  split_ifs at h with hdigit hlower hupper
  · have : c.toNat ≤ '9'.toNat := hdigit.2
    exact this.trans_lt (by decide)
  · have : c.toNat ≤ 'f'.toNat := hlower.2
    exact this.trans_lt (by decide)
  · have : c.toNat ≤ 'F'.toNat := hupper.2
    exact this.trans_lt (by decide)

/-- Two digits write a byte. -/
theorem fromStrRadix16_pair {a b : Char} {m n : ℕ} (ha : toDigit a = some m) (hb : toDigit b = some n) :
    fromStrRadix16 [a, b] = some (UInt8.ofNat (16 * m + n)) := by
  have hm := toDigit_lt ha
  have hn := toDigit_lt hb
  have hsign : ¬ [a, b].head? = some '+' := fun h => (toDigit_char ha).2 (Option.some.inj h)
  have hdigits : [a, b].mapM toDigit = some [m, n] := by
    rw [List.mapM_cons, List.mapM_cons, ha, hb]
    rfl
  have hlt : 16 * (16 * 0 + m) + n < 256 := by omega
  unfold fromStrRadix16
  rw [if_neg hsign]
  dsimp only
  rw [if_neg (List.cons_ne_nil _ _), hdigits, Option.bind_some, List.foldl_cons, List.foldl_cons, List.foldl_nil,
    if_pos hlt, Nat.mul_zero, Nat.zero_add]

/-! ## The walk -/

/-- The byte as a character. -/
def latin (b : UInt8) : Char := Char.ofNat b.toNat

/-- The rest of the bytes, from one index of the loop on. -/
def decodeFrom : List UInt8 → List Char
  | [] => []
  | [b] => [latin b]
  | [b, b₁] => [latin b, latin b₁]
  | b :: b₁ :: b₂ :: rest =>
    match if b = 0x25 then (fromUtf8 [b₁, b₂]).bind fromStrRadix16 else none with
    | some byte => latin byte :: decodeFrom rest
    | none => latin b :: decodeFrom (b₁ :: b₂ :: rest)

def urlDecode (s : List Char) : List Char := decodeFrom (bytes (replaceChar '+' [' '] s))

theorem latin_ascii {c : Char} (h : c.toNat < 128) : latin c.val.toUInt8 = c := by
  have hsmall : c.val.toNat < 256 := lt_trans h (by decide)
  have hnat : c.val.toUInt8.toNat = c.toNat := by
    rw [UInt32.toNat_toUInt8]
    exact Nat.mod_eq_of_lt hsmall
  rw [latin, hnat, Char.ofNat_toNat]

/-- What the two bytes behind a `%` write. -/
def escaped (b₁ b₂ : UInt8) : Option UInt8 := (fromUtf8 [b₁, b₂]).bind fromStrRadix16

/-- Where no escape is, the byte stands for itself. -/
theorem decodeFrom_raw {b : UInt8} {rest : List UInt8}
    (h : ∀ b₁ b₂ r, rest = b₁ :: b₂ :: r → b = 0x25 → escaped b₁ b₂ = none) :
    decodeFrom (b :: rest) = latin b :: decodeFrom rest := by
  rcases rest with _ | ⟨b₁, _ | ⟨b₂, rest⟩⟩
  · rfl
  · rfl
  · have hnone : (if b = 0x25 then escaped b₁ b₂ else none) = none := by
      split_ifs with hb
      · exact h b₁ b₂ rest rfl hb
      · rfl
    rw [escaped] at hnone
    rw [decodeFrom, hnone]

/-- Only a `%` begins an escape. -/
theorem decodeFrom_self {b : UInt8} (h : b ≠ 0x25) (rest : List UInt8) :
    decodeFrom (b :: rest) = latin b :: decodeFrom rest :=
  decodeFrom_raw fun _ _ _ _ hpercent => absurd hpercent h

/-- An escape stands for the byte that its digits write. -/
theorem decodeFrom_escape {a b : Char} {m n : ℕ} (ha : toDigit a = some m) (hb : toDigit b = some n)
    (rest : List UInt8) : decodeFrom (0x25 :: a.val.toUInt8 :: b.val.toUInt8 :: rest) =
      latin (UInt8.ofNat (16 * m + n)) :: decodeFrom rest := by
  have hbytes : [a.val.toUInt8, b.val.toUInt8] = bytes [a, b] := by
    rw [bytes_cons, bytes_cons, encode_ascii (toDigit_char ha).1, encode_ascii (toDigit_char hb).1]
    rfl
  rw [decodeFrom, if_pos rfl, hbytes, fromUtf8_bytes, Option.bind_some, fromStrRadix16_pair ha hb]

/-! ## Spellings -/

/-- The second text writes the first one: a character for itself, `+` for a space, or an escape. -/
inductive Spelled : List Char → List Char → Prop
  | nil : Spelled [] []
  | self {c : Char} {s t : List Char} (hpercent : c ≠ '%') (hplus : c ≠ '+') (h : Spelled s t) :
      Spelled (c :: s) (c :: t)
  | space {s t : List Char} (h : Spelled s t) : Spelled (' ' :: s) ('+' :: t)
  | escape {c a b : Char} {m n : ℕ} {s t : List Char} (ha : toDigit a = some m) (hb : toDigit b = some n)
      (hc : 16 * m + n = c.toNat) (h : Spelled s t) : Spelled (c :: s) ('%' :: a :: b :: t)

theorem Spelled.ascii {s t : List Char} (h : Spelled s t) (hs : IsAscii s) : IsAscii t := by
  induction h with
  | nil => exact hs
  | self _ _ _ ih => exact List.forall_mem_cons.2 ⟨hs.cons.1, ih hs.cons.2⟩
  | space _ ih => exact List.forall_mem_cons.2 ⟨by decide, ih hs.cons.2⟩
  | escape ha hb _ _ ih =>
    exact List.forall_mem_cons.2 ⟨by decide, List.forall_mem_cons.2 ⟨(toDigit_char ha).1, List.forall_mem_cons.2
      ⟨(toDigit_char hb).1, ih hs.cons.2⟩⟩⟩

theorem Spelled.length_le {s t : List Char} (h : Spelled s t) : s.length ≤ t.length := by
  induction h with
  | nil => exact Nat.le_refl _
  | self _ _ _ ih => exact Nat.succ_le_succ ih
  | space _ ih => exact Nat.succ_le_succ ih
  | escape _ _ _ _ ih =>
    simp only [List.length_cons]
    omega

theorem replaceChar_cons_ne {c d : Char} (h : d ≠ c) (t s : List Char) :
    replaceChar c t (d :: s) = d :: replaceChar c t s := by
  rw [replaceChar, List.flatMap_cons, if_neg h]
  rfl

theorem replaceChar_cons_eq (c : Char) (t s : List Char) : replaceChar c t (c :: s) = t ++ replaceChar c t s := by
  rw [replaceChar, List.flatMap_cons, if_pos rfl]
  rfl

/-- A spelling is decoded, whatever stands behind it. -/
theorem decodeFrom_spelled {s t : List Char} (hs : IsAscii s) (h : Spelled s t) (rest : List UInt8) :
    decodeFrom (bytes (replaceChar '+' [' '] t) ++ rest) = s ++ decodeFrom rest := by
  induction h with
  | nil => rfl
  | @self c s t hpercent hplus h ih =>
    obtain ⟨hc, hs⟩ := hs.cons
    have hbyte : c.val.toUInt8 ≠ 0x25 := by
      intro heq
      refine hpercent ?_
      rw [← latin_ascii hc, heq]
      rfl
    rw [replaceChar_cons_ne hplus, bytes_cons, encode_ascii hc, List.singleton_append, List.cons_append,
      decodeFrom_self hbyte, ih hs, latin_ascii hc, List.cons_append]
  | space h ih =>
    rw [replaceChar_cons_eq, bytes_append, show bytes [' '] = [0x20] from rfl, List.singleton_append, List.cons_append,
      decodeFrom_self (by decide), ih hs.cons.2]
    rfl
  | @escape c a b m n s t ha hb hc h ih =>
    obtain ⟨hlt, hs⟩ := hs.cons
    have hchar : latin (UInt8.ofNat (16 * m + n)) = c := by
      rw [hc, latin, UInt8.toNat_ofNat_of_lt' (lt_trans hlt (by decide)), Char.ofNat_toNat]
    rw [replaceChar_cons_ne (by decide), replaceChar_cons_ne (toDigit_char ha).2,
      replaceChar_cons_ne (toDigit_char hb).2, bytes_cons, bytes_cons, bytes_cons, encode_ascii (by decide),
      encode_ascii (toDigit_char ha).1, encode_ascii (toDigit_char hb).1]
    simp only [List.cons_append, List.nil_append]
    rw [show '%'.val.toUInt8 = 0x25 from rfl, decodeFrom_escape ha hb, ih hs, hchar]

/-- **Every spelling of a text is decoded** to the text. -/
theorem urlDecode_spelled {s t : List Char} (hs : IsAscii s) (h : Spelled s t) : urlDecode t = s := by
  have hwhole := decodeFrom_spelled hs h []
  rwa [List.append_nil, show decodeFrom [] = [] from rfl, List.append_nil] at hwhole

theorem urlDecode_mixed : urlDecode "%2ba+%25%7A".toList = "+a %z".toList :=
  urlDecode_spelled (by decide) (.escape (m := 2) (n := 11) rfl rfl rfl (.self (by decide) (by decide)
    (.space (.escape (m := 2) (n := 5) rfl rfl rfl (.escape (m := 7) (n := 10) rfl rfl rfl .nil)))))

/-! ## Spellings within a text -/

/-- An escape that begins in the first text ends in the second one. -/
def Crosses (front rest : List UInt8) : Prop :=
  (∃ l b₁ b₂ r, front = l ++ [0x25] ∧ rest = b₁ :: b₂ :: r ∧ escaped b₁ b₂ ≠ none) ∨
    ∃ l b₁ b₂ r, front = l ++ [0x25, b₁] ∧ rest = b₂ :: r ∧ escaped b₁ b₂ ≠ none

theorem not_crosses_suffix {l front rest : List UInt8} (h : ¬ Crosses (l ++ front) rest) : ¬ Crosses front rest := by
  rintro (⟨m, b₁, b₂, r, rfl, hrest⟩ | ⟨m, b₁, b₂, r, rfl, hrest⟩)
  · exact h (.inl ⟨l ++ m, b₁, b₂, r, by rw [List.append_assoc], hrest⟩)
  · exact h (.inr ⟨l ++ m, b₁, b₂, r, by rw [List.append_assoc], hrest⟩)

/-- **Two texts are decoded each by itself**, if no escape of the first one ends in the second. -/
theorem decodeFrom_append {front rest : List UInt8} (h : ¬ Crosses front rest) :
    decodeFrom (front ++ rest) = decodeFrom front ++ decodeFrom rest := by
  have hlast (b : UInt8) (hb : ¬ Crosses [b] rest) : decodeFrom (b :: rest) = latin b :: decodeFrom rest := by
    refine decodeFrom_raw fun b₁ b₂ r hrest hpercent => ?_
    by_contra hsome
    exact hb (.inl ⟨[], b₁, b₂, r, by rw [hpercent]; rfl, hrest, hsome⟩)
  induction front using decodeFrom.induct with
  | case1 => rfl
  | case2 b => exact hlast b h
  | case3 b b₁ =>
    have hfirst : decodeFrom (b :: b₁ :: rest) = latin b :: decodeFrom (b₁ :: rest) := by
      refine decodeFrom_raw fun c₁ b₂ r hrest hpercent => ?_
      by_contra hsome
      obtain ⟨rfl, hr⟩ := List.cons.inj hrest
      exact h (.inr ⟨[], _, b₂, r, by rw [hpercent]; rfl, hr, hsome⟩)
    rw [List.cons_append, List.cons_append, List.nil_append, hfirst, hlast b₁ (@not_crosses_suffix [b] _ _ h)]
    rfl
  | case4 b b₁ b₂ front byte hescape ih =>
    have hfront := ih (@not_crosses_suffix [b, b₁, b₂] _ _ h)
    simp only [List.cons_append, decodeFrom, hescape]
    rw [hfront]
  | case5 b b₁ b₂ front hnone ih =>
    have hfront := ih (@not_crosses_suffix [b] _ _ h)
    simp only [List.cons_append] at hfront
    simp only [List.cons_append, decodeFrom, hnone]
    rw [hfront]

/-- An escape of the characters in front ends in the text. -/
def Torn (front t : List Char) : Prop :=
  (∃ l a b r, front = l ++ ['%'] ∧ t = a :: b :: r ∧ toDigit a ≠ none ∧ toDigit b ≠ none) ∨
    ∃ l a b r, front = l ++ ['%', a] ∧ t = b :: r ∧ toDigit a ≠ none ∧ toDigit b ≠ none

theorem Torn.mem_front {front t : List Char} (h : Torn front t) : '%' ∈ front := by
  rcases h with ⟨l, a, b, r, rfl, -⟩ | ⟨l, a, b, r, rfl, -⟩
  · exact List.mem_append_right _ List.mem_cons_self
  · exact List.mem_append_right _ List.mem_cons_self

/-- `+` as a space. -/
def spaced (c : Char) : Char := if c = '+' then ' ' else c

theorem replaceChar_eq_map (s : List Char) : replaceChar '+' [' '] s = s.map spaced := by
  induction s with
  | nil => rfl
  | cons c s ih =>
    by_cases hc : c = '+'
    · rw [hc, replaceChar_cons_eq, ih]
      rfl
    · rw [replaceChar_cons_ne hc, ih, List.map_cons, spaced, if_neg hc]

theorem spaced_digit {c : Char} (h : toDigit (spaced c) ≠ none) : spaced c = c := by
  unfold spaced at h ⊢
  split_ifs at h ⊢ with hplus
  · exact absurd rfl h
  · rfl

theorem spaced_ascii {c : Char} (h : c.toNat < 128) : (spaced c).toNat < 128 := by
  unfold spaced
  split_ifs
  · decide
  · exact h

theorem spaced_ne_plus (c : Char) : spaced c ≠ '+' := by
  unfold spaced
  split_ifs with hplus
  · decide
  · exact hplus

theorem eq_percent {c : Char} (h : spaced c = '%') : c = '%' := by
  unfold spaced at h
  split_ifs at h
  · exact absurd h (by decide)
  · exact h

theorem eq_concat_of_spaced {s s' : List Char} {c : Char} (h : s.map spaced = s' ++ [c]) :
    ∃ t d, s = t ++ [d] ∧ t.map spaced = s' ∧ spaced d = c := by
  obtain ⟨t, u, rfl, ht, hu⟩ := List.map_eq_append_iff.1 h
  obtain ⟨d, rfl, hd⟩ := List.map_eq_singleton_iff.1 hu
  exact ⟨t, d, rfl, ht, hd⟩

/-- An ASCII byte at the end of a text is its last character. -/
theorem eq_concat_of_bytes {s : List Char} {l : List UInt8} {c : Char} (hc : c.toNat < 128)
    (h : bytes s = l ++ [c.val.toUInt8]) : ∃ s', s = s' ++ [c] ∧ bytes s' = l := by
  have hne : s ≠ [] := by
    rintro rfl
    exact List.concat_ne_nil _ _ h.symm
  obtain ⟨s', d, rfl⟩ : ∃ s' d, s = s' ++ [d] := ⟨_, _, (List.dropLast_append_getLast hne).symm⟩
  have hencode : String.utf8EncodeChar d ≠ [] := String.utf8EncodeChar_ne_nil
  obtain ⟨x, b, hx⟩ : ∃ x b, String.utf8EncodeChar d = x ++ [b] :=
    ⟨_, _, (List.dropLast_append_getLast hencode).symm⟩
  rw [bytes_append, bytes_cons, show bytes [] = [] from rfl, List.append_nil, hx, ← List.append_assoc] at h
  obtain ⟨hl, hb⟩ := List.append_inj' h rfl
  obtain rfl := List.singleton_inj.1 hb
  obtain rfl := eq_nil_of_encode hc hx
  have hd : some d = some c := by
    rw [← decodeChar?_append d [], hx, List.nil_append, ← encode_ascii hc, decodeChar?_append]
  rw [List.append_nil] at hl
  exact ⟨s', by rw [Option.some.inj hd], hl⟩

theorem ascii_of_bytes {s : List Char} {b : UInt8} (h : bytes s = [b]) :
    ∃ c : Char, c.toNat < 128 ∧ c.val.toUInt8 = b := by
  cases s with
  | nil => cases h
  | cons c s =>
    have hlength := congrArg List.length h
    rw [bytes_cons, List.length_append, String.length_utf8EncodeChar, List.length_singleton] at hlength
    have hpos := c.utf8Size_pos
    have hc : c.toNat < 128 := Nat.lt_succ_of_le (UInt32.le_iff_toNat_le.1 (Char.utf8Size_eq_one_iff.1 (by omega)))
    rw [bytes_cons, encode_ascii hc, List.singleton_append] at h
    exact ⟨c, hc, (List.cons.inj h).1⟩

/-- The digits of an escape. -/
theorem digits_of_escaped {a b : Char} (ha : a.toNat < 128) (hb : b.toNat < 128) (hplus : a ≠ '+')
    (h : escaped a.val.toUInt8 b.val.toUInt8 ≠ none) : toDigit a ≠ none ∧ toDigit b ≠ none := by
  have hbytes : [a.val.toUInt8, b.val.toUInt8] = bytes [a, b] := by
    rw [bytes_cons, bytes_cons, encode_ascii ha, encode_ascii hb]
    rfl
  have hsign : ¬ [a, b].head? = some '+' := fun h => hplus (Option.some.inj h)
  rw [escaped, hbytes, fromUtf8_bytes, Option.bind_some, fromStrRadix16, if_neg hsign, List.mapM_cons,
    List.mapM_cons] at h
  constructor
  · intro hnone
    rw [hnone] at h
    exact h rfl
  · intro hnone
    rw [hnone] at h
    cases htoDigit : toDigit a with
    | none =>
      rw [htoDigit] at h
      exact h rfl
    | some m =>
      rw [htoDigit] at h
      exact h rfl

theorem torn_of_crosses {front t rest : List Char} (ht : IsAscii t) (hlength : 2 ≤ t.length)
    (h : Crosses (bytes (replaceChar '+' [' '] front)) (bytes (replaceChar '+' [' '] (t ++ rest)))) : Torn front t := by
  rcases t with _ | ⟨a, _ | ⟨b, t⟩⟩
  · exact absurd hlength (by decide)
  · exact absurd hlength (by simp)
  obtain ⟨ha, htail⟩ := ht.cons
  have hb := htail.cons.1
  rw [replaceChar_eq_map, replaceChar_eq_map] at h
  simp only [List.cons_append, List.map_cons, bytes_cons, encode_ascii (spaced_ascii ha), encode_ascii (spaced_ascii hb),
    List.nil_append] at h
  rcases h with ⟨l, b₁, b₂, r, hfront, hrest, hescaped⟩ | ⟨l, b₁, b₂, r, hfront, hrest, hescaped⟩
  · obtain ⟨rfl, hsecond⟩ := List.cons.inj hrest
    obtain ⟨rfl, -⟩ := List.cons.inj hsecond
    obtain ⟨ha', hb'⟩ := digits_of_escaped (spaced_ascii ha) (spaced_ascii hb) (spaced_ne_plus a) hescaped
    rw [spaced_digit ha'] at ha'
    rw [spaced_digit hb'] at hb'
    obtain ⟨s, hs, -⟩ := eq_concat_of_bytes (show '%'.toNat < 128 by decide) hfront
    obtain ⟨f, d, rfl, -, hd⟩ := eq_concat_of_spaced hs
    exact .inl ⟨f, a, b, t, by rw [eq_percent hd], rfl, ha', hb'⟩
  · obtain ⟨rfl, -⟩ := List.cons.inj hrest
    obtain ⟨cs, hcs⟩ : ∃ cs, fromUtf8 [b₁, (spaced a).val.toUInt8] = some cs := by
      rw [← Option.ne_none_iff_exists']
      intro hnone
      rw [escaped, hnone] at hescaped
      exact hescaped rfl
    obtain ⟨cs, -, hfirst⟩ := eq_concat_of_bytes (l := [b₁]) (spaced_ascii ha) (fromUtf8_eq_some_iff.1 hcs)
    obtain ⟨c, hc, rfl⟩ := ascii_of_bytes hfirst
    rw [← List.singleton_append, ← List.append_assoc] at hfront
    obtain ⟨s, hs, hbefore⟩ := eq_concat_of_bytes hc hfront
    obtain ⟨f, d, rfl, hf, rfl⟩ := eq_concat_of_spaced hs
    obtain ⟨hd', ha'⟩ := digits_of_escaped hc (spaced_ascii ha) (spaced_ne_plus d) hescaped
    rw [spaced_digit hd'] at hd'
    rw [spaced_digit ha'] at ha'
    obtain ⟨s', hs', -⟩ := eq_concat_of_bytes (show '%'.toNat < 128 by decide) hbefore
    obtain ⟨f', e, rfl, -, he⟩ := eq_concat_of_spaced (hf.trans hs')
    exact .inr ⟨f', d, a, b :: t, by rw [eq_percent he, List.append_assoc]; rfl, rfl, hd', ha'⟩

/-- **A spelling within a text is decoded.** -/
theorem urlDecode_within {front s t : List Char} (hs : IsAscii s) (ht : IsAscii t) (hlength : 2 ≤ t.length)
    (h : Spelled s t) (htorn : ¬ Torn front t) (rest : List Char) :
    ∃ behind, urlDecode (front ++ (t ++ rest)) = urlDecode front ++ (s ++ behind) := by
  have hsplit (x y : List Char) : bytes (replaceChar '+' [' '] (x ++ y)) =
      bytes (replaceChar '+' [' '] x) ++ bytes (replaceChar '+' [' '] y) := by
    rw [replaceChar, List.flatMap_append, bytes_append]
    rfl
  refine ⟨decodeFrom (bytes (replaceChar '+' [' '] rest)), ?_⟩
  rw [urlDecode, hsplit, decodeFrom_append (mt (torn_of_crosses ht hlength) htorn), hsplit, decodeFrom_spelled hs h]
  rfl

end ThorFirewall.Web
