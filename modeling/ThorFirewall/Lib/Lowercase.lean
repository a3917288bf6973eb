import Mathlib
import ThorFirewall.Lib.TextSearch

/-!
# Lower case

The lower case of a text is that of its characters, one behind the other; a capital sigma may become the one for the end
of a word. What becomes ASCII is ASCII, but for U+0130, which becomes an `i` and a dot, and U+212A, a `k`.

- `find_text`: ASCII is found in the lower case of a text where it is found in the text, if the case of ASCII is ignored;
  what stands in front of it may have another length.
-/

open Text Utf8 TextSearch

structure Lowercase where
  /-- `char::to_lowercase`. -/
  char : Char → List Char
  /-- `str::to_lowercase`. -/
  text : List Char → List Char
  char_ascii : ∀ c, c.toNat < 128 → char c = [c.toLower]
  char_other : ∀ c, 128 ≤ c.toNat → char c ≠ [] ∧ (∀ d ∈ char c, 128 ≤ d.toNat) ∨
    char c = ['i', '\u0307'] ∨ char c = ['k']
  char_sigma : char '\u03A3' = ['\u03C3']
  text_eq : ∀ s, ∃ ws, List.Forall₂ (fun c w => w = char c ∨ c = '\u03A3' ∧ w = ['\u03C2']) s ws ∧ text s = ws.flatten

namespace Lowercase

/-- ASCII that only ASCII becomes. -/
def OfAscii (t : List Char) : Prop := IsAscii t ∧ 'k' ∉ t ∧ t.getLast? ≠ some 'i'

instance (t : List Char) : Decidable (OfAscii t) := inferInstanceAs (Decidable (_ ∧ _))

theorem OfAscii.tail {d : Char} {t : List Char} (h : OfAscii (d :: t)) : OfAscii t := by
  obtain ⟨hascii, hk, hi⟩ := h
  refine ⟨hascii.cons.2, fun hmem => hk (List.mem_cons_of_mem _ hmem), fun hlast => hi ?_⟩
  rw [List.getLast?_cons, hlast]
  rfl

theorem ascii_of_toLower {c : Char} (h : c.toLower.toNat < 128) : c.toNat < 128 := by
  unfold Char.toLower at h
  split_ifs at h with hupper
  · have hle : c.toNat ≤ 'Z'.toNat := hupper.2
    exact hle.trans_lt (by decide)
  · exact h

variable {L : Lowercase} {c d : Char} {w s t : List Char} {ws : List (List Char)}

variable (L) in
/-- What a character becomes in a text. -/
def Becomes (c : Char) (w : List Char) : Prop := w = L.char c ∨ c = '\u03A3' ∧ w = ['\u03C2']

theorem Becomes.ascii (h : L.Becomes c w) (hc : c.toNat < 128) : w = [c.toLower] := by
  rcases h with rfl | ⟨rfl, -⟩
  · exact L.char_ascii c hc
  · exact absurd hc (by decide)

/-- At most the first character of what one becomes is ASCII. -/
theorem Becomes.cases (h : L.Becomes c w) : ∃ d r, w = d :: r ∧ (∀ e ∈ r, 128 ≤ e.toNat) ∧
    (128 ≤ d.toNat ∨ c.toNat < 128 ∧ d = c.toLower ∧ r = [] ∨ d = 'i' ∧ r = ['\u0307'] ∨ d = 'k' ∧ r = []) := by
  have hnone : ∀ e ∈ ([] : List Char), 128 ≤ e.toNat := fun e he => by cases he
  by_cases hc : c.toNat < 128
  · exact ⟨_, [], h.ascii hc, hnone, .inr (.inl ⟨hc, rfl, rfl⟩)⟩
  · rcases h with rfl | ⟨-, rfl⟩
    · rcases L.char_other c (Nat.le_of_not_lt hc) with ⟨hne, hall⟩ | hi | hk
      · obtain ⟨d, r, hw⟩ := List.exists_cons_of_ne_nil hne
        rw [hw] at hall
        obtain ⟨hd, hr⟩ := List.forall_mem_cons.1 hall
        exact ⟨d, r, hw, hr, .inl hd⟩
      · refine ⟨_, _, hi, fun e he => ?_, .inr (.inr (.inl ⟨rfl, rfl⟩))⟩
        rw [List.mem_singleton.1 he]
        decide
      · exact ⟨_, _, hk, hnone, .inr (.inr (.inr ⟨rfl, rfl⟩))⟩
    · exact ⟨_, [], rfl, hnone, .inl (by decide)⟩

theorem Becomes.byteLength (h : L.Becomes c w) : byteLength w = byteLength (L.char c) := by
  rcases h with rfl | ⟨rfl, rfl⟩
  · rfl
  · rw [L.char_sigma]
    rfl

theorem Becomes.length (h : L.Becomes c w) : w.length = (L.char c).length := by
  rcases h with rfl | ⟨rfl, rfl⟩
  · rfl
  · rw [L.char_sigma]
    rfl

/-- ASCII that is found in a text, if its case is ignored, has a byte for each character. -/
theorem byteLength_of_map (ht : IsAscii t) (h : s.map Char.toLower = t) : byteLength s = t.length := by
  have hs : IsAscii s := fun c hc => ascii_of_toLower (ht _ (h ▸ List.mem_map_of_mem hc))
  rw [byteLength_ascii hs, ← h, List.length_map]

/-- **ASCII at the start of a text** is there in either case. -/
theorem prefix_flatten_iff (h : List.Forall₂ L.Becomes s ws) (ht : OfAscii t) :
    t <+: ws.flatten ↔ t <+: s.map Char.toLower := by
  induction t generalizing s ws with
  | nil => exact iff_of_true List.nil_prefix List.nil_prefix
  | cons x t ih =>
    cases h with
    | nil => exact Iff.rfl
    | @cons c w s ws hc hs =>
      obtain ⟨d, r, rfl, -, hcases⟩ := hc.cases
      obtain ⟨hx, hascii⟩ := ht.1.cons
      rw [List.flatten_cons, List.cons_append, List.map_cons, List.cons_prefix_cons, List.cons_prefix_cons]
      constructor
      · rintro ⟨rfl, hrest⟩
        rcases hcases with hd | ⟨-, rfl, rfl⟩ | ⟨rfl, rfl⟩ | ⟨rfl, -⟩
        · exact absurd hx (Nat.not_lt.2 hd)
        · exact ⟨rfl, (ih hs ht.tail).1 hrest⟩
        · cases t with
          | nil => exact absurd rfl ht.2.2
          | cons y t =>
            obtain ⟨rfl, -⟩ := List.cons_prefix_cons.1 hrest
            exact absurd hascii.cons.1 (by decide)
        · exact absurd List.mem_cons_self ht.2.1
      · rintro ⟨rfl, hrest⟩
        obtain ⟨rfl, rfl⟩ := List.cons.inj (hc.ascii (ascii_of_toLower hx))
        exact ⟨rfl, (ih hs ht.tail).2 hrest⟩

/-- ASCII is not found within what one character becomes. -/
theorem find_becomes {x : Char} {r : List Char} (hx : x.toNat < 128) (hr : ∀ e ∈ r, 128 ≤ e.toNat) (rest : List Char) :
    find (x :: t) (r ++ rest) = (find (x :: t) rest).map (r.length + ·) := by
  induction r with
  | nil =>
    rw [List.nil_append]
    cases find (x :: t) rest with
    | none => rfl
    | some i => exact congrArg some (Nat.zero_add i).symm
  | cons e r ih =>
    obtain ⟨he, hr⟩ := List.forall_mem_cons.1 hr
    have hne : ¬ x :: t <+: e :: (r ++ rest) := fun h => by
      obtain ⟨rfl, -⟩ := List.cons_prefix_cons.1 h
      omega
    rw [List.cons_append, find_cons_of_ne hne, ih hr, Option.map_map]
    refine congrArg (Option.map · _) (funext fun i => ?_)
    simp only [Function.comp_apply, List.length_cons]
    omega

/-- **ASCII is found in the lower case of a text** where it is found in the text; the characters in front of it are those
in front of it in the text, in lower case. -/
theorem find_flatten (h : List.Forall₂ L.Becomes s ws) (ht : OfAscii t) (hne : t ≠ []) :
    match find t (s.map Char.toLower) with
    | some k => ∃ pos, find t ws.flatten = some pos ∧
        byteLength (ws.flatten.take pos) = byteLength ((s.take k).flatMap L.char)
    | none => find t ws.flatten = none := by
  obtain ⟨x, t, rfl⟩ := List.exists_cons_of_ne_nil hne
  induction h with
  | nil =>
    rw [List.map_nil, find_eq_none_iff.2 fun hin => by cases List.infix_nil.1 hin]
    exact find_eq_none_iff.2 fun hin => by cases List.infix_nil.1 hin
  | @cons c w s ws hc hs ih =>
    have hstart := prefix_flatten_iff (List.Forall₂.cons hc hs) ht
    by_cases hbegins : x :: t <+: (c :: s).map Char.toLower
    · rw [find_of_starts hbegins]
      exact ⟨0, find_of_starts (hstart.2 hbegins), rfl⟩
    · have hfirst : ¬ x :: t <+: (w :: ws).flatten := mt hstart.1 hbegins
      obtain ⟨d, r, rfl, hr, -⟩ := hc.cases
      have hskip : find (x :: t) (((d :: r) :: ws).flatten) = (find (x :: t) ws.flatten).map ((d :: r).length + ·) := by
        rw [List.flatten_cons, List.cons_append] at hfirst ⊢
        rw [find_cons_of_ne hfirst, find_becomes ht.1.cons.1 hr, Option.map_map]
        refine congrArg (Option.map · _) (funext fun i => ?_)
        simp only [Function.comp_apply, List.length_cons]
        omega
      rw [List.map_cons] at hbegins ⊢
      rw [find_cons_of_ne hbegins, hskip]
      cases hfind : find (x :: t) (s.map Char.toLower) with
      | none =>
        rw [hfind] at ih
        rw [ih]
        rfl
      | some k =>
        rw [hfind] at ih
        obtain ⟨pos, hpos, hlength⟩ := ih
        refine ⟨(d :: r).length + pos, by rw [hpos]; rfl, ?_⟩
        rw [List.flatten_cons, List.take_length_add_append, byteLength_append, hlength, List.take_succ_cons,
          List.flatMap_cons, byteLength_append, hc.byteLength]

theorem exists_text (L : Lowercase) (s : List Char) : ∃ ws, List.Forall₂ L.Becomes s ws ∧ L.text s = ws.flatten :=
  L.text_eq s

theorem prefix_text_iff (ht : OfAscii t) : t <+: L.text s ↔ t <+: s.map Char.toLower := by
  obtain ⟨ws, hws, htext⟩ := L.exists_text s
  rw [htext]
  exact prefix_flatten_iff hws ht

theorem find_text (L : Lowercase) (s : List Char) (ht : OfAscii t) (hne : t ≠ []) :
    match find t (s.map Char.toLower) with
    | some k => ∃ pos, find t (L.text s) = some pos ∧
        byteLength ((L.text s).take pos) = byteLength ((s.take k).flatMap L.char)
    | none => find t (L.text s) = none := by
  obtain ⟨ws, hws, htext⟩ := L.exists_text s
  rw [htext]
  exact find_flatten hws ht hne

theorem flatMap_char_ascii (hs : IsAscii s) : s.flatMap L.char = s.map Char.toLower := by
  induction s with
  | nil => rfl
  | cons c s ih =>
    obtain ⟨hc, hs⟩ := hs.cons
    rw [List.flatMap_cons, L.char_ascii c hc, ih hs, List.map_cons, List.singleton_append]

theorem flatten_ascii (h : List.Forall₂ L.Becomes s ws) (hs : IsAscii s) : ws.flatten = s.map Char.toLower := by
  induction h with
  | nil => rfl
  | cons hc _ ih =>
    obtain ⟨hascii, hs⟩ := hs.cons
    rw [List.flatten_cons, hc.ascii hascii, ih hs, List.map_cons, List.singleton_append]

theorem text_ascii (L : Lowercase) (hs : IsAscii s) : L.text s = s.map Char.toLower := by
  obtain ⟨ws, hws, htext⟩ := L.exists_text s
  rw [htext, flatten_ascii hws hs]

theorem forall₂_append {x y : List Char} (h : List.Forall₂ L.Becomes (x ++ y) ws) :
    ∃ xs ys, List.Forall₂ L.Becomes x xs ∧ List.Forall₂ L.Becomes y ys ∧ ws = xs ++ ys :=
  ⟨ws.take x.length, ws.drop x.length, (List.forall₂_take_append _ x y h.flip).flip,
    (List.forall₂_drop_append _ x y h.flip).flip, (List.take_append_drop _ ws).symm⟩

/-- ASCII within a text, in lower case. -/
theorem text_append (L : Lowercase) (x y : List Char) (ht : IsAscii t) :
    ∃ xs ys, List.Forall₂ L.Becomes x xs ∧ L.text (x ++ (t ++ y)) = xs.flatten ++ (t.map Char.toLower ++ ys) := by
  obtain ⟨ws, hws, htext⟩ := L.exists_text (x ++ (t ++ y))
  obtain ⟨xs, rest, hxs, hrest, rfl⟩ := forall₂_append hws
  obtain ⟨ts, ys, hts, -, rfl⟩ := forall₂_append hrest
  exact ⟨xs, ys.flatten, hxs, by rw [htext, List.flatten_append, List.flatten_append, flatten_ascii hts ht]⟩

theorem toLower_of_ge {c : Char} (h : 128 ≤ c.toNat) : c.toLower = c := by
  unfold Char.toLower
  split_ifs with hupper
  · have hle : c.toNat ≤ 'Z'.toNat := hupper.2
    exact absurd (h.trans hle) (by decide)
  · rfl

theorem forall₂_map (f : Char → List Char) (s : List Char) :
    List.Forall₂ (fun c w => w = f c ∨ c = '\u03A3' ∧ w = ['\u03C2']) s (s.map f) := by
  induction s with
  | nil => exact .nil
  | cons c s ih => exact .cons (.inl rfl) ih

/-- The lower case of ASCII, of the capital sigma and of U+0130. -/
def simpleChar (c : Char) : List Char :=
  if c = '\u03A3' then ['\u03C3'] else if c = '\u0130' then ['i', '\u0307'] else [c.toLower]

def simple : Lowercase where
  char := simpleChar
  text s := s.flatMap simpleChar
  char_ascii c hc := by
    rw [simpleChar, if_neg, if_neg]
    · rintro rfl
      exact absurd hc (by decide)
    · rintro rfl
      exact absurd hc (by decide)
  char_other c hc := by
    rw [simpleChar]
    split_ifs
    · exact .inl ⟨List.cons_ne_nil _ _, List.forall_mem_singleton.2 (by decide)⟩
    · exact .inr (.inl rfl)
    · exact .inl ⟨List.cons_ne_nil _ _, List.forall_mem_singleton.2 (by rwa [toLower_of_ge hc])⟩
  char_sigma := rfl
  text_eq s := ⟨s.map simpleChar, forall₂_map simpleChar s, rfl⟩

end Lowercase
