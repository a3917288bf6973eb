import Mathlib.Data.List.Infix

/-!
# JSON as text

Strings as a JSON writer puts them between quotes: quotes, backslashes and control characters are escaped, everything
else stands for itself.

- `readChar_escape`: an escaped character is read back, so that a string ends at the first quote that is not escaped
  (`escaped_append_inj`);
- `infix_of_infix_escaped`: what begins with a brace and a quote does not begin inside of a string;
- `append_inj_of_marked`: a text behind another one is determined by a mark that only its beginning has.
-/

namespace JsonText

def hexDigit (n : ℕ) : Char :=
  ['0', '1', '2', '3', '4', '5', '6', '7', '8', '9', 'a', 'b', 'c', 'd', 'e', 'f'].getD n '0'

def escapeChar (c : Char) : List Char :=
  if c = '"' then ['\\', '"'] else if c = '\\' then ['\\', '\\']
  else if c = '\x08' then ['\\', 'b'] else if c = '\x0c' then ['\\', 'f'] else if c = '\n' then ['\\', 'n']
  else if c = '\r' then ['\\', 'r'] else if c = '\t' then ['\\', 't']
  else if c.toNat < 0x20 then ['\\', 'u', '0', '0', hexDigit (c.toNat / 16), hexDigit (c.toNat % 16)]
  else [c]

def escaped (s : List Char) : List Char := s.flatMap escapeChar

def quoted (s : List Char) : List Char := '"' :: (escaped s ++ ['"'])

/-! ## Reading back -/

/-- The value of a hexadecimal digit. -/
def hexValue (c : Char) : ℕ := if c.isDigit then c.toNat - '0'.toNat else c.toNat - 'a'.toNat + 10

/-- The first character of an escaped text, and what is behind it. -/
def readChar : List Char → Option (Char × List Char)
  | [] => none
  | '"' :: _ => none
  | '\\' :: 'u' :: _ :: _ :: high :: low :: rest => some (Char.ofNat (16 * hexValue high + hexValue low), rest)
  | '\\' :: 'b' :: rest => some ('\x08', rest)
  | '\\' :: 'f' :: rest => some ('\x0c', rest)
  | '\\' :: 'n' :: rest => some ('\n', rest)
  | '\\' :: 'r' :: rest => some ('\r', rest)
  | '\\' :: 't' :: rest => some ('\t', rest)
  | '\\' :: c :: rest => some (c, rest)
  | c :: rest => some (c, rest)

theorem ofNat_hexValue {n : ℕ} (h : n < 0x20) :
    Char.ofNat (16 * hexValue (hexDigit (n / 16)) + hexValue (hexDigit (n % 16))) = Char.ofNat n := by
  revert n
  decide

theorem readChar_escape (c : Char) (rest : List Char) : readChar (escapeChar c ++ rest) = some (c, rest) := by
  unfold escapeChar
  split
  · next h => rw [h]; rfl
  split
  · next h => rw [h]; rfl
  split
  · next h => rw [h]; rfl
  split
  · next h => rw [h]; rfl
  split
  · next h => rw [h]; rfl
  split
  · next h => rw [h]; rfl
  split
  · next h => rw [h]; rfl
  split
  · next hlow =>
    change some (Char.ofNat _, rest) = _
    rw [ofNat_hexValue hlow, Char.ofNat_toNat]
  · unfold readChar
    split <;> simp_all

theorem escaped_cons (c : Char) (s : List Char) : escaped (c :: s) = escapeChar c ++ escaped s := List.flatMap_cons

/-- **A string ends at its quote.** -/
theorem escaped_append_inj {s s' rest rest' : List Char}
    (h : escaped s ++ '"' :: rest = escaped s' ++ '"' :: rest') : s = s' ∧ rest = rest' := by
  induction s generalizing s' with
  | nil =>
    cases s' with
    | nil => exact ⟨rfl, (List.cons.inj h).2⟩
    | cons c s' =>
      have hread := congrArg readChar h
      rw [escaped_cons, List.append_assoc, readChar_escape] at hread
      cases hread
  | cons c s ih =>
    cases s' with
    | nil =>
      have hread := congrArg readChar h
      rw [escaped_cons, List.append_assoc, readChar_escape] at hread
      cases hread
    | cons c' s' =>
      rw [escaped_cons, escaped_cons, List.append_assoc, List.append_assoc] at h
      have hread := congrArg readChar h
      rw [readChar_escape, readChar_escape, Option.some.injEq, Prod.mk.injEq] at hread
      obtain ⟨rfl, htail⟩ := hread
      exact ⟨congrArg _ (ih htail).1, (ih htail).2⟩

/-! ## Where objects begin -/

section Infix

variable {α : Type*} {a : α} {m w rest : List α}

/-- A pattern does not begin where its first element is not. -/
theorem infix_of_infix_cons {b : α} (hb : a ≠ b) (h : a :: m <:+: b :: rest) : a :: m <:+: rest := by
  rw [List.infix_cons_iff] at h
  rcases h with h | h
  · exact absurd (List.cons_prefix_cons.1 h).1 hb
  · exact h

theorem infix_of_infix_append (hw : a ∉ w) (h : a :: m <:+: w ++ rest) : a :: m <:+: rest := by
  induction w with
  | nil => exact h
  | cons b w ih =>
    rw [List.mem_cons, not_or] at hw
    exact ih hw.2 (infix_of_infix_cons hw.1 h)

/-- A text whose beginning is a mark that does not occur again is found behind any other text. -/
theorem append_inj_of_marked {p p' j j' : List α} (hj : m <+: j) (hj' : m <+: j') (hone : ¬ m <:+: j.tail)
    (hone' : ¬ m <:+: j'.tail) (h : p ++ j = p' ++ j') : p = p' ∧ j = j' := by
  rcases List.append_eq_append_iff.1 h with ⟨x, hp, hx⟩ | ⟨x, hp, hx⟩
  · cases x with
    | nil => exact ⟨by simpa using hp.symm, by simpa using hx⟩
    | cons y x =>
      rw [hx] at hone
      exact absurd (hj'.isInfix.trans (List.suffix_append x j').isInfix) hone
  · cases x with
    | nil => exact ⟨by simpa using hp, by simpa using hx.symm⟩
    | cons y x =>
      rw [hx] at hone'
      exact absurd (hj.isInfix.trans (List.suffix_append x j).isInfix) hone'

end Infix

/-- A character is escaped to itself, or to a text without a brace. -/
theorem escapeChar_cases (c : Char) : escapeChar c = [c] ∧ c ≠ '"' ∨ '\x7b' ∉ escapeChar c := by
  have hdigit : ∀ n < 16, '\x7b' ≠ hexDigit n := by decide
  unfold escapeChar
  split
  · exact Or.inr (by decide)
  next hquote =>
  split
  · exact Or.inr (by decide)
  split
  · exact Or.inr (by decide)
  split
  · exact Or.inr (by decide)
  split
  · exact Or.inr (by decide)
  split
  · exact Or.inr (by decide)
  split
  · exact Or.inr (by decide)
  split
  · right
    simp [hdigit (c.toNat / 16) (by omega), hdigit (c.toNat % 16) (by omega)]
  · exact Or.inl ⟨rfl, hquote⟩

/-- What is behind a quote in a string does not begin with a quote. -/
theorem not_prefix_escaped (s rest : List Char) {k c : Char} (hk : c ≠ k) (m : List Char) :
    ¬ '"' :: k :: m <+: escaped s ++ '"' :: c :: rest := by
  intro h
  cases s with
  | nil => exact hk (List.cons_prefix_cons.1 (List.cons_prefix_cons.1 h).2).1.symm
  | cons d s =>
    obtain ⟨t, ht⟩ := h
    have hread := congrArg readChar ht
    rw [escaped_cons, List.append_assoc, readChar_escape] at hread
    cases hread

/-- **No object begins inside of a string.** A brace and a quote with `k` behind them do not begin in a string that is
followed by another character than `k`. -/
theorem infix_of_infix_escaped {s rest m : List Char} {k c : Char} (hk : c ≠ k) (hc : c ≠ '\x7b')
    (h : '\x7b' :: '"' :: k :: m <:+: escaped s ++ '"' :: c :: rest) : '\x7b' :: '"' :: k :: m <:+: rest := by
  induction s with
  | nil => exact infix_of_infix_cons hc.symm (infix_of_infix_cons (by decide) h)
  | cons d s ih =>
    rw [escaped_cons, List.append_assoc] at h
    rcases escapeChar_cases d with ⟨hd, -⟩ | hd
    · rw [hd, List.singleton_append, List.infix_cons_iff] at h
      rcases h with h | h
      · exact absurd (List.cons_prefix_cons.1 h).2 (not_prefix_escaped s rest hk m)
      · exact ih h
    · exact ih (infix_of_infix_append hd h)

end JsonText
