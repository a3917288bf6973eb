import Mathlib

/-!
# Escapes and separators

A backslash escapes the character behind it, so that a separator behind a backslash does not separate. Each definition
reads a text from its front, and its Boolean says whether the text stands behind a backslash that escapes.

- `columns_append`: texts that end with a separator are read back as columns;
- `readFields_eq_iff`: texts `key=written`, one after the other, are read back as fields exactly if what is written has
  no separator and stands for the field's own value.
-/

namespace Escape

/-- The character that an escape stands for. -/
def escapedChar : Char → Option Char
  | '|' => some '|'
  | '=' => some '='
  | '\\' => some '\\'
  | 'n' => some '\n'
  | _ => none

/-- Whether the text behind `c` stands behind a backslash that escapes. -/
def next (b : Bool) (c : Char) : Bool := !b && c == '\\'

def pending (b : Bool) (s : List Char) : Bool := s.foldl next b

/-- The number of separators that are not escaped. -/
def separators (sep : Char) : Bool → List Char → ℕ
  | _, [] => 0
  | b, c :: s => (if b = false ∧ c = sep then 1 else 0) + separators sep (next b c) s

/-- The parts of a text between its separators. -/
def pieces (sep : Char) : Bool → List Char → List (List Char)
  | _, [] => [[]]
  | b, c :: s =>
    if b = false ∧ c = sep then [] :: pieces sep (next b c) s
    else (pieces sep (next b c) s).modifyHead (c :: ·)

/-- The text in front of the first separator, and the text behind it. -/
def cut (sep : Char) : Bool → List Char → Option (List Char × List Char)
  | _, [] => none
  | b, c :: s =>
    if b = false ∧ c = sep then some ([], s) else (cut sep (next b c) s).map (Prod.map (c :: ·) id)

/-- The first `n` columns, each up to its separator, and the text behind them. -/
def columns (sep : Char) : ℕ → List Char → Option (List (List Char) × List Char)
  | 0, s => some ([], s)
  | n + 1, s => do
    let (column, s) ← cut sep false s
    let (rest, s) ← columns sep n s
    return (column :: rest, s)

/-- The text without its escapes. A backslash that does not begin one stands for itself. -/
def unescape : Bool → List Char → List Char
  | false, [] => []
  | true, [] => ['\\']
  | false, c :: s => if c = '\\' then unescape true s else c :: unescape false s
  | true, c :: s =>
    match escapedChar c with
    | some d => d :: unescape false s
    | none => '\\' :: c :: unescape false s

/-- No backslash begins an escape. -/
def EscapeFree (s : List Char) : Prop := ∀ c, (escapedChar c).isSome → ¬ ['\\', c] <:+: s

variable {sep : Char} {b : Bool} {s t : List Char}

/-! ## One text behind the other -/

@[simp] theorem pending_nil : pending b [] = b := rfl
@[simp] theorem pending_cons (c : Char) : pending b (c :: s) = pending (next b c) s := rfl
@[simp] theorem next_true (c : Char) : next true c = false := rfl
@[simp] theorem next_false (c : Char) : next false c = (c == '\\') := rfl

theorem next_of_ne {c : Char} (hc : c ≠ '\\') : next b c = false := by
  simp [next, hc]

theorem pending_append : pending b (s ++ t) = pending (pending b s) t := List.foldl_append

theorem separators_append :
    separators sep b (s ++ t) = separators sep b s + separators sep (pending b s) t := by
  induction s generalizing b with
  | nil => simp [separators]
  | cons c s ih => rw [List.cons_append, separators, separators, ih, pending_cons, Nat.add_assoc]

theorem length_pieces (sep : Char) (b : Bool) (s : List Char) : (pieces sep b s).length = separators sep b s + 1 := by
  induction s generalizing b with
  | nil => rfl
  | cons c s ih =>
    rw [pieces, separators]
    split_ifs with hc
    · rw [List.length_cons, ih, Nat.add_comm 1]
    · rw [List.length_modifyHead, ih, Nat.zero_add]

theorem pieces_ne_nil (s : List Char) : pieces sep b s ≠ [] := fun h => by
  have hlen := length_pieces sep b s
  simp [h] at hlen

theorem pieces_append (h : separators sep b s = 0) :
    pieces sep b (s ++ t) = (pieces sep (pending b s) t).modifyHead (s ++ ·) := by
  induction s generalizing b with
  | nil => exact (congrFun List.modifyHead_id _).symm
  | cons c s ih =>
    rw [separators] at h
    have hc : ¬ (b = false ∧ c = sep) := fun hc => by simp [hc] at h
    rw [List.cons_append, pieces, if_neg hc, ih (by omega), List.modifyHead_modifyHead, pending_cons]
    rfl

theorem pieces_of_separators_eq_zero (h : separators sep b s = 0) : pieces sep b s = [s] := by
  have := pieces_append (t := []) h
  rwa [List.append_nil, pieces, List.modifyHead_cons, List.append_nil] at this

theorem cut_append (h : separators sep b s = 0) (hs : pending b s = false) :
    cut sep b (s ++ sep :: t) = some (s, t) := by
  induction s generalizing b with
  | nil =>
    rw [pending_nil] at hs
    simp [cut, hs]
  | cons c s ih =>
    rw [separators] at h
    have hc : ¬ (b = false ∧ c = sep) := fun hc => by simp [hc] at h
    rw [List.cons_append, cut, if_neg hc, ih (by omega) hs]
    rfl

/-- Columns that have no separator and do not end inside of an escape are read back. -/
theorem columns_append {cs : List (List Char)} (h : ∀ c ∈ cs, separators sep false c = 0 ∧ pending false c = false) :
    columns sep cs.length (cs.flatMap (· ++ [sep]) ++ t) = some (cs, t) := by
  induction cs with
  | nil => rfl
  | cons c cs ih =>
    obtain ⟨hc, hend⟩ := h c List.mem_cons_self
    rw [List.length_cons, columns, List.flatMap_cons, List.append_assoc, List.append_assoc, List.singleton_append,
      cut_append hc hend]
    simp [ih fun d hd => h d (List.mem_cons_of_mem _ hd)]

/-! ## Texts without escapes -/

/-- A text is taken apart at its backslashes. -/
theorem escape_induction {P : List Char → Prop} (nil : P []) (plain : ∀ c s, c ≠ '\\' → P s → P (c :: s))
    (last : P ['\\']) (pair : ∀ c s, P s → P ('\\' :: c :: s)) : ∀ s, P s
  | [] => nil
  | [c] => by
    by_cases hc : c = '\\'
    · exact hc ▸ last
    · exact plain c [] hc nil
  | c :: d :: s => by
    by_cases hc : c = '\\'
    · exact hc ▸ pair d s (escape_induction nil plain last pair s)
    · exact plain c _ hc (escape_induction nil plain last pair (d :: s))

theorem unescape_cons {c : Char} (hc : c ≠ '\\') : unescape false (c :: s) = c :: unescape false s := by
  rw [unescape, if_neg hc]

theorem unescape_pair {c : Char} :
    unescape false ('\\' :: c :: s) = ((escapedChar c).elim ['\\', c] fun d => [d]) ++ unescape false s := by
  rw [unescape, if_pos rfl, unescape]
  cases escapedChar c <;> rfl

theorem length_unescape_le (s : List Char) : (unescape false s).length ≤ s.length := by
  induction s using escape_induction with
  | nil => exact le_refl _
  | plain c s hc ih =>
    rw [unescape_cons hc]
    exact Nat.succ_le_succ ih
  | last => exact le_refl _
  | pair c s ih =>
    rw [unescape_pair]
    cases escapedChar c <;> simp <;> omega

theorem escapeFree_nil : EscapeFree [] := fun _ _ h => by simpa using h.length_le

theorem escapeFree_cons {c : Char} (hc : c ≠ '\\') : EscapeFree (c :: s) ↔ EscapeFree s := by
  refine forall₂_congr fun d _ => not_congr ?_
  rw [List.infix_cons_iff, List.cons_prefix_cons]
  exact ⟨fun h => h.resolve_left fun h => hc h.1.symm, Or.inr⟩

theorem escapeFree_pair {c : Char} : EscapeFree ('\\' :: c :: s) ↔ escapedChar c = none ∧ EscapeFree s := by
  have hfirst (d : Char) : ['\\', d] <:+: '\\' :: c :: s ↔ d = c ∨ ['\\', d] <:+: c :: s := by
    rw [List.infix_cons_iff, List.cons_prefix_cons, List.cons_prefix_cons]
    simp
  constructor
  · intro h
    have hnone : escapedChar c = none := Option.not_isSome_iff_eq_none.1 fun hc => h c hc ((hfirst c).2 (Or.inl rfl))
    have hc : c ≠ '\\' := fun hc => by simp [hc, escapedChar] at hnone
    exact ⟨hnone, (escapeFree_cons hc).1 fun d hd hi => h d hd ((hfirst d).2 (Or.inr hi))⟩
  · rintro ⟨hnone, h⟩ d hd hi
    have hc : c ≠ '\\' := fun hc => by simp [hc, escapedChar] at hnone
    rcases (hfirst d).1 hi with rfl | hi
    · simp [hnone] at hd
    · exact (escapeFree_cons hc).2 h d hd hi

/-- Undoing the escapes changes nothing exactly if there are none. -/
theorem unescape_eq_self_iff : unescape false s = s ↔ EscapeFree s := by
  induction s using escape_induction with
  | nil => exact iff_of_true rfl escapeFree_nil
  | plain c s hc ih => rw [unescape_cons hc, escapeFree_cons hc, List.cons_inj_right, ih]
  | last => exact iff_of_true rfl fun c _ h => by simpa using h.length_le
  | pair c s ih =>
    rw [unescape_pair, escapeFree_pair, ← ih]
    cases hc : escapedChar c with
    | none => simp
    | some d =>
      -- an escape is one character shorter when it is undone
      refine iff_of_false (fun h => ?_) (by simp)
      have hlen := congrArg List.length h
      have hle := length_unescape_le s
      simp only [Option.elim_some, List.singleton_append, List.length_cons] at hlen
      omega

theorem escapeFree_of_notMem (h : '\\' ∉ s) : EscapeFree s := fun _ _ hi => h (hi.subset List.mem_cons_self)

theorem unescape_append (h : pending b s = false) : unescape b (s ++ t) = unescape b s ++ unescape false t := by
  induction s generalizing b with
  | nil =>
    rw [pending_nil] at h
    simp [h, unescape]
  | cons c s ih =>
    rw [pending_cons] at h
    rw [List.cons_append]
    cases b with
    | false =>
      by_cases hc : c = '\\'
      · have hs : pending true s = false := by rw [← h, hc]; rfl
        rw [unescape, unescape, if_pos hc, if_pos hc, ih hs]
      · rw [next_of_ne hc] at h
        rw [unescape_cons hc, unescape_cons hc, ih h, List.cons_append]
    | true =>
      rw [next_true] at h
      rw [unescape, unescape, ih h]
      cases escapedChar c <;> rfl

/-- Where there are no escapes, every occurrence of a character that could be escaped separates. -/
theorem separators_of_escapeFree (hsep : (escapedChar sep).isSome) (hne : sep ≠ '\\') (h : EscapeFree s) :
    separators sep false s = s.count sep := by
  induction s using escape_induction with
  | nil => rfl
  | plain c s hc ih =>
    rw [separators, next_of_ne hc, ih ((escapeFree_cons hc).1 h), List.count_cons, Nat.add_comm]
    simp
  | last => simp [separators, hne.symm]
  | pair c s ih =>
    obtain ⟨hnone, h⟩ := escapeFree_pair.1 h
    have hc : c ≠ sep := fun hc => by simp [hc ▸ hnone] at hsep
    simp [separators, hne.symm, ih h, hc]

/-! ## Fields -/

/-- A field of a record: its key, the value it stands for, and the value as it is written. -/
structure Field where
  key : List Char
  own : List Char
  written : List Char

/-- The text of a field. -/
def Field.text (f : Field) : List Char := f.key ++ '=' :: f.written

/-- A key is one word without escapes. -/
def IsKey (k : List Char) : Prop := '\\' ∉ k ∧ '=' ∉ k ∧ ' ' ∉ k

instance (k : List Char) : Decidable (IsKey k) := inferInstanceAs (Decidable (_ ∧ _))

/-- The key of the next field stands behind the last space. -/
def keyPart (p : List Char) : List Char := p.rtakeWhile (· ≠ ' ')

def valuePart (p : List Char) : List Char := (p.rdropWhile (· ≠ ' ')).dropLast

/-- The pairs of a key and the pieces behind it. -/
def pairsOf (key : List Char) : List (List Char) → List (List Char × List Char)
  | [] => []
  | [p] => [(key, p)]
  | p :: q :: rest => (key, valuePart p) :: pairsOf (keyPart p) (q :: rest)

/-- The pairs of keys and values, the values as they are written. -/
def readPairs (s : List Char) : List (List Char × List Char) :=
  match pieces '=' false s with
  | [] => []
  | p :: rest => pairsOf (keyPart p) rest

def readFields (s : List Char) : List (List Char × List Char) := (readPairs s).map (Prod.map id (unescape false))

/-- The fields behind the first, each behind a space. -/
def more (fs : List Field) : List Char := fs.flatMap fun f => ' ' :: f.text

theorem intercalate_eq_more (f : Field) (fs : List Field) :
    [' '].intercalate ((f :: fs).map Field.text) = f.text ++ more fs := by
  induction fs generalizing f with
  | nil => simp [more]
  | cons g fs ih =>
    rw [List.map_cons, List.map_cons, List.intercalate_cons_cons, ← List.map_cons, ih]
    simp [more]

theorem pending_of_notMem (h : '\\' ∉ s) : pending false s = false := by
  induction s with
  | nil => rfl
  | cons c s ih =>
    rw [List.mem_cons, not_or] at h
    rw [pending_cons, next_of_ne (Ne.symm h.1), ih h.2]

theorem separators_of_notMem (h : sep ∉ s) : separators sep b s = 0 := by
  induction s generalizing b with
  | nil => rfl
  | cons c s ih =>
    rw [List.mem_cons, not_or] at h
    simp [separators, ih h.2, Ne.symm h.1]

/-- A value, a space and the key behind it. -/
theorem separators_key {k w : List Char} (hk : IsKey k) :
    separators '=' b (w ++ ' ' :: k) = separators '=' b w ∧ pending b (w ++ ' ' :: k) = false := by
  rw [separators_append, pending_append, separators, pending_cons, next_of_ne (by decide), pending_of_notMem hk.1,
    separators_of_notMem hk.2.1]
  simp

theorem separators_more {fs : List Field} (hkeys : ∀ f ∈ fs, IsKey f.key) :
    separators '=' b (s ++ more fs) =
      separators '=' b s + (fs.map fun f => separators '=' false f.written + 1).sum := by
  induction fs generalizing b s with
  | nil => simp [more]
  | cons f fs ih =>
    obtain ⟨hsep, hend⟩ := separators_key (b := b) (w := s) (hkeys f List.mem_cons_self)
    have htext : s ++ more (f :: fs) = (s ++ ' ' :: f.key) ++ '=' :: (f.written ++ more fs) := by
      simp [more, Field.text]
    rw [htext, separators_append, hsep, hend, separators, ih fun g hg => hkeys g (List.mem_cons_of_mem _ hg),
      next_of_ne (by decide)]
    simp
    omega

theorem keyPart_eq {k w : List Char} (hk : ' ' ∉ k) : keyPart (w ++ ' ' :: k) = k ∧ valuePart (w ++ ' ' :: k) = w := by
  induction k using List.reverseRecOn with
  | nil => simp [keyPart, valuePart]
  | append_singleton k c ih =>
    rw [List.mem_append, not_or, List.mem_singleton] at hk
    obtain ⟨hkey, hvalue⟩ := ih hk.1
    have htext : w ++ ' ' :: (k ++ [c]) = (w ++ ' ' :: k) ++ [c] := by simp
    have hc : decide (c ≠ ' ') = true := decide_eq_true (Ne.symm hk.2)
    rw [htext, keyPart, valuePart, List.rtakeWhile_concat_pos (fun c => decide (c ≠ ' ')) _ _ hc,
      List.rdropWhile_concat_pos (fun c => decide (c ≠ ' ')) _ _ hc]
    exact ⟨congrArg (· ++ [c]) hkey, hvalue⟩

theorem keyPart_self {k : List Char} (hk : ' ' ∉ k) : keyPart k = k :=
  List.rtakeWhile_eq_self_iff.2 fun _ hc => decide_eq_true fun h => hk (h ▸ hc)

theorem pairsOf_more (key : List Char) {w : List Char} {fs : List Field} (hkeys : ∀ f ∈ fs, IsKey f.key)
    (hw : separators '=' b w = 0) (h : ∀ f ∈ fs, separators '=' false f.written = 0) :
    pairsOf key (pieces '=' b (w ++ more fs)) = (key, w) :: fs.map fun f => (f.key, f.written) := by
  induction fs generalizing b key w with
  | nil => simp [more, pieces_of_separators_eq_zero hw, pairsOf]
  | cons f fs ih =>
    have hkey := hkeys f List.mem_cons_self
    obtain ⟨hsep, hend⟩ := separators_key (b := b) (w := w) hkey
    obtain ⟨hk, hv⟩ := keyPart_eq (w := w) hkey.2.2
    have htext : w ++ more (f :: fs) = (w ++ ' ' :: f.key) ++ '=' :: (f.written ++ more fs) := by
      simp [more, Field.text]
    obtain ⟨p, rest, hpieces⟩ := List.exists_cons_of_ne_nil (pieces_ne_nil (f.written ++ more fs))
    have hrest := ih f.key (fun g hg => hkeys g (List.mem_cons_of_mem _ hg)) (h f List.mem_cons_self)
      fun g hg => h g (List.mem_cons_of_mem _ hg)
    rw [htext, pieces_append (hsep.trans hw), hend, pieces, if_pos ⟨rfl, rfl⟩, next_of_ne (by decide), hpieces,
      List.modifyHead_cons, List.append_nil, pairsOf, hk, hv, ← hpieces, hrest]
    rfl

theorem length_pairsOf (key : List Char) (ps : List (List Char)) : (pairsOf key ps).length = ps.length := by
  induction ps generalizing key with
  | nil => rfl
  | cons p ps ih =>
    cases ps with
    | nil => rfl
    | cons q ps => rw [pairsOf, List.length_cons, ih, List.length_cons, List.length_cons, List.length_cons]

theorem length_readPairs (s : List Char) : (readPairs s).length = separators '=' false s := by
  have hlen := length_pieces '=' false s
  unfold readPairs
  cases hp : pieces '=' false s with
  | nil => simp [hp] at hlen
  | cons p rest =>
    rw [hp, List.length_cons] at hlen
    rw [length_pairsOf]
    omega

/-- Fields whose values have no separator are read back as they are written. -/
theorem readPairs_text {fs : List Field} (hkeys : ∀ f ∈ fs, IsKey f.key)
    (h : ∀ f ∈ fs, separators '=' false f.written = 0) :
    readPairs ([' '].intercalate (fs.map Field.text)) = fs.map fun f => (f.key, f.written) := by
  cases fs with
  | nil => rfl
  | cons f fs =>
    have hkey := hkeys f List.mem_cons_self
    have hrest := pairsOf_more f.key (fun g hg => hkeys g (List.mem_cons_of_mem _ hg))
      (h f List.mem_cons_self) fun g hg => h g (List.mem_cons_of_mem _ hg)
    rw [intercalate_eq_more, Field.text, List.append_assoc, List.cons_append, readPairs,
      pieces_append (separators_of_notMem hkey.2.1), pending_of_notMem hkey.1, pieces, if_pos ⟨rfl, rfl⟩,
      next_of_ne (by decide), List.modifyHead_cons, List.append_nil]
    simp only
    rw [keyPart_self hkey.2.2, hrest]
    rfl

/-- As many pairs are read as there are separators. -/
theorem length_readPairs_text {fs : List Field} (hkeys : ∀ f ∈ fs, IsKey f.key) :
    (readPairs ([' '].intercalate (fs.map Field.text))).length =
      (fs.map fun f => separators '=' false f.written + 1).sum := by
  cases fs with
  | nil => rfl
  | cons f fs =>
    have hkey := hkeys f List.mem_cons_self
    rw [length_readPairs, intercalate_eq_more, Field.text, List.append_assoc, List.cons_append, separators_append,
      separators_of_notMem hkey.2.1, pending_of_notMem hkey.1, separators, next_of_ne (by decide),
      separators_more fun g hg => hkeys g (List.mem_cons_of_mem _ hg)]
    simp
    omega

/-- The fields are read back exactly if no value has a separator and each stands for the field's own value. -/
theorem readFields_eq_iff {fs : List Field} (hkeys : ∀ f ∈ fs, IsKey f.key) :
    readFields ([' '].intercalate (fs.map Field.text)) = fs.map (fun f => (f.key, f.own)) ↔
      ∀ f ∈ fs, separators '=' false f.written = 0 ∧ unescape false f.written = f.own := by
  constructor
  · intro h
    have hsum := length_readPairs_text hkeys
    have hlen := congrArg List.length h
    rw [readFields, List.length_map, List.length_map, hsum] at hlen
    have hzero : ∀ f ∈ fs, separators '=' false f.written = 0 := by
      rw [List.sum_map_add, List.map_const', List.sum_replicate_nat, Nat.mul_one, Nat.add_eq_right] at hlen
      exact fun f hf => List.sum_eq_zero_iff_forall_eq_nat.1 hlen _ (List.mem_map_of_mem hf)
    rw [readFields, readPairs_text hkeys hzero, List.map_map, List.map_inj_left] at h
    exact fun f hf => ⟨hzero f hf, congrArg Prod.snd (h f hf)⟩
  · intro h
    rw [readFields, readPairs_text hkeys fun f hf => (h f hf).1, List.map_map, List.map_inj_left]
    exact fun f hf => congrArg (Prod.mk f.key) (h f hf).2

end Escape
