import Mathlib
import ThorFirewall.Detection.SigmaConditions
import ThorFirewall.Detection.TieredSigma
import ThorFirewall.Lib.Lowercase

/-!
# Conditions that the parser survives (`detection/sigma_compiler.rs`)

The parser cuts a condition at its separators. It finds them in a lower-cased copy and takes their positions, which
count characters, for byte positions in the condition; a cut inside of a character panics.

- `splitLoop_eq`: the splitter cuts the text at the positions of the separators;
- `faultOf_parseFrom`: how the parser fails is how the first bad text fails among those that it comes to;
- `parseCondition_returns_iff`: the conditions for which the parser returns;
- `parseCondition_measured`, `parseCondition_ascii`: it returns where the characters in front of the separators have as
  many bytes as they have characters in lower case, as those of ASCII.
-/

namespace ThorFirewall.Sigma

open Utf8

/-! ## Where a text is cut -/

/-- The positions, in characters, of the separators outside of parentheses; `skip` characters belong to one. -/
def separators (sep : List Char) : List Char → ℕ → ℕ → ℤ → List ℕ
  | [], _, _, _ => []
  | _ :: chars, skip + 1, i, depth => separators sep chars skip (i + 1) depth
  | c :: chars, 0, i, depth =>
    if c = '(' then separators sep chars 0 (i + 1) (depth + 1)
    else if c = ')' then separators sep chars 0 (i + 1) (depth - 1)
    else if depth = 0 ∧ sep.isPrefixOf (c :: chars) then i :: separators sep chars (sep.length - 1) (i + 1) depth
    else separators sep chars 0 (i + 1) depth

/-- The parts between byte positions, each behind a separator of this length. -/
def cutAt (s : List Char) (width : ℕ) : ℕ → List ℕ → Except Fault (List (List Char))
  | last, [] => do
    let part ← slice s last (Text.byteLength s)
    return [Text.trim part]
  | last, p :: ps => do
    let part ← slice s last p
    let parts ← cutAt s width (p + width) ps
    return Text.trim part :: parts

theorem splitLoop_eq (s sep chars : List Char) (skip i last : ℕ) (depth : ℤ) :
    splitLoop s sep chars skip i last depth = cutAt s sep.length last (separators sep chars skip i depth) := by
  induction chars generalizing skip i last depth with
  | nil => rfl
  | cons c chars ih =>
    cases skip with
    | succ skip => exact ih skip (i + 1) last depth
    | zero =>
      rw [splitLoop, separators]
      split_ifs with hopen hclose hsep
      · exact ih 0 (i + 1) last (depth + 1)
      · exact ih 0 (i + 1) last (depth - 1)
      · rw [cutAt]
        simp only [ih]
      · exact ih 0 (i + 1) last depth

variable {lib : Libraries} {s sep chars : List Char} {width last : ℕ} {ps : List ℕ} {parts : List (List Char)}

theorem le_of_mem_separators {skip i p : ℕ} {depth : ℤ} (h : p ∈ separators sep chars skip i depth) : i + skip ≤ p := by
  induction chars generalizing skip i depth with
  | nil => cases h
  | cons c chars ih =>
    cases skip with
    | succ skip =>
      have := ih h
      omega
    | zero =>
      rw [separators] at h
      split_ifs at h with hopen hclose hsep
      · have := ih h
        omega
      · have := ih h
        omega
      · rcases List.mem_cons.1 h with rfl | h
        · exact Nat.le_refl _
        · have := ih h
          omega
      · have := ih h
        omega

/-- The separators do not overlap. -/
theorem pairwise_separators (sep chars : List Char) (skip i : ℕ) (depth : ℤ) :
    (separators sep chars skip i depth).Pairwise fun p q => p + sep.length ≤ q := by
  induction chars generalizing skip i depth with
  | nil => exact List.Pairwise.nil
  | cons c chars ih =>
    cases skip with
    | succ skip => exact ih skip (i + 1) depth
    | zero =>
      rw [separators]
      split_ifs with hopen hclose hsep
      · exact ih 0 (i + 1) (depth + 1)
      · exact ih 0 (i + 1) (depth - 1)
      · refine List.pairwise_cons.2 ⟨fun q hq => ?_, ih _ _ depth⟩
        have := le_of_mem_separators hq
        omega
      · exact ih 0 (i + 1) depth

/-- No position is inside of a character, neither in front of the separator nor behind it. -/
def OnBoundaries (s : List Char) (width : ℕ) (ps : List ℕ) : Prop := ∀ p ∈ ps, Boundary s p ∧ Boundary s (p + width)

instance (s : List Char) (width : ℕ) (ps : List ℕ) : Decidable (OnBoundaries s width ps) :=
  inferInstanceAs (Decidable (∀ p ∈ ps, _))

theorem onBoundaries_nil (s : List Char) (width : ℕ) : OnBoundaries s width [] := List.forall_mem_nil _

theorem exists_slice_ok_iff {i j : ℕ} : (∃ t, slice s i j = .ok t) ↔ Boundary s i ∧ Boundary s j ∧ i ≤ j := by
  rw [← exists_slice_iff]
  unfold slice
  cases Text.slice s i j <;> simp

theorem cutAt_cons_ok {p : ℕ} :
    cutAt s width last (p :: ps) = .ok parts ↔
      ∃ part rest, slice s last p = .ok part ∧ cutAt s width (p + width) ps = .ok rest ∧
        parts = Text.trim part :: rest := by
  rw [cutAt]
  cases slice s last p with
  | error f => simp [bind, Except.bind]
  | ok part => cases cutAt s width (p + width) ps <;> simp [bind, Except.bind, pure, Except.pure, eq_comm]

theorem cutAt_nil_ok :
    cutAt s width last [] = .ok parts ↔
      ∃ part, slice s last (Text.byteLength s) = .ok part ∧ parts = [Text.trim part] := by
  rw [cutAt]
  cases slice s last (Text.byteLength s) <;> simp [bind, Except.bind, pure, Except.pure, eq_comm]

/-- **A text is cut at boundaries of characters.** -/
theorem exists_cutAt_iff (hlast : ∀ p ∈ ps, last ≤ p) (hps : ps.Pairwise fun p q => p + width ≤ q) :
    (∃ parts, cutAt s width last ps = .ok parts) ↔ Boundary s last ∧ OnBoundaries s width ps := by
  induction ps generalizing last with
  | nil =>
    simp only [cutAt_nil_ok]
    constructor
    · rintro ⟨parts, part, hpart, -⟩
      exact ⟨(exists_slice_ok_iff.1 ⟨part, hpart⟩).1, onBoundaries_nil s width⟩
    · rintro ⟨hboundary, -⟩
      obtain ⟨part, hpart⟩ := exists_slice_ok_iff.2 ⟨hboundary, boundary_byteLength s, hboundary.le⟩
      exact ⟨_, part, hpart, rfl⟩
  | cons p ps ih =>
    obtain ⟨hp, hrest⟩ := List.pairwise_cons.1 hps
    obtain ⟨hle, -⟩ := List.forall_mem_cons.1 hlast
    have ih := ih hp hrest
    simp only [cutAt_cons_ok]
    constructor
    · rintro ⟨parts, part, rest, hpart, hcut, -⟩
      obtain ⟨hbegin, hend, -⟩ := exists_slice_ok_iff.1 ⟨part, hpart⟩
      obtain ⟨hbehind, hall⟩ := ih.1 ⟨rest, hcut⟩
      exact ⟨hbegin, List.forall_mem_cons.2 ⟨⟨hend, hbehind⟩, hall⟩⟩
    · rintro ⟨hbegin, hall⟩
      obtain ⟨⟨hend, hbehind⟩, hall⟩ := List.forall_mem_cons.1 hall
      obtain ⟨part, hpart⟩ := exists_slice_ok_iff.2 ⟨hbegin, hend, hle⟩
      obtain ⟨rest, hcut⟩ := ih.2 ⟨hbehind, hall⟩
      exact ⟨_, part, rest, hpart, hcut, rfl⟩

theorem length_cutAt (h : cutAt s width last ps = .ok parts) : parts.length = ps.length + 1 := by
  induction ps generalizing last parts with
  | nil =>
    obtain ⟨part, -, rfl⟩ := cutAt_nil_ok.1 h
    rfl
  | cons p ps ih =>
    obtain ⟨part, rest, -, hcut, rfl⟩ := cutAt_cons_ok.1 h
    rw [List.length_cons, ih hcut, List.length_cons]

theorem byteLength_trim_le (s : List Char) : Text.byteLength (Text.trim s) ≤ Text.byteLength s :=
  byteLength_le_of_infix (TextSearch.trim_infix s)

theorem slice_eq_ok {i j : ℕ} {t : List Char} (h : slice s i j = .ok t) :
    t <:+: s ∧ i + Text.byteLength t = j := by
  have hslice : Text.slice s i j = some t := by
    unfold slice at h
    split at h
    · cases h
      assumption
    · cases h
  obtain ⟨a, b, rfl, -, hlen⟩ := slice_eq_some_iff.1 hslice
  exact ⟨⟨a, b, List.append_assoc a t b⟩, hlen⟩

theorem infix_part (h : cutAt s width last ps = .ok parts) : ∀ part ∈ parts, part <:+: s := by
  induction ps generalizing last parts with
  | nil =>
    obtain ⟨part, hpart, rfl⟩ := cutAt_nil_ok.1 h
    exact List.forall_mem_singleton.2 ((TextSearch.trim_infix part).trans (slice_eq_ok hpart).1)
  | cons p ps ih =>
    obtain ⟨part, rest, hpart, hcut, rfl⟩ := cutAt_cons_ok.1 h
    exact List.forall_mem_cons.2 ⟨(TextSearch.trim_infix part).trans (slice_eq_ok hpart).1, ih hcut⟩

/-- The parts are shorter than the text by a separator, if there is one. -/
theorem byteLength_part (hlast : ∀ p ∈ ps, last ≤ p) (hps : ps.Pairwise fun p q => p + width ≤ q)
    (h : cutAt s width last ps = .ok parts) :
    ∀ part ∈ parts, Text.byteLength part + last + (if ps = [] then 0 else width) ≤ Text.byteLength s := by
  induction ps generalizing last parts with
  | nil =>
    obtain ⟨part, hpart, rfl⟩ := cutAt_nil_ok.1 h
    have hlen := (slice_eq_ok hpart).2
    have hle := byteLength_trim_le part
    refine List.forall_mem_singleton.2 ?_
    rw [if_pos rfl]
    omega
  | cons p ps ih =>
    obtain ⟨hp, hrest⟩ := List.pairwise_cons.1 hps
    obtain ⟨hle, -⟩ := List.forall_mem_cons.1 hlast
    obtain ⟨part, rest, hpart, hcut, rfl⟩ := cutAt_cons_ok.1 h
    have hlen := (slice_eq_ok hpart).2
    have htrim := byteLength_trim_le part
    have hend : p + width ≤ Text.byteLength s := ((exists_cutAt_iff hp hrest).1 ⟨rest, hcut⟩).1.le
    rw [if_neg (List.cons_ne_nil p ps)]
    refine List.forall_mem_cons.2 ⟨by omega, fun q hq => ?_⟩
    have := ih hp hrest hcut q hq
    omega

/-! ## The texts that the parser comes to -/

def quantifiers : List String := ["1of(", "1 of (", "all of (", "allof("]

def negations : List String := ["not ", "NOT "]

def begins (bs : List String) (s : List Char) : Bool := bs.any fun b => b.toList.isPrefixOf s

/-- Where a separator stands in the text, counted in characters of its lower-cased copy. -/
def cutPositions (lib : Libraries) (s : List Char) (sep : String) : List ℕ :=
  separators (lib.toLowercase sep).toList (lib.toLowercase (String.ofList s)).toList 0 0 0

/-- The parts of a text at its separators, or what its parentheses hold. -/
def splitTexts (lib : Libraries) (s : List Char) : List (List Char) :=
  match splitTopLevel lib s " or " with
  | .error _ => []
  | .ok (some parts) => parts
  | .ok none =>
    match splitTopLevel lib s " and " with
    | .error _ => []
    | .ok (some parts) => parts
    | .ok none => if s.head? = some '(' ∧ s.getLast? = some ')' then [(s.drop 1).dropLast] else []

/-- The texts that the parser calls itself on. -/
def innerTexts (lib : Libraries) (s : List Char) : List (List Char) :=
  if begins quantifiers s then []
  else if begins negations s then [s.drop 4]
  else splitTexts lib s

def callsFrom (lib : Libraries) : ℕ → List Char → List (List Char)
  | 0, _ => []
  | fuel + 1, s => Text.trim s :: (innerTexts lib (Text.trim s)).flatMap (callsFrom lib fuel)

/-- All texts that the parser comes to, in this order, if it does not stop before. -/
def calls (lib : Libraries) (s : String) : List (List Char) :=
  callsFrom lib (Text.byteLength s.toList + 1) s.toList

/-- A quantifier without a closing parenthesis, at which the parser stops with an error. -/
def unclosed (s : List Char) : Bool := begins quantifiers s && !s.contains ')'

/-- The separators at which the text is cut stand at boundaries of characters: those of ` or `, or without these those
of ` and `. A text that begins with a quantifier or a negation is not cut. -/
def WellCut (lib : Libraries) (s : List Char) : Prop :=
  begins beginnings s = false →
    OnBoundaries s 4 (cutPositions lib s " or ") ∧
      (cutPositions lib s " or " = [] → OnBoundaries s 5 (cutPositions lib s " and "))

instance (lib : Libraries) (s : List Char) : Decidable (WellCut lib s) := inferInstanceAs (Decidable (_ → _ ∧ (_ → _)))

/-- The call comes back, with a value or with an error. -/
def Returns {α : Type} (x : Except Fault α) : Prop := x ≠ .error .panic ∧ x ≠ .error .overflow

/-! ## Splitting -/

theorem splitTopLevel_eq (sep : String) :
    splitTopLevel lib s sep = (cutAt s (lib.toLowercase sep).toList.length 0 (cutPositions lib s sep)).map fun parts =>
      if 1 < parts.length then some parts else none := by
  rw [splitTopLevel, splitLoop_eq, cutPositions]
  cases cutAt s _ 0 _ <;> rfl

theorem slice_error {i j : ℕ} {f : Fault} (h : slice s i j = .error f) : f = .panic := by
  unfold slice at h
  split at h
  · cases h
  · exact (Except.error.inj h).symm

theorem cutAt_error {f : Fault} (h : cutAt s width last ps = .error f) : f = .panic := by
  induction ps generalizing last with
  | nil =>
    rw [cutAt] at h
    cases hpart : slice s last (Text.byteLength s) with
    | ok part => rw [hpart] at h; cases h
    | error g =>
      rw [hpart] at h
      cases h
      exact slice_error hpart
  | cons p ps ih =>
    rw [cutAt] at h
    cases hpart : slice s last p with
    | error g =>
      rw [hpart] at h
      cases h
      exact slice_error hpart
    | ok part =>
      cases hcut : cutAt s width (p + width) ps with
      | error g =>
        rw [hpart, hcut] at h
        cases h
        exact ih hcut
      | ok rest => rw [hpart, hcut] at h; cases h

/-- What a split can be: cut at boundaries into shorter parts, not cut, or a panic. -/
theorem splitTopLevel_cases (lib : Libraries) (s : List Char) {sep : String}
    (hwidth : (lib.toLowercase sep).toList.length = width) (hpos : 0 < width) :
    (cutPositions lib s sep = [] ∧ splitTopLevel lib s sep = .ok none) ∨
    (cutPositions lib s sep ≠ [] ∧ OnBoundaries s width (cutPositions lib s sep) ∧ ∃ parts,
      splitTopLevel lib s sep = .ok (some parts) ∧
        ∀ part ∈ parts, part <:+: s ∧ Text.byteLength part < Text.byteLength s) ∨
    (¬ OnBoundaries s width (cutPositions lib s sep) ∧ splitTopLevel lib s sep = .error .panic) := by
  have hpairwise := pairwise_separators (lib.toLowercase sep).toList (lib.toLowercase (String.ofList s)).toList 0 0 0
  have hzero : ∀ p ∈ cutPositions lib s sep, 0 ≤ p := fun p _ => Nat.zero_le p
  rw [hwidth] at hpairwise
  have hiff := exists_cutAt_iff (s := s) hzero hpairwise
  rw [splitTopLevel_eq, hwidth]
  change (∃ parts, cutAt s width 0 (cutPositions lib s sep) = .ok parts) ↔ _ at hiff
  cases hcut : cutAt s width 0 (cutPositions lib s sep) with
  | error f =>
    refine .inr (.inr ⟨fun h => ?_, by rw [cutAt_error hcut]; rfl⟩)
    obtain ⟨parts, hok⟩ := hiff.2 ⟨boundary_zero s, h⟩
    rw [hok] at hcut
    cases hcut
  | ok parts =>
    have hlength := length_cutAt hcut
    by_cases hnil : cutPositions lib s sep = []
    · rw [hnil, List.length_nil] at hlength
      have hmap : (Except.ok parts : Except Fault (List (List Char))).map (fun parts =>
          if 1 < parts.length then some parts else none) = .ok none := congrArg Except.ok (if_neg (by omega))
      exact .inl ⟨hnil, hmap⟩
    · have hlong := List.length_pos_iff.2 hnil
      have hmap : (Except.ok parts : Except Fault (List (List Char))).map (fun parts =>
          if 1 < parts.length then some parts else none) = .ok (some parts) := congrArg Except.ok (if_pos (by omega))
      refine .inr (.inl ⟨hnil, (hiff.1 ⟨parts, hcut⟩).2, parts, hmap, fun part hpart => ?_⟩)
      have hshort := byteLength_part hzero hpairwise hcut part hpart
      rw [if_neg hnil] at hshort
      exact ⟨infix_part hcut part hpart, by omega⟩

/-! ## How the parser fails -/

def faultOf {α : Type} : Except Fault α → Option Fault
  | .ok _ => none
  | .error f => some f

theorem faultOf_map {α β : Type} (f : α → β) (x : Except Fault α) : faultOf (f <$> x) = faultOf x := by
  cases x <;> rfl

/-- The first of the calls that fails. -/
theorem faultOf_mapM {α β : Type} (f : α → Except Fault β) (l : List α) :
    faultOf (l.mapM f) = l.findSome? fun a => faultOf (f a) := by
  induction l with
  | nil => rfl
  | cons a l ih =>
    rw [List.mapM_cons, List.findSome?_cons, ← ih]
    cases f a with
    | error e => rfl
    | ok b => cases l.mapM f <;> rfl

theorem findSome_congr {α β : Type} {f g : α → Option β} {l : List α} (h : ∀ a ∈ l, f a = g a) :
    l.findSome? f = l.findSome? g := by
  induction l with
  | nil => rfl
  | cons a l ih =>
    obtain ⟨ha, hl⟩ := List.forall_mem_cons.1 h
    rw [List.findSome?_cons, List.findSome?_cons, ha, ih hl]

theorem findSome_flatMap {α β γ : Type} (f : β → Option γ) (g : α → List β) (l : List α) :
    (l.flatMap g).findSome? f = l.findSome? fun a => (g a).findSome? f := by
  induction l with
  | nil => rfl
  | cons a l ih =>
    rw [List.flatMap_cons, List.findSome?_append, ih, List.findSome?_cons]
    cases (g a).findSome? f <;> rfl

/-- How the parser fails at a text. -/
def faultAt (lib : Libraries) (s : List Char) : Option Fault :=
  if unclosed s then some (.error "No )") else if WellCut lib s then none else some .panic

/-! ### Marked texts -/

variable {fuel : ℕ}

theorem begins_iff {bs : List String} : begins bs s = true ↔ ∃ b ∈ bs, b.toList <+: s := by
  simp [begins]

/-- A quantifier has an opening parenthesis with no other one in front of it. -/
theorem exists_of_quantifier (h : begins quantifiers s = true) :
    ∃ pre rest, s = pre ++ '(' :: rest ∧ '(' ∉ pre ∧ ')' ∉ pre := by
  obtain ⟨b, hb, rest, rfl⟩ := begins_iff.1 h
  have hform : ∃ pre, b.toList = pre ++ ['('] ∧ '(' ∉ pre ∧ ')' ∉ pre := by
    simp only [quantifiers, List.mem_cons, List.not_mem_nil, or_false] at hb
    rcases hb with rfl | rfl | rfl | rfl
    · exact ⟨"1of".toList, rfl, by decide, by decide⟩
    · exact ⟨"1 of ".toList, rfl, by decide, by decide⟩
    · exact ⟨"all of ".toList, rfl, by decide, by decide⟩
    · exact ⟨"allof".toList, rfl, by decide, by decide⟩
  obtain ⟨pre, hpre, hopen, hclose⟩ := hform
  exact ⟨pre, rest, by rw [hpre]; simp, hopen, hclose⟩

/-- Behind a quantifier, the text between the parentheses is there as soon as one closes. -/
theorem faultOf_extractParenContent (h : begins quantifiers s = true) :
    faultOf (extractParenContent s) = if ')' ∈ s then none else some (.error "No )") := by
  obtain ⟨pre, rest, rfl, hopen, hclose⟩ := exists_of_quantifier h
  have hfirst : (pre ++ '(' :: rest).findIdx? (· == '(') = some pre.length :=
    (Text.find_first (by simp)).2 ⟨pre, rest, rfl, hopen, rfl⟩
  rw [extractParenContent, hfirst]
  cases hlast : (pre ++ '(' :: rest).reverse.findIdx? (· == ')') with
  | none =>
    have hnot : ')' ∉ pre ++ '(' :: rest := fun hmem =>
      absurd (List.findIdx?_eq_none_iff.1 hlast ')' (List.mem_reverse.2 hmem)) (by decide)
    rw [if_neg hnot]
    rfl
  | some back =>
    obtain ⟨a, b, hsplit, -, rfl⟩ := (Text.find_last (c := ')') (by simp)).1 hlast
    have hmem : ')' ∈ pre ++ '(' :: rest := by rw [hsplit]; simp
    have hlength : (pre ++ '(' :: rest).length - 1 - b.length = a.length := by
      rw [hsplit, List.length_append, List.length_cons]
      omega
    have hle : pre.length + 1 ≤ a.length := by
      have happ : (pre ++ ['(']) ++ rest = a ++ ')' :: b := by rw [← hsplit]; simp
      rcases List.append_eq_append_iff.1 happ with ⟨x, rfl, -⟩ | ⟨x, hx, hb⟩
      · simp
      · cases x with
        | nil =>
          have hlen := congrArg List.length hx
          simp only [List.length_append, List.length_singleton, List.append_nil] at hlen
          omega
        | cons c x =>
          -- the closing parenthesis would be in the quantifier
          obtain ⟨rfl, -⟩ := List.cons.inj hb
          have hin : ')' ∈ pre ++ ['('] := by rw [hx]; simp
          rcases List.mem_append.1 hin with hin | hin
          · exact absurd hin hclose
          · exact absurd hin (by decide)
    simp only [hlength]
    rw [if_neg (by omega), if_pos hmem]
    rfl

theorem parseFrom_trim (s : List Char) : parseFrom lib fuel (Text.trim s) = parseFrom lib fuel s := by
  cases fuel with
  | zero => rfl
  | succ fuel => rw [parseFrom, parseFrom, TextSearch.trim_trim]

theorem parseFrom_quantified (h : begins quantifiers (Text.trim s) = true) :
    ∃ node : String → ConditionNode, parseFrom lib (fuel + 1) s = node <$> extractParenContent (Text.trim s) := by
  rw [parseFrom]
  by_cases hone : ("1of(".toList.isPrefixOf (Text.trim s) || "1 of (".toList.isPrefixOf (Text.trim s)) = true
  · refine ⟨.oneOf, ?_⟩
    simp only [hone, if_true]
    rfl
  · have hall : ("all of (".toList.isPrefixOf (Text.trim s) || "allof(".toList.isPrefixOf (Text.trim s)) = true := by
      rw [begins, quantifiers, List.any_cons, List.any_cons, ← Bool.or_assoc, Bool.eq_false_iff.2 hone,
        Bool.false_or, List.any_cons, List.any_cons, List.any_nil, Bool.or_false] at h
      exact h
    refine ⟨.allOf, ?_⟩
    simp only [hone, hall, if_true]
    rfl

theorem parseFrom_negated (hq : begins quantifiers (Text.trim s) = false) (h : begins negations (Text.trim s) = true) :
    parseFrom lib (fuel + 1) s = .not <$> parseFrom lib fuel ((Text.trim s).drop 4) := by
  simp only [begins, quantifiers, negations, List.any_cons, List.any_nil, Bool.or_false, Bool.or_eq_false_iff] at hq h
  obtain ⟨hone, hone', hall, hall'⟩ := hq
  rw [parseFrom]
  simp only [hone, hone', hall, hall', h, Bool.or_false, Bool.false_eq_true, if_false, if_true]
  rfl

/-! ### The recursion -/

theorem begins_beginnings (s : List Char) : begins beginnings s = (begins quantifiers s || begins negations s) := by
  simp [begins, beginnings, quantifiers, negations, Bool.or_assoc]

theorem unmarked_trim (h : begins beginnings (Text.trim s) = false) : Unmarked (Text.trim s) :=
  ⟨TextSearch.trim_trim s, fun b hb hp => by rw [begins_iff.2 ⟨b, hb, hp⟩] at h; cases h⟩

theorem length_or (lib : Libraries) : (lib.toLowercase " or ").toList.length = 4 := by
  rw [toLowercase_or]
  rfl

theorem length_and (lib : Libraries) : (lib.toLowercase " and ").toList.length = 5 := by
  rw [toLowercase_and]
  rfl

/-- The parser on a text that it may split: the split that fails, or what the inner texts fail with. -/
theorem faultOf_parseFrom_unmarked (h : begins beginnings (Text.trim s) = false) :
    faultOf (parseFrom lib (fuel + 1) s) = (if WellCut lib (Text.trim s) then none else some Fault.panic).or
      ((innerTexts lib (Text.trim s)).findSome? fun u => faultOf (parseFrom lib fuel u)) := by
  have hunmarked := unmarked_trim h
  have hmarks := h
  rw [begins_beginnings, Bool.or_eq_false_iff] at hmarks
  rw [← parseFrom_trim]
  generalize Text.trim s = t at h hmarks hunmarked ⊢
  have hinner : innerTexts lib t = splitTexts lib t := by
    rw [innerTexts, hmarks.1, hmarks.2, if_neg Bool.false_ne_true, if_neg Bool.false_ne_true]
  rw [hinner, splitTexts]
  rcases splitTopLevel_cases lib t (length_or lib) (by omega) with
    ⟨hnil, hor⟩ | ⟨hne, hbound, parts, hor, -⟩ | ⟨hbound, hor⟩
  · rcases splitTopLevel_cases lib t (length_and lib) (by omega) with
      ⟨hnil', hand⟩ | ⟨hne', hbound', parts, hand, -⟩ | ⟨hbound', hand⟩
    · -- a single text
      have hwell : WellCut lib t := fun _ => ⟨hnil ▸ onBoundaries_nil t 4, fun _ => hnil' ▸ onBoundaries_nil t 5⟩
      rw [parseFrom_whole hunmarked hor hand, if_pos hwell, hor, hand]
      simp only [Option.none_or]
      split_ifs
      · rw [List.findSome?_singleton]
      · rfl
      · rfl
    · have hwell : WellCut lib t := fun _ => ⟨hnil ▸ onBoundaries_nil t 4, fun _ => hbound'⟩
      rw [parseFrom_and hunmarked hor hand, faultOf_map, faultOf_mapM, if_pos hwell, hor, hand]
      rfl
    · have hwell : ¬ WellCut lib t := fun hw => hbound' ((hw h).2 hnil)
      rw [parseFrom_unmarked hunmarked, if_neg hwell, hor, hand]
      rfl
  · have hwell : WellCut lib t := fun _ => ⟨hbound, fun hnil => absurd hnil hne⟩
    rw [parseFrom_or hunmarked hor, faultOf_map, faultOf_mapM, if_pos hwell, hor]
    rfl
  · have hwell : ¬ WellCut lib t := fun hw => hbound (hw h).1
    rw [parseFrom_unmarked hunmarked, if_neg hwell, hor]
    rfl

/-- **One call**: it fails at its text, or as the first inner text that fails. -/
theorem faultOf_parseFrom_succ (lib : Libraries) (fuel : ℕ) (s : List Char) :
    faultOf (parseFrom lib (fuel + 1) s) = (faultAt lib (Text.trim s)).or
      ((innerTexts lib (Text.trim s)).findSome? fun u => faultOf (parseFrom lib fuel u)) := by
  cases hq : begins quantifiers (Text.trim s) with
  | true =>
    have hwell : WellCut lib (Text.trim s) := fun h => by rw [begins_beginnings, hq] at h; cases h
    obtain ⟨node, hparse⟩ := @parseFrom_quantified lib s fuel hq
    rw [hparse, faultOf_map, faultOf_extractParenContent hq, faultAt, unclosed, hq, innerTexts, if_pos hq, if_pos hwell]
    by_cases hclose : ')' ∈ Text.trim s <;> simp [hclose]
  | false =>
    have hopen : unclosed (Text.trim s) = false := by rw [unclosed, hq, Bool.false_and]
    rw [faultAt, hopen, if_neg Bool.false_ne_true]
    cases hn : begins negations (Text.trim s) with
    | true =>
      have hwell : WellCut lib (Text.trim s) := fun h => by rw [begins_beginnings, hn, Bool.or_true] at h; cases h
      rw [parseFrom_negated hq hn, faultOf_map, if_pos hwell, innerTexts, hq, if_neg Bool.false_ne_true, if_pos hn,
        List.findSome?_singleton]
      rfl
    | false => exact faultOf_parseFrom_unmarked (by rw [begins_beginnings, hq, hn]; rfl)

/-- What a text is split into stands in it and is shorter. -/
theorem splitText_shorter {u : List Char} (h : u ∈ splitTexts lib s) :
    u <:+: s ∧ Text.byteLength u < Text.byteLength s := by
  unfold splitTexts at h
  rcases splitTopLevel_cases lib s (length_or lib) (by omega) with
    ⟨-, hor⟩ | ⟨-, -, parts, hor, hparts⟩ | ⟨-, hor⟩
  · rcases splitTopLevel_cases lib s (length_and lib) (by omega) with
      ⟨-, hand⟩ | ⟨-, -, parts, hand, hparts⟩ | ⟨-, hand⟩
    · rw [hor, hand] at h
      simp only at h
      split_ifs at h with hwrapped
      · obtain _ | ⟨c, t⟩ := s
        · cases hwrapped.1
        · have hle := byteLength_le_of_infix t.dropLast_prefix.isInfix
          have hpos := c.utf8Size_pos
          rw [List.mem_singleton.1 h, List.drop_one, List.tail_cons, byteLength_cons]
          exact ⟨t.dropLast_prefix.isInfix.trans (List.suffix_cons c t).isInfix, by omega⟩
      · cases h
    · rw [hor, hand] at h
      exact hparts u h
    · rw [hor, hand] at h
      cases h
  · rw [hor] at h
    exact hparts u h
  · rw [hor] at h
    cases h

theorem innerText_shorter {u : List Char} (h : u ∈ innerTexts lib s) :
    u <:+: s ∧ Text.byteLength u < Text.byteLength s := by
  unfold innerTexts at h
  split_ifs at h with hq hn
  · cases h
  · obtain ⟨b, hb, hprefix⟩ := begins_iff.1 hn
    have hlength : b.toList.length = 4 := by
      simp only [negations, List.mem_cons, List.not_mem_nil, or_false] at hb
      rcases hb with rfl | rfl <;> rfl
    obtain ⟨rest, rfl⟩ := hprefix
    rw [List.mem_singleton.1 h, ← hlength, List.drop_left, byteLength_append]
    have := length_le_byteLength b.toList
    exact ⟨(List.suffix_append b.toList rest).isInfix, by omega⟩
  · exact splitText_shorter h

/-- **How the parser fails** is how the first of the texts fails that it comes to. -/
theorem faultOf_parseFrom (lib : Libraries) {fuel : ℕ} {s : List Char} (h : Text.byteLength s < fuel) :
    faultOf (parseFrom lib fuel s) = (callsFrom lib fuel s).findSome? (faultAt lib) := by
  induction fuel generalizing s with
  | zero => omega
  | succ fuel ih =>
    have htrim := byteLength_trim_le s
    have hinner : (innerTexts lib (Text.trim s)).findSome? (fun u => faultOf (parseFrom lib fuel u)) =
        (innerTexts lib (Text.trim s)).findSome? fun u => (callsFrom lib fuel u).findSome? (faultAt lib) := by
      refine findSome_congr fun u hu => ih ?_
      have := (innerText_shorter hu).2
      omega
    rw [faultOf_parseFrom_succ, hinner, callsFrom, List.findSome?_cons, findSome_flatMap]
    cases faultAt lib (Text.trim s) <;> rfl

theorem faultAt_ne_overflow (lib : Libraries) (s : List Char) : faultAt lib s ≠ some .overflow := by
  unfold faultAt
  split_ifs <;> exact nofun

theorem returns_iff {α : Type} {x : Except Fault α} :
    Returns x ↔ faultOf x ≠ some .panic ∧ faultOf x ≠ some .overflow := by
  cases x <;> simp [Returns, faultOf]

/-- The first text that fails is no panic if all texts in front of the first unclosed quantifier are well cut. -/
theorem findSome_faultAt_iff (lib : Libraries) (l : List (List Char)) :
    l.findSome? (faultAt lib) ≠ some .panic ↔ ∀ t ∈ l.takeWhile fun t => !unclosed t, WellCut lib t := by
  induction l with
  | nil => simp
  | cons t l ih =>
    rw [List.findSome?_cons, List.takeWhile_cons, faultAt]
    cases hopen : unclosed t with
    | true => simp
    | false =>
      by_cases hwell : WellCut lib t
      · simpa [hwell] using ih
      · simp [hwell]

/-! ## Conditions that are parsed -/

theorem faultOf_parseCondition (lib : Libraries) (s : String) :
    faultOf (parseCondition lib s) = (calls lib s).findSome? (faultAt lib) :=
  faultOf_parseFrom lib (Nat.lt_succ_self _)

theorem faultOf_ne_overflow (lib : Libraries) (s : String) : faultOf (parseCondition lib s) ≠ some .overflow := by
  rw [faultOf_parseCondition]
  intro h
  obtain ⟨t, -, ht⟩ := List.exists_of_findSome?_eq_some h
  exact faultAt_ne_overflow lib t ht

/-- **The parser ends on every condition, and it returns** exactly if the separators stand at boundaries of characters
in each text that it comes to. -/
theorem parseCondition_returns_iff (lib : Libraries) (s : String) :
    parseCondition lib s ≠ .error .overflow ∧
      (Returns (parseCondition lib s) ↔ ∀ t ∈ (calls lib s).takeWhile fun t => !unclosed t, WellCut lib t) := by
  have hoverflow := faultOf_ne_overflow lib s
  refine ⟨fun h => hoverflow (by rw [h]; rfl), ?_⟩
  rw [returns_iff, and_iff_left hoverflow, faultOf_parseCondition, findSome_faultAt_iff]

/-- The letter takes two bytes, so that the first cut is inside of it. -/
theorem accented_panics : ¬ ∀ (lib : Libraries) (s : String), Returns (parseCondition lib s) := by
  intro h
  have hpanic : parseCondition asciiLibraries "é or b" = .error .panic := rfl
  exact (h asciiLibraries "é or b").1 hpanic

/-! ### Characters in front of the separators -/

variable {L : Lowercase}

/-- Every character in front of a separator has as many bytes as it has characters in lower case. -/
def Measured (L : Lowercase) (s : List Char) : Prop :=
  ∀ sep ∈ [" or ", " and "], ∀ a c b, s = a ++ c :: b → sep.toList <:+: b.map Char.toLower →
    (L.char c).length = c.utf8Size

theorem Measured.part {t : List Char} (h : Measured L s) (ht : t <:+: s) : Measured L t := by
  obtain ⟨x, y, rfl⟩ := ht
  rintro sep hsep a c b rfl hb
  refine h sep hsep (x ++ a) c (b ++ y) (by simp) ?_
  rw [List.map_append]
  exact hb.trans (List.prefix_append _ _).isInfix

theorem measured_ascii (h : IsAscii s) : Measured L s := by
  rintro sep - a c b rfl -
  have hc : c.toNat < 128 := h c (List.mem_append_right _ List.mem_cons_self)
  rw [L.char_ascii c hc, utf8Size_ascii hc, List.length_singleton]

/-- The characters in front of a separator, as a whole. -/
theorem Measured.length_flatMap {sep : String} (hsep : sep ∈ [" or ", " and "]) {a b : List Char}
    (h : Measured L (a ++ b)) (hb : sep.toList <+: b.map Char.toLower) :
    (a.flatMap L.char).length = Text.byteLength a := by
  induction a with
  | nil => rfl
  | cons c a ih =>
    have hstands : sep.toList <:+: (a ++ b).map Char.toLower := by
      rw [List.map_append]
      exact hb.isInfix.trans (List.suffix_append _ _).isInfix
    rw [List.flatMap_cons, List.length_append, byteLength_cons, h sep hsep [] c (a ++ b) rfl hstands,
      ih (h.part (List.suffix_cons c _).isInfix)]

/-- No separator begins within characters that are not ASCII. -/
theorem separators_append {x : Char} {sep r : List Char} (hx : x.toNat < 128) (hr : ∀ c ∈ r, 128 ≤ c.toNat)
    (chars : List Char) (skip i : ℕ) (depth : ℤ) :
    separators (x :: sep) (r ++ chars) skip i depth =
      separators (x :: sep) chars (skip - r.length) (i + r.length) depth := by
  induction r generalizing skip i with
  | nil => rfl
  | cons c r ih =>
    obtain ⟨hc, hr⟩ := List.forall_mem_cons.1 hr
    cases skip with
    | succ skip =>
      rw [List.cons_append, separators, ih hr, List.length_cons, Nat.add_sub_add_right, Nat.add_right_comm]
      rfl
    | zero =>
      have hopen : c ≠ '(' := fun h => absurd hc (by rw [h]; decide)
      have hclose : c ≠ ')' := fun h => absurd hc (by rw [h]; decide)
      have hsep : ¬ (depth = 0 ∧ (x :: sep).isPrefixOf (c :: (r ++ chars)) = true) := fun h => by
        obtain ⟨rfl, -⟩ := List.cons_prefix_cons.1 (List.isPrefixOf_iff_prefix.1 h.2)
        omega
      rw [List.cons_append, separators, if_neg hopen, if_neg hclose, if_neg hsep, ih hr, List.length_cons,
        Nat.zero_sub, Nat.zero_sub, Nat.add_right_comm]
      rfl

/-- **A separator of the lower-cased text** is one of the text; its position counts the characters in front of it in
lower case. -/
theorem exists_of_mem_separators {ws : List (List Char)} {skip i p : ℕ} {depth : ℤ}
    (h : List.Forall₂ L.Becomes s ws) (hsep : Lowercase.OfAscii sep) (hne : sep ≠ [])
    (hp : p ∈ separators sep ws.flatten skip i depth) :
    ∃ a b, s = a ++ b ∧ sep <+: b.map Char.toLower ∧ p = i + (a.flatMap L.char).length := by
  obtain ⟨x, sep, rfl⟩ := List.exists_cons_of_ne_nil hne
  induction h generalizing skip i depth with
  | nil => cases hp
  | @cons c w s ws hc hs ih =>
    obtain ⟨d, r, rfl, hr, -⟩ := hc.cases
    have hlater : ∀ {skip depth}, p ∈ separators (x :: sep) (r ++ ws.flatten) skip (i + 1) depth →
        ∃ a b, c :: s = a ++ b ∧ x :: sep <+: b.map Char.toLower ∧ p = i + (a.flatMap L.char).length := by
      intro skip depth hp
      rw [separators_append hsep.1.cons.1 hr] at hp
      obtain ⟨a, b, rfl, hb, rfl⟩ := ih hp
      refine ⟨c :: a, b, rfl, hb, ?_⟩
      rw [List.flatMap_cons, List.length_append, ← hc.length, List.length_cons]
      omega
    rw [List.flatten_cons, List.cons_append] at hp
    cases skip with
    | succ skip => exact hlater hp
    | zero =>
      rw [separators] at hp
      split_ifs at hp with hopen hclose hstarts
      · exact hlater hp
      · exact hlater hp
      · rcases List.mem_cons.1 hp with rfl | hp
        · have hstarts := List.isPrefixOf_iff_prefix.1 hstarts.2
          rw [← List.cons_append, ← List.flatten_cons] at hstarts
          exact ⟨[], c :: s, rfl, (Lowercase.prefix_flatten_iff (.cons hc hs) hsep).1 hstarts, rfl⟩
        · exact hlater hp
      · exact hlater hp

/-- The two separators, which are ASCII, stand at boundaries. -/
theorem Measured.onBoundaries {sep : String} (h : Measured L s)
    (hlower : (lib.toLowercase (String.ofList s)).toList = L.text s) (hmem : sep ∈ [" or ", " and "])
    (hself : (lib.toLowercase sep).toList = sep.toList) : OnBoundaries s sep.toList.length (cutPositions lib s sep) := by
  have hsep : Lowercase.OfAscii sep.toList ∧ sep.toList ≠ [] := by
    simp only [List.mem_cons, List.not_mem_nil, or_false] at hmem
    rcases hmem with rfl | rfl <;> decide +kernel
  intro p hp
  obtain ⟨ws, hws, htext⟩ := L.exists_text s
  rw [cutPositions, hself, hlower, htext] at hp
  obtain ⟨a, b, rfl, hb, rfl⟩ := exists_of_mem_separators hws hsep.1 hsep.2 hp
  have hlength := h.length_flatMap hmem hb
  have htake : (b.take sep.toList.length).map Char.toLower = sep.toList := by
    rw [List.map_take]
    exact (List.prefix_iff_eq_take.1 hb).symm
  have hbytes : Text.byteLength (b.take sep.toList.length) = sep.toList.length :=
    Lowercase.byteLength_of_map hsep.1.1 htake
  rw [Nat.zero_add, hlength]
  refine ⟨⟨a, b, rfl, rfl⟩, a ++ b.take sep.toList.length, b.drop sep.toList.length, ?_, ?_⟩
  · rw [List.append_assoc, List.take_append_drop]
  · rw [byteLength_append, hbytes]

theorem Measured.wellCut (h : Measured L s) (hlower : (lib.toLowercase (String.ofList s)).toList = L.text s) :
    WellCut lib s := fun _ =>
  ⟨h.onBoundaries hlower List.mem_cons_self (toLowercase_or lib),
    fun _ => h.onBoundaries hlower (List.mem_cons_of_mem _ List.mem_cons_self) (toLowercase_and lib)⟩

theorem infix_of_mem_callsFrom {t : List Char} (h : t ∈ callsFrom lib fuel s) : t <:+: s := by
  induction fuel generalizing s with
  | zero => cases h
  | succ fuel ih =>
    have htrim := TextSearch.trim_infix s
    rcases List.mem_cons.1 h with rfl | h
    · exact htrim
    · obtain ⟨u, hu, h⟩ := List.mem_flatMap.1 h
      exact (ih h).trans ((innerText_shorter hu).1.trans htrim)

/-- **The parser returns** where the characters in front of the separators have as many bytes as they have characters in
lower case. -/
theorem parseCondition_measured {s : String} (h : Measured L s.toList)
    (hlower : ∀ t, t <:+: s.toList → (lib.toLowercase (String.ofList t)).toList = L.text t) :
    Returns (parseCondition lib s) := by
  rw [returns_iff, and_iff_left (faultOf_ne_overflow lib s), faultOf_parseCondition, findSome_faultAt_iff]
  intro t ht
  have hstands := infix_of_mem_callsFrom ((List.takeWhile_subset _) ht)
  exact (h.part hstands).wellCut (hlower t hstands)

/-- The parser returns on every ASCII condition. -/
theorem parseCondition_ascii (lib : Libraries) {s : String} (h : IsAscii s.toList) :
    Returns (parseCondition lib s) := by
  refine parseCondition_measured (L := Lowercase.simple) (measured_ascii h) fun t ht => ?_
  have hascii : IsAscii t := fun c hc => h c (ht.subset hc)
  rw [lib.toLowercase_ascii _ (by rwa [String.toList_ofList]), String.toList_ofList, String.toList_ofList,
    Lowercase.simple.text_ascii hascii]

end ThorFirewall.Sigma
