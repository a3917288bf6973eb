import Mathlib
import ThorFirewall.Detection.SigmaCompiler
import ThorFirewall.Lib.TextSearch
import ThorFirewall.Lib.Utf8

/-!
# What conditions mean, and where they are split

A condition is evaluated under truth values of the selections and of the keywords. The text of a condition is scanned
for separators outside of parentheses.

- `evalCondition_eq`: the evaluation of a rule on a text is the one under the rule's truth values;
- `splitTopLevel_parts`: a text of parts that have no separator is split into these parts;
- `parseFrom_or`, `parseFrom_and`, `parseFrom_wrapped`, `parseFrom_word`: the parser on texts of each kind.
-/

namespace ThorFirewall.Sigma

open Utf8

/-! ## Truth values -/

/-- The selections of a rule, their truth values, and that of the keywords. -/
structure Assignment where
  names : List String
  value : String → Bool
  keywords : Bool

/-- The selections that a pattern with a trailing `*` stands for. -/
def Assignment.like (a : Assignment) (pattern : String) : List String :=
  let stem := (pattern.toList.reverse.dropWhile (· == '*')).reverse
  a.names.filter fun k => stem.isPrefixOf k.toList

namespace ConditionNode

mutual

def eval (a : Assignment) : ConditionNode → Bool
  | .selection name => a.value name
  | .not inner => !inner.eval a
  | .and children => evalAll a children
  | .or children => evalAny a children
  | .keywords => a.keywords
  | .oneOf pattern => (a.like pattern).any a.value
  | .allOf pattern => (a.like pattern).all a.value

def evalAll (a : Assignment) : List ConditionNode → Bool
  | [] => true
  | c :: children => c.eval a && evalAll a children

def evalAny (a : Assignment) : List ConditionNode → Bool
  | [] => false
  | c :: children => c.eval a || evalAny a children

end

theorem evalAll_eq (a : Assignment) (children : List ConditionNode) : evalAll a children = children.all (eval a) := by
  induction children with
  | nil => rfl
  | cons c children ih => rw [evalAll, List.all_cons, ih]

theorem evalAny_eq (a : Assignment) (children : List ConditionNode) : evalAny a children = children.any (eval a) := by
  induction children with
  | nil => rfl
  | cons c children ih => rw [evalAny, List.any_cons, ih]

end ConditionNode

/-- The truth values of a rule on a text. -/
def CompiledSigmaRule.assignment (rule : CompiledSigmaRule) (text : String) : Assignment where
  names := rule.selections.keys
  value name := rule.evalSelection name text
  keywords := (rule.keywordsAc.map fun ac => ac.isMatch text).getD false

mutual

theorem evalCondition_eq (rule : CompiledSigmaRule) (text : String) (n : ConditionNode) :
    rule.evalCondition text n = n.eval (rule.assignment text) := by
  cases n with
  | not inner => rw [CompiledSigmaRule.evalCondition, ConditionNode.eval, evalCondition_eq rule text inner]
  | and children => rw [CompiledSigmaRule.evalCondition, ConditionNode.eval, evalAll_eq_evalAll rule text children]
  | or children => rw [CompiledSigmaRule.evalCondition, ConditionNode.eval, evalAny_eq_evalAny rule text children]
  | selection name => rw [CompiledSigmaRule.evalCondition, ConditionNode.eval]; rfl
  | oneOf pattern => rw [CompiledSigmaRule.evalCondition, ConditionNode.eval]; rfl
  | allOf pattern => rw [CompiledSigmaRule.evalCondition, ConditionNode.eval]; rfl
  | keywords => rw [CompiledSigmaRule.evalCondition, ConditionNode.eval]; rfl

theorem evalAll_eq_evalAll (rule : CompiledSigmaRule) (text : String) (children : List ConditionNode) :
    rule.evalAll text children = ConditionNode.evalAll (rule.assignment text) children := by
  cases children with
  | nil => rfl
  | cons c children =>
    rw [CompiledSigmaRule.evalAll, ConditionNode.evalAll, evalCondition_eq rule text c,
      evalAll_eq_evalAll rule text children]

theorem evalAny_eq_evalAny (rule : CompiledSigmaRule) (text : String) (children : List ConditionNode) :
    rule.evalAny text children = ConditionNode.evalAny (rule.assignment text) children := by
  cases children with
  | nil => rfl
  | cons c children =>
    rw [CompiledSigmaRule.evalAny, ConditionNode.evalAny, evalCondition_eq rule text c,
      evalAny_eq_evalAny rule text children]

end

/-! ## Scanning -/

/-- The depth behind a text that stands in `d` parentheses, none if it closes one too many. -/
def depthAfter : ℕ → List Char → Option ℕ
  | d, [] => some d
  | d, c :: s =>
    if c = '(' then depthAfter (d + 1) s
    else if c = ')' then (if d = 0 then none else depthAfter (d - 1) s)
    else depthAfter d s

/-- The parentheses of a text match. -/
def Balanced (s : List Char) : Prop := depthAfter 0 s = some 0

theorem depthAfter_append {d e : ℕ} {s : List Char} (h : depthAfter d s = some e) (t : List Char) :
    depthAfter d (s ++ t) = depthAfter e t := by
  induction s generalizing d with
  | nil =>
    rw [depthAfter, Option.some_inj] at h
    rw [h]
    rfl
  | cons c s ih =>
    rw [List.cons_append, depthAfter]
    rw [depthAfter] at h
    split_ifs at h ⊢ <;> exact ih h

theorem depthAfter_add {d e : ℕ} {s : List Char} (h : depthAfter d s = some e) (k : ℕ) :
    depthAfter (d + k) s = some (e + k) := by
  induction s generalizing d with
  | nil =>
    rw [depthAfter, Option.some_inj] at h
    rw [h]
    rfl
  | cons c s ih =>
    rw [depthAfter] at h ⊢
    split_ifs at h ⊢ with hopen hclose hzero hsum
    · rw [Nat.add_right_comm]
      exact ih h
    · omega
    · have hd : d + k - 1 = d - 1 + k := by omega
      rw [hd]
      exact ih h
    · exact ih h

theorem Balanced.append {s t : List Char} (hs : Balanced s) (ht : Balanced t) : Balanced (s ++ t) := by
  rw [Balanced, depthAfter_append hs, ht]

theorem Balanced.wrap {s : List Char} (h : Balanced s) : Balanced ('(' :: (s ++ [')'])) := by
  rw [Balanced, depthAfter, if_pos rfl, depthAfter_append (depthAfter_add h 1)]
  rfl

/-- A text without parentheses. -/
def Flat (s : List Char) : Prop := '(' ∉ s ∧ ')' ∉ s

instance (s : List Char) : Decidable (Flat s) := inferInstanceAs (Decidable (_ ∧ _))

theorem Flat.balanced {s : List Char} (h : Flat s) : Balanced s := by
  induction s with
  | nil => rfl
  | cons c s ih =>
    obtain ⟨hopen, hclose⟩ := h
    rw [List.mem_cons, not_or] at hopen hclose
    rw [Balanced, depthAfter, if_neg (Ne.symm hopen.1), if_neg (Ne.symm hclose.1)]
    exact ih ⟨hopen.2, hclose.2⟩

/-- Inside of parentheses there are no separators. -/
theorem splitLoop_inside {p : List Char} {d e : ℕ} (h : depthAfter d p = some e) (s sep rest : List Char)
    (i last : ℕ) :
    splitLoop s sep (p ++ rest) 0 i last ((d + 1 : ℕ) : ℤ) =
      splitLoop s sep rest 0 (i + p.length) last ((e + 1 : ℕ) : ℤ) := by
  induction p generalizing d i with
  | nil =>
    rw [depthAfter, Option.some_inj] at h
    rw [h]
    rfl
  | cons c p ih =>
    rw [depthAfter] at h
    have hlen : i + (c :: p).length = i + 1 + p.length := by rw [List.length_cons]; omega
    rw [List.cons_append, splitLoop, hlen]
    split_ifs at h ⊢ with hopen hclose hzero hsep
    · exact ih h (i + 1)
    · rw [← ih h (i + 1), Nat.sub_add_cancel (by omega), Nat.cast_add_one, add_sub_cancel_right]
    · omega
    · exact ih h (i + 1)

/-- Scanning `l` in front of `rest` finds no separator in it. -/
def Passes (sep rest l : List Char) : Prop :=
  ∀ (s : List Char) (i last : ℕ), splitLoop s sep (l ++ rest) 0 i last 0 = splitLoop s sep rest 0 (i + l.length) last 0

theorem Passes.append {sep rest l m : List Char} (hl : Passes sep (m ++ rest) l) (hm : Passes sep rest m) :
    Passes sep rest (l ++ m) := fun s i last => by
  rw [List.append_assoc, hl, hm, List.length_append, Nat.add_assoc]

/-- A character that is no parenthesis and at which no separator begins. -/
theorem passes_singleton {sep rest : List Char} {c : Char} (hc : c ≠ '(' ∧ c ≠ ')') (hsep : ¬ sep <+: c :: rest) :
    Passes sep rest [c] := fun s i last => by
  have hprefix : ¬ (((0 : ℤ) = 0) ∧ sep.isPrefixOf (c :: rest)) := fun h => hsep (List.isPrefixOf_iff_prefix.1 h.2)
  rw [List.singleton_append, splitLoop, if_neg hc.1, if_neg hc.2, if_neg hprefix]
  rfl

/-- The separator around a word. -/
def around (kw : List Char) : List Char := ' ' :: (kw ++ [' '])

/-- What stands between two spaces outside of parentheses: a word, or a text in parentheses. -/
inductive Item : List Char → Prop
  | word {w : List Char} (h : ∀ c ∈ w, c ≠ ' ' ∧ c ≠ '(' ∧ c ≠ ')') : Item w
  | block {p : List Char} (h : Balanced p) : Item ('(' :: (p ++ [')']))

theorem Item.passes {u : List Char} (h : Item u) (kw rest : List Char) : Passes (around kw) rest u := by
  cases h with
  | word h =>
    induction u with
    | nil => exact fun s i last => rfl
    | cons c u ih =>
      obtain ⟨hc, hu⟩ := List.forall_mem_cons.1 h
      have hsep : ¬ around kw <+: c :: (u ++ rest) := fun hp => hc.1 (List.cons_prefix_cons.1 hp).1.symm
      exact (passes_singleton hc.2 hsep).append (ih hu)
  | @block p h =>
    intro s i last
    have hinside := splitLoop_inside h s (around kw) ([')'] ++ rest) (i + 1) last
    rw [List.cons_append, List.append_assoc, splitLoop, if_pos rfl]
    refine hinside.trans ?_
    rw [List.singleton_append, splitLoop, if_neg (by decide), if_pos rfl, List.length_cons, List.length_append]
    congr 1
    simp only [List.length_singleton]
    omega

/-- A word of a separator: it has no space and does not begin with a parenthesis. -/
def IsOperator (kw : List Char) : Prop := ' ' ∉ kw ∧ ∃ c rest, kw = c :: rest ∧ c ≠ '('

theorem isOperator_or : IsOperator ['o', 'r'] := ⟨by decide, 'o', ['r'], rfl, by decide⟩

theorem isOperator_and : IsOperator ['a', 'n', 'd'] := ⟨by decide, 'a', ['n', 'd'], rfl, by decide⟩

/-- A separator begins in front of an item only if the item is its word. -/
theorem Item.eq_of_begins {kw u rest : List Char} (h : Item u) (hkw : IsOperator kw)
    (hrest : rest = [] ∨ rest.head? = some ' ') (hp : around kw <+: ' ' :: (u ++ rest)) : u = kw := by
  obtain ⟨hspace, c, kw', rfl, hc⟩ := hkw
  have hprefix : (c :: kw') ++ [' '] <+: u ++ rest := (List.cons_prefix_cons.1 hp).2
  cases h with
  | block h => exact absurd (List.cons_prefix_cons.1 hprefix).1 hc
  | word h =>
    obtain ⟨t, ht⟩ := hprefix
    rw [List.append_assoc] at ht
    rcases List.append_eq_append_iff.1 ht with ⟨m, hu, hm⟩ | ⟨m, hkw, hm⟩
    · -- the space would be in the word
      cases m with
      | nil => rw [hu, List.append_nil]
      | cons d m =>
        rw [List.singleton_append, List.cons_append, List.cons.injEq] at hm
        exact absurd hm.1.symm (h d (by rw [hu]; simp)).1
    · cases m with
      | nil => rw [hkw, List.append_nil]
      | cons d m =>
        rcases hrest with rfl | hrest
        · cases hm
        · rw [hm, List.cons_append, List.head?_cons, Option.some_inj] at hrest
          exact absurd (by rw [hkw, hrest]; simp) hspace

/-- Items with spaces between them. -/
def spaced (us : List (List Char)) : List Char := [' '].intercalate us

theorem spaced_cons (u : List Char) (us : List (List Char)) : spaced (u :: us) = u ++ us.flatMap (' ' :: ·) := by
  induction us generalizing u with
  | nil => simp [spaced]
  | cons v us ih =>
    rw [spaced, List.intercalate_cons_cons, ← spaced, ih]
    simp

theorem head?_spaced_tail (us : List (List Char)) {rest : List Char} (hrest : rest = [] ∨ rest.head? = some ' ') :
    us.flatMap (' ' :: ·) ++ rest = [] ∨ (us.flatMap (' ' :: ·) ++ rest).head? = some ' ' := by
  cases us with
  | nil => exact hrest
  | cons u us => exact Or.inr rfl

/-- Items behind a space, none of which is the word of the separator. -/
theorem passes_tail {kw rest : List Char} {us : List (List Char)} (hkw : IsOperator kw)
    (hrest : rest = [] ∨ rest.head? = some ' ') (h : ∀ u ∈ us, Item u ∧ u ≠ kw) :
    Passes (around kw) rest (us.flatMap (' ' :: ·)) := by
  induction us with
  | nil => exact fun s i last => rfl
  | cons u us ih =>
    obtain ⟨⟨hitem, hne⟩, hus⟩ := List.forall_mem_cons.1 h
    have htail := head?_spaced_tail us hrest
    have hspace : ¬ around kw <+: ' ' :: (u ++ (us.flatMap (' ' :: ·) ++ rest)) := fun hp =>
      hne (hitem.eq_of_begins hkw htail hp)
    have hitems : Passes (around kw) rest (u ++ us.flatMap (' ' :: ·)) := (hitem.passes kw _).append (ih hus)
    rw [List.flatMap_cons, List.cons_append, ← List.singleton_append]
    rw [← List.append_assoc] at hspace
    exact (passes_singleton (by decide) hspace).append hitems

theorem passes_spaced {kw rest u : List Char} {us : List (List Char)} (hkw : IsOperator kw)
    (hrest : rest = [] ∨ rest.head? = some ' ') (hu : Item u) (h : ∀ u ∈ us, Item u ∧ u ≠ kw) :
    Passes (around kw) rest (spaced (u :: us)) := by
  rw [spaced_cons]
  exact (hu.passes kw _).append (passes_tail hkw hrest h)

/-! ## Splitting -/

theorem splitLoop_skip (s sep x rest : List Char) (i last : ℕ) (depth : ℤ) :
    splitLoop s sep (x ++ rest) x.length i last depth = splitLoop s sep rest 0 (i + x.length) last depth := by
  induction x generalizing i with
  | nil => rfl
  | cons c x ih =>
    rw [List.cons_append, List.length_cons, splitLoop, ih]
    congr 1
    omega

theorem splitLoop_separator {s kw rest part : List Char} {i last : ℕ} (hslice : slice s last i = .ok part) :
    splitLoop s (around kw) (around kw ++ rest) 0 i last 0 =
      (splitLoop s (around kw) rest 0 (i + (around kw).length) (i + (around kw).length) 0).map
        (Text.trim part :: ·) := by
  have hprefix : (0 : ℤ) = 0 ∧ (around kw).isPrefixOf (' ' :: (kw ++ [' '] ++ rest)) :=
    ⟨rfl, List.isPrefixOf_iff_prefix.2 (List.prefix_append (around kw) rest)⟩
  have hskip := splitLoop_skip s (around kw) (kw ++ [' ']) rest (i + 1) (i + (around kw).length) 0
  have hlen : i + 1 + (kw ++ [' ']).length = i + (around kw).length := by
    rw [around, List.length_cons]
    omega
  rw [hlen] at hskip
  have hunfold : splitLoop s (around kw) (around kw ++ rest) 0 i last 0 = (do
      let part ← slice s last i
      let parts ← splitLoop s (around kw) (kw ++ [' '] ++ rest) (kw ++ [' ']).length (i + 1) (i + (around kw).length) 0
      return Text.trim part :: parts) := by
    conv_lhs =>
      rw [around, List.cons_append, splitLoop, if_neg (by decide), if_neg (by decide), ← around, if_pos hprefix]
    rfl
  rw [hunfold, hslice, hskip]
  rfl

/-- Lower-case letters. -/
def lower (s : List Char) : List Char := s.map Char.toLower

@[simp] theorem length_lower (s : List Char) : (lower s).length = s.length := List.length_map _

@[simp] theorem lower_append (s t : List Char) : lower (s ++ t) = lower s ++ lower t := List.map_append

theorem lower_spaced (us : List (List Char)) : lower (spaced us) = spaced (us.map lower) := by
  cases us with
  | nil => rfl
  | cons u us =>
    rw [List.map_cons, spaced_cons, spaced_cons, lower_append]
    congr 1
    induction us with
    | nil => rfl
    | cons v us ih => rw [List.flatMap_cons, List.map_cons, List.flatMap_cons, lower_append, ih]; rfl

theorem toLower_eq_iff {c d : Char} (hd : d.isLower = false) (hself : d.toLower = d) : c.toLower = d ↔ c = d :=
  ⟨TextSearch.eq_of_toLower hd, fun h => h ▸ hself⟩

theorem depthAfter_lower (d : ℕ) (s : List Char) : depthAfter d (lower s) = depthAfter d s := by
  induction s generalizing d with
  | nil => rfl
  | cons c s ih =>
    have hopen : c.toLower = '(' ↔ c = '(' := toLower_eq_iff rfl rfl
    have hclose : c.toLower = ')' ↔ c = ')' := toLower_eq_iff rfl rfl
    rw [lower, List.map_cons, depthAfter, depthAfter, ← lower, ih, ih, ih]
    simp only [hopen, hclose]

theorem Item.lower {u : List Char} (h : Item u) : Item (Sigma.lower u) := by
  cases h with
  | word h =>
    refine .word fun d hd => ?_
    obtain ⟨c, hc, rfl⟩ := List.mem_map.1 hd
    obtain ⟨hspace, hopen, hclose⟩ := h c hc
    exact ⟨fun h => hspace ((toLower_eq_iff rfl rfl).1 h), fun h => hopen ((toLower_eq_iff rfl rfl).1 h),
      fun h => hclose ((toLower_eq_iff rfl rfl).1 h)⟩
  | @block p h =>
    have hblock : Item ('(' :: (Sigma.lower p ++ [')'])) := .block ((depthAfter_lower 0 p).trans h)
    simpa [Sigma.lower] using hblock

/-- The text of parts, each with the separator behind it. -/
def cutText (parts : List (List Char × List Char)) : List Char := parts.flatMap fun r => r.1 ++ r.2

/-- The parts have no separator, and what stands behind each is one. -/
def Cut (kw : List Char) (parts : List (List Char × List Char)) : Prop :=
  ∀ r ∈ parts, IsAscii r.1 ∧ IsAscii r.2 ∧ lower r.2 = around kw ∧
    ∀ rest, rest.head? = some ' ' → Passes (around kw) rest (lower r.1)

/-- A text of parts is split into these parts; `l` is the last one in lower case. -/
theorem splitLoop_parts {kw l : List Char} {parts : List (List Char × List Char)} (pre p : List Char)
    (hpre : IsAscii pre) (hparts : Cut kw parts) (hl : Passes (around kw) [] l) :
    splitLoop (pre ++ (cutText parts ++ p)) (around kw) (lower (cutText parts) ++ l) 0 pre.length pre.length 0 =
      .ok ((parts.map Prod.fst ++ [p]).map Text.trim) := by
  induction parts generalizing pre with
  | nil =>
    have hend := hl (pre ++ p) pre.length pre.length
    rw [List.append_nil] at hend
    simp only [cutText, List.flatMap_nil, List.nil_append, List.map_nil, lower]
    rw [hend, splitLoop, slice, slice_rest hpre]
    rfl
  | cons r parts ih =>
    obtain ⟨⟨hq, ho, hop, hpass⟩, hrest⟩ := List.forall_mem_cons.1 hparts
    obtain ⟨q, o⟩ := r
    simp only at hq ho hop hpass
    have hlen : o.length = (around kw).length := by rw [← hop, length_lower]
    have hih := ih (pre ++ (q ++ o)) (isAscii_append.2 ⟨hpre, isAscii_append.2 ⟨hq, ho⟩⟩) hrest
    have htext : pre ++ (cutText ((q, o) :: parts) ++ p) = (pre ++ (q ++ o)) ++ (cutText parts ++ p) := by
      simp [cutText]
    have hlower : lower (cutText ((q, o) :: parts)) ++ l = lower q ++ (around kw ++ (lower (cutText parts) ++ l)) := by
      simp [cutText, lower, ← hop]
    have hslice : slice (pre ++ (cutText ((q, o) :: parts) ++ p)) pre.length (pre.length + q.length) = .ok q := by
      have happ : pre ++ (cutText ((q, o) :: parts) ++ p) = pre ++ (q ++ (o ++ (cutText parts ++ p))) := by
        simp [cutText]
      rw [slice, happ, slice_part hpre hq]
    have hpos : pre.length + q.length + (around kw).length = (pre ++ (q ++ o)).length := by
      rw [List.length_append, List.length_append, hlen, Nat.add_assoc]
    rw [hlower, hpass _ rfl, length_lower, splitLoop_separator hslice, hpos, htext, hih]
    rfl

/-- In lower case, a text is `lower a ++ l`. -/
theorem splitTopLevel_parts {lib : Libraries} {kw p l : List Char} {sep : String}
    {parts : List (List Char × List Char)} (hsep : (lib.toLowercase sep).toList = around kw) (hparts : Cut kw parts)
    (hl : Passes (around kw) [] l)
    (hlower : (lib.toLowercase (String.ofList (cutText parts ++ p))).toList = lower (cutText parts) ++ l) :
    splitTopLevel lib (cutText parts ++ p) sep =
      .ok (if parts = [] then none else some ((parts.map Prod.fst ++ [p]).map Text.trim)) := by
  have hloop := splitLoop_parts [] p (fun c hc => by cases hc) hparts hl
  rw [List.nil_append, List.length_nil] at hloop
  rw [splitTopLevel, hsep, hlower, hloop]
  cases parts with
  | nil => rfl
  | cons r parts => simp [pure, Except.pure, bind, Except.bind]

theorem toLowercase_or (lib : Libraries) : (lib.toLowercase " or ").toList = around ['o', 'r'] := by
  have hascii : IsAscii " or ".toList := by decide
  rw [lib.toLowercase_ascii " or " hascii]
  rfl

theorem toLowercase_and (lib : Libraries) : (lib.toLowercase " and ").toList = around ['a', 'n', 'd'] := by
  have hascii : IsAscii " and ".toList := by decide
  rw [lib.toLowercase_ascii " and " hascii]
  rfl

/-! ## Parsing -/

/-- What the parser tries before it splits. -/
def beginnings : List String := ["1of(", "1 of (", "all of (", "allof(", "not ", "NOT "]

/-- A text that is trimmed and begins with none of these. -/
structure Unmarked (s : List Char) : Prop where
  trimmed : Text.trim s = s
  begins : ∀ b ∈ beginnings, ¬ b.toList <+: s

theorem isPrefixOf_eq_false {b s : List Char} (h : ¬ b <+: s) : b.isPrefixOf s = false :=
  Bool.eq_false_iff.2 fun hb => h (List.isPrefixOf_iff_prefix.1 hb)

variable {lib : Libraries} {s : List Char} {fuel : ℕ}

/-- The rest of the parser on an unmarked text. -/
theorem parseFrom_unmarked (h : Unmarked s) :
    parseFrom lib (fuel + 1) s = (do
      if let some parts ← splitTopLevel lib s " or " then
        return .or (← parts.mapM (parseFrom lib fuel))
      if let some parts ← splitTopLevel lib s " and " then
        return .and (← parts.mapM (parseFrom lib fuel))
      if s.head? = some '(' ∧ s.getLast? = some ')' then
        parseFrom lib fuel (s.drop 1).dropLast
      else if s = "keywords".toList then
        return .keywords
      else
        return .selection (String.ofList s)) := by
  have hbegins (b : String) (hb : b ∈ beginnings) : b.toList.isPrefixOf s = false := isPrefixOf_eq_false (h.begins b hb)
  have hparse : parseFrom lib (fuel + 1) s = parseFrom lib (fuel + 1) s := rfl
  conv_rhs at hparse => rw [parseFrom]
  simp only [h.trimmed, hbegins "1of(" (by decide), hbegins "1 of (" (by decide), hbegins "all of (" (by decide),
    hbegins "allof(" (by decide), hbegins "not " (by decide), hbegins "NOT " (by decide), Bool.or_self,
    Bool.false_eq_true, if_false] at hparse
  exact hparse

theorem parseFrom_or (h : Unmarked s) {parts : List (List Char)}
    (hor : splitTopLevel lib s " or " = .ok (some parts)) :
    parseFrom lib (fuel + 1) s = .or <$> parts.mapM (parseFrom lib fuel) := by
  rw [parseFrom_unmarked h, hor]
  rfl

theorem parseFrom_and (h : Unmarked s) {parts : List (List Char)} (hor : splitTopLevel lib s " or " = .ok none)
    (hand : splitTopLevel lib s " and " = .ok (some parts)) :
    parseFrom lib (fuel + 1) s = .and <$> parts.mapM (parseFrom lib fuel) := by
  rw [parseFrom_unmarked h, hor, hand]
  rfl

section Whole

variable (h : Unmarked s) (hor : splitTopLevel lib s " or " = .ok none)
  (hand : splitTopLevel lib s " and " = .ok none)

include h hor hand

theorem parseFrom_whole :
    parseFrom lib (fuel + 1) s =
      if s.head? = some '(' ∧ s.getLast? = some ')' then parseFrom lib fuel (s.drop 1).dropLast
      else if s = "keywords".toList then .ok .keywords
      else .ok (.selection (String.ofList s)) := by
  rw [parseFrom_unmarked h, hor, hand]
  rfl

theorem parseFrom_word (hs : s.head? ≠ some '(') :
    parseFrom lib (fuel + 1) s =
      .ok (if s = "keywords".toList then .keywords else .selection (String.ofList s)) := by
  rw [parseFrom_whole h hor hand, if_neg fun h => hs h.1]
  split_ifs <;> rfl

end Whole

theorem parseFrom_wrapped {p : List Char} (htrim : Text.trim ('(' :: (p ++ [')'])) = '(' :: (p ++ [')']))
    (hor : splitTopLevel lib ('(' :: (p ++ [')'])) " or " = .ok none)
    (hand : splitTopLevel lib ('(' :: (p ++ [')'])) " and " = .ok none) :
    parseFrom lib (fuel + 1) ('(' :: (p ++ [')'])) = parseFrom lib fuel p := by
  have hunmarked : Unmarked ('(' :: (p ++ [')'])) := ⟨htrim, by
    intro b hb hp
    simp only [beginnings, List.mem_cons, List.not_mem_nil, or_false] at hb
    rcases hb with rfl | rfl | rfl | rfl | rfl | rfl <;> exact absurd (List.cons_prefix_cons.1 hp).1 (by decide)⟩
  have hlast : ('(' :: (p ++ [')'])).getLast? = some ')' := by
    rw [← List.cons_append, List.getLast?_concat]
  rw [parseFrom_whole hunmarked hor hand, if_pos ⟨rfl, hlast⟩, List.drop_one, List.tail_cons, List.dropLast_concat]

/-- A negation in front of a text takes the whole text. -/
theorem parseFrom_not {w : List Char} (hw : w = "not".toList ∨ w = "NOT".toList)
    (htrim : Text.trim (w ++ ' ' :: s) = w ++ ' ' :: s) :
    parseFrom lib (fuel + 1) (w ++ ' ' :: s) = .not <$> parseFrom lib fuel s := by
  rw [parseFrom, htrim]
  rcases hw with rfl | rfl <;> rfl

theorem extractParenContent_eq (pre : List Char) (hpre : '(' ∉ pre) (p : List Char) :
    extractParenContent (pre ++ '(' :: (p ++ [')'])) = .ok (String.ofList p) := by
  have htext : pre ++ '(' :: (p ++ [')']) = (pre ++ '(' :: p) ++ [')'] := by simp
  have hnone : pre.findIdx? (· == '(') = none :=
    List.findIdx?_eq_none_iff.2 fun c hc => beq_eq_false_iff_ne.2 fun h => hpre (h ▸ hc)
  have hfirst : (pre ++ '(' :: (p ++ [')'])).findIdx? (· == '(') = some pre.length := by
    rw [List.findIdx?_append, hnone]
    simp [List.findIdx?_cons]
  have hback : (pre ++ '(' :: (p ++ [')'])).reverse.findIdx? (· == ')') = some 0 := by
    rw [htext, List.reverse_append]
    rfl
  have hlen : (pre ++ '(' :: (p ++ [')'])).length - 1 - 0 = (pre ++ '(' :: p).length := by simp
  have htake : (pre ++ '(' :: (p ++ [')'])).take (pre ++ '(' :: p).length = pre ++ '(' :: p := by
    rw [htext, List.take_left]
  have hdrop : (pre ++ '(' :: p).drop (pre.length + 1) = p := by
    rw [← List.drop_drop, List.drop_left]
    rfl
  have hlt : ¬ (pre ++ '(' :: p).length < pre.length + 1 := by
    rw [List.length_append, List.length_cons]
    omega
  rw [extractParenContent, hfirst, hback]
  simp only [hlen, htake, hdrop, if_neg hlt]

theorem parseFrom_oneOf (p : List Char)
    (htrim : Text.trim ("1 of ".toList ++ '(' :: (p ++ [')'])) = "1 of ".toList ++ '(' :: (p ++ [')'])) :
    parseFrom lib (fuel + 1) ("1 of ".toList ++ '(' :: (p ++ [')'])) = .ok (.oneOf (String.ofList p)) := by
  have hcontent := extractParenContent_eq "1 of ".toList (by decide) p
  rw [parseFrom, htrim]
  simp only [hcontent]
  rfl

theorem parseFrom_allOf (p : List Char)
    (htrim : Text.trim ("all of ".toList ++ '(' :: (p ++ [')'])) = "all of ".toList ++ '(' :: (p ++ [')'])) :
    parseFrom lib (fuel + 1) ("all of ".toList ++ '(' :: (p ++ [')'])) = .ok (.allOf (String.ofList p)) := by
  have hcontent := extractParenContent_eq "all of ".toList (by decide) p
  rw [parseFrom, htrim]
  simp only [hcontent]
  rfl

end ThorFirewall.Sigma
