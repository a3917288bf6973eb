import Mathlib
import ThorFirewall.Detection.SigmaConditions
import ThorFirewall.Detection.TieredSigma

/-!
# Printed conditions

A condition is printed with parentheses around every operand, every negation and every quantifier. The parser reads the
text back, with a `*` behind the pattern of each quantifier.

- `parseFrom_print`: the tree that is read;
- `print_roundtrip`: it has the same truth value as the tree that was printed.
-/

namespace ThorFirewall.Sigma

open Utf8

/-! ## Printing -/

def wrap (s : List Char) : List Char := '(' :: (s ++ [')'])

/-- Texts with an operator between them. -/
def joined (op : List Char) (ws : List (List Char)) : List Char := (around op).intercalate ws

def keywordsText : List Char := "keywords".toList

def negation (s : List Char) : List Char := wrap ("not ".toList ++ wrap s)

def oneOfText (pattern : String) : List Char := wrap ("1 of ".toList ++ wrap (pattern.toList ++ ['*']))

def allOfText (pattern : String) : List Char := wrap ("all of ".toList ++ wrap (pattern.toList ++ ['*']))

namespace ConditionNode

mutual

/-- The text of a condition. -/
def print : ConditionNode → List Char
  | .selection name => name.toList
  | .keywords => keywordsText
  | .not inner => negation inner.print
  | .and children => joined ['a', 'n', 'd'] (printAll children)
  | .or children => joined ['o', 'r'] (printAll children)
  | .oneOf pattern => oneOfText pattern
  | .allOf pattern => allOfText pattern

/-- The operands, each in parentheses. -/
def printAll : List ConditionNode → List (List Char)
  | [] => []
  | c :: children => wrap c.print :: printAll children

end

mutual

/-- The condition that is read: the patterns end with a `*`. -/
def starred : ConditionNode → ConditionNode
  | .selection name => .selection name
  | .keywords => .keywords
  | .not inner => .not inner.starred
  | .and children => .and (starredAll children)
  | .or children => .or (starredAll children)
  | .oneOf pattern => .oneOf (String.ofList (pattern.toList ++ ['*']))
  | .allOf pattern => .allOf (String.ofList (pattern.toList ++ ['*']))

def starredAll : List ConditionNode → List ConditionNode
  | [] => []
  | c :: children => c.starred :: starredAll children

end

end ConditionNode

/-- A name of ASCII characters without spaces and parentheses. -/
def PlainName (name : String) : Prop := IsAscii name.toList ∧ ' ' ∉ name.toList ∧ Flat name.toList

instance (name : String) : Decidable (PlainName name) := inferInstanceAs (Decidable (_ ∧ _))

/-- Plain names of selections that are not the keywords and that no trimming changes, plain patterns, and at least two
operands of each conjunction and disjunction. -/
inductive Printable : ConditionNode → Prop
  | selection {name : String} (h : PlainName name) (hkeywords : name ≠ "keywords")
      (htrim : Text.trim name.toList = name.toList) : Printable (.selection name)
  | keywords : Printable .keywords
  | not {inner : ConditionNode} (h : Printable inner) : Printable (.not inner)
  | and {children : List ConditionNode} (hlen : 2 ≤ children.length) (h : ∀ c ∈ children, Printable c) :
      Printable (.and children)
  | or {children : List ConditionNode} (hlen : 2 ≤ children.length) (h : ∀ c ∈ children, Printable c) :
      Printable (.or children)
  | oneOf {pattern : String} (h : PlainName pattern) : Printable (.oneOf pattern)
  | allOf {pattern : String} (h : PlainName pattern) : Printable (.allOf pattern)

open ConditionNode

/-! ## The same truth values -/

theorem like_starred (a : Assignment) (pattern : String) :
    a.like (String.ofList (pattern.toList ++ ['*'])) = a.like pattern := by
  unfold Assignment.like
  rw [String.toList_ofList, List.reverse_append, List.reverse_singleton, List.singleton_append,
    List.dropWhile_cons_of_pos (by decide)]

mutual

theorem eval_starred (a : Assignment) (n : ConditionNode) : n.starred.eval a = n.eval a := by
  cases n with
  | selection name => rfl
  | keywords => rfl
  | not inner => rw [starred, eval, eval, eval_starred a inner]
  | and children => rw [starred, eval, eval, evalAll_starredAll a children]
  | or children => rw [starred, eval, eval, evalAny_starredAll a children]
  | oneOf pattern => rw [starred, eval, eval, like_starred]
  | allOf pattern => rw [starred, eval, eval, like_starred]

theorem evalAll_starredAll (a : Assignment) (children : List ConditionNode) :
    evalAll a (starredAll children) = evalAll a children := by
  cases children with
  | nil => rfl
  | cons c children => rw [starredAll, evalAll, evalAll, eval_starred a c, evalAll_starredAll a children]

theorem evalAny_starredAll (a : Assignment) (children : List ConditionNode) :
    evalAny a (starredAll children) = evalAny a children := by
  cases children with
  | nil => rfl
  | cons c children => rw [starredAll, evalAny, evalAny, eval_starred a c, evalAny_starredAll a children]

end

/-! ## Printed texts -/

theorem printAll_eq (children : List ConditionNode) : printAll children = children.map fun c => wrap c.print := by
  induction children with
  | nil => rfl
  | cons c children ih => rw [printAll, ih, List.map_cons]

theorem starredAll_eq (children : List ConditionNode) : starredAll children = children.map starred := by
  induction children with
  | nil => rfl
  | cons c children ih => rw [starredAll, ih, List.map_cons]

theorem isAscii_wrap {s : List Char} (h : IsAscii s) : IsAscii (wrap s) := by
  have hwrap : wrap s = ['('] ++ (s ++ [')']) := rfl
  rw [hwrap, isAscii_append, isAscii_append]
  exact ⟨by decide, h, by decide⟩

/-- A text whose first and last characters are no white space is not trimmed. -/
theorem trim_between {a b : Char} (ha : Text.isWhitespace a = false) (hb : Text.isWhitespace b = false)
    (s : List Char) : Text.trim (a :: (s ++ [b])) = a :: (s ++ [b]) := by
  refine TextSearch.trim_self (fun c hc => ?_) fun c hc => ?_
  · rw [List.head?_cons, Option.mem_some_iff] at hc
    exact hc ▸ ha
  · rw [← List.cons_append, List.getLast?_concat, Option.mem_some_iff] at hc
    exact hc ▸ hb

theorem trim_wrap (s : List Char) : Text.trim (wrap s) = wrap s := trim_between (by decide) (by decide) s

/-- What the parser needs to know of the text of an operand. -/
structure Operand (s : List Char) : Prop where
  ascii : IsAscii s
  balanced : Balanced s

theorem Operand.wrap {s : List Char} (h : Operand s) : Operand (wrap s) := ⟨isAscii_wrap h.ascii, h.balanced.wrap⟩

theorem Operand.append {s t : List Char} (hs : Operand s) (ht : Operand t) : Operand (s ++ t) :=
  ⟨isAscii_append.2 ⟨hs.ascii, ht.ascii⟩, hs.balanced.append ht.balanced⟩

theorem operand_of {s : List Char} (h : IsAscii s ∧ Flat s) : Operand s := ⟨h.1, h.2.balanced⟩

theorem PlainName.operand {name : String} (h : PlainName name) : Operand name.toList := operand_of ⟨h.1, h.2.2⟩

theorem operand_joined {op : List Char} (hop : Operand (around op)) {ws : List (List Char)} (h : ∀ w ∈ ws, Operand w) :
    Operand (joined op ws) := by
  induction ws with
  | nil => exact operand_of (s := []) (by decide)
  | cons w ws ih =>
    obtain ⟨hw, hws⟩ := List.forall_mem_cons.1 h
    cases ws with
    | nil => rwa [joined, List.intercalate_singleton]
    | cons v ws =>
      rw [joined, List.intercalate_cons_cons]
      exact (hw.append hop).append (ih hws)

theorem operand_print {n : ConditionNode} (h : Printable n) : Operand n.print := by
  induction h with
  | selection h _ _ =>
    rw [print]
    exact h.operand
  | keywords =>
    rw [print]
    exact operand_of ⟨by decide, by decide⟩
  | not _ ih =>
    rw [print]
    exact (Operand.append (operand_of (by decide)) ih.wrap).wrap
  | and _ _ ih =>
    rw [print, printAll_eq]
    exact operand_joined (operand_of (by decide)) (List.forall_mem_map.2 fun c hc => (ih c hc).wrap)
  | or _ _ ih =>
    rw [print, printAll_eq]
    exact operand_joined (operand_of (by decide)) (List.forall_mem_map.2 fun c hc => (ih c hc).wrap)
  | oneOf h =>
    rw [print]
    exact (Operand.append (operand_of (by decide)) (h.operand.append (operand_of (by decide))).wrap).wrap
  | allOf h =>
    rw [print]
    exact (Operand.append (operand_of (by decide)) (h.operand.append (operand_of (by decide))).wrap).wrap

/-! ## Reading -/

variable {lib : Libraries}

theorem toLowercase_ofList (lib : Libraries) {s : List Char} (h : IsAscii s) :
    (lib.toLowercase (String.ofList s)).toList = lower s := by
  rw [lib.toLowercase_ascii _ (by rwa [String.toList_ofList]), String.toList_ofList, String.toList_ofList]
  rfl

/-- A text without a separator is not split. -/
theorem splitTopLevel_none {kw s : List Char} {sep : String} (hsep : (lib.toLowercase sep).toList = around kw)
    (h : IsAscii s) (hpass : Passes (around kw) [] (lower s)) : splitTopLevel lib s sep = .ok none := by
  have hcut : Cut kw [] := fun r hr => by cases hr
  exact splitTopLevel_parts hsep hcut hpass (toLowercase_ofList lib h)

theorem splitTopLevel_item (lib : Libraries) {s : List Char} (h : IsAscii s) (hs : Item s) :
    splitTopLevel lib s " or " = .ok none ∧ splitTopLevel lib s " and " = .ok none :=
  ⟨splitTopLevel_none (toLowercase_or lib) h (hs.lower.passes _ _),
    splitTopLevel_none (toLowercase_and lib) h (hs.lower.passes _ _)⟩

/-- The parentheses around an operand are taken off. -/
theorem parseFrom_wrap {s : List Char} (h : Operand s) (fuel : ℕ) :
    parseFrom lib (fuel + 1) (wrap s) = parseFrom lib fuel s := by
  obtain ⟨hor, hand⟩ := splitTopLevel_item lib (isAscii_wrap h.ascii) (.block h.balanced)
  exact parseFrom_wrapped (trim_wrap s) hor hand

theorem joined_eq_spaced (op w : List Char) (ws : List (List Char)) :
    joined op (w :: ws) = spaced (w :: ws.flatMap fun v => [op, v]) := by
  induction ws generalizing w with
  | nil => rfl
  | cons v ws ih =>
    rw [joined, List.intercalate_cons_cons, ← joined, ih, spaced_cons, spaced_cons]
    simp [around]

theorem joined_concat (op w : List Char) (ws : List (List Char)) :
    joined op (ws ++ [w]) = cutText (ws.map fun v => (v, around op)) ++ w := by
  induction ws with
  | nil => rw [List.nil_append, joined, List.intercalate_singleton]; rfl
  | cons v ws ih =>
    rw [List.cons_append, joined, List.intercalate_cons_of_ne_nil (by simp), ← joined, ih]
    simp [cutText]

/-- Operands in parentheses. -/
def Wrapped (ws : List (List Char)) : Prop := ∀ w ∈ ws, ∃ s, Operand s ∧ w = wrap s

variable {op kw w : List Char} {ws : List (List Char)} {sep : String}

theorem Wrapped.operand (h : Wrapped ws) : ∀ w ∈ ws, Operand w := by
  intro w hw
  obtain ⟨s, hs, rfl⟩ := h w hw
  exact hs.wrap

theorem Wrapped.item (h : Wrapped ws) (hw : w ∈ ws) : Item (lower w) := by
  obtain ⟨s, hs, rfl⟩ := h w hw
  exact Item.lower (.block hs.balanced)

theorem Wrapped.trim (h : Wrapped ws) : ws.map Text.trim = ws := by
  rw [List.map_congr_left (g := id) fun w hw => ?_, List.map_id]
  obtain ⟨s, -, rfl⟩ := h w hw
  exact trim_wrap s

theorem Wrapped.lower_ne (h : Wrapped ws) (hkw : IsOperator kw) (hw : w ∈ ws) : lower w ≠ kw := by
  obtain ⟨s, -, rfl⟩ := h w hw
  obtain ⟨-, c, rest, rfl, hc⟩ := hkw
  exact fun h => hc (List.cons.inj h).1.symm

/-- The text is split at its operator. -/
theorem Wrapped.split (h : Wrapped (ws ++ [w])) (hws : ws ≠ []) (hop : Operand (around op))
    (hlower : lower (around op) = around op) (hsep : (lib.toLowercase sep).toList = around op) :
    splitTopLevel lib (joined op (ws ++ [w])) sep = .ok (some (ws ++ [w])) := by
  have hcut : Cut op (ws.map fun v => (v, around op)) := by
    refine List.forall_mem_map.2 fun v hv => ?_
    have hmem : v ∈ ws ++ [w] := List.mem_append_left _ hv
    exact ⟨(h.operand v hmem).ascii, hop.ascii, hlower, fun rest _ => (h.item hmem).passes op rest⟩
  have hpass : Passes (around op) [] (lower w) := (h.item (by simp)).passes op []
  have hascii : IsAscii (cutText (ws.map fun v => (v, around op)) ++ w) := by
    rw [← joined_concat]
    exact (operand_joined hop h.operand).ascii
  have hsplit := splitTopLevel_parts hsep hcut hpass (by rw [toLowercase_ofList lib hascii, lower_append])
  have hfst : (Prod.fst ∘ fun v => (v, around op)) = (id : List Char → List Char) := rfl
  rw [joined_concat, hsplit, if_neg (by simpa using hws), List.map_map, hfst, List.map_id, h.trim]

/-- Another operator does not split it. -/
theorem Wrapped.split_other (h : Wrapped (w :: ws)) (hop : Operand (around op)) (hitem : Item (lower op))
    (hne : lower op ≠ kw) (hkw : IsOperator kw) (hsep : (lib.toLowercase sep).toList = around kw) :
    splitTopLevel lib (joined op (w :: ws)) sep = .ok none := by
  refine splitTopLevel_none hsep (operand_joined hop h.operand).ascii ?_
  rw [joined_eq_spaced, lower_spaced]
  refine passes_spaced hkw (Or.inl rfl) (h.item List.mem_cons_self) (List.forall_mem_map.2 fun u hu => ?_)
  obtain ⟨v, hv, hmem⟩ := List.mem_flatMap.1 hu
  have hvw : v ∈ w :: ws := List.mem_cons_of_mem _ hv
  rw [List.mem_cons, List.mem_singleton] at hmem
  rcases hmem with rfl | rfl
  · exact ⟨hitem, hne⟩
  · exact ⟨h.item hvw, h.lower_ne hkw hvw⟩

theorem mapM_eq_ok {α β ε : Type} {f : α → Except ε β} {g : α → β} {l : List α} (h : ∀ a ∈ l, f a = .ok (g a)) :
    l.mapM f = .ok (l.map g) := by
  induction l with
  | nil => rfl
  | cons a l ih =>
    obtain ⟨ha, hl⟩ := List.forall_mem_cons.1 h
    rw [List.mapM_cons, ha, ih hl]
    rfl

/-- A text that begins with a parenthesis and ends with one. -/
theorem unmarked_joined (h : Wrapped (ws ++ [w])) : Unmarked (joined op (ws ++ [w])) := by
  obtain ⟨last, -, hlast⟩ := h w (by simp)
  obtain ⟨v, vs, hvs⟩ := List.exists_cons_of_ne_nil (l := ws ++ [w]) (by simp)
  obtain ⟨first, -, hfirst⟩ := h v (by simp [hvs])
  obtain ⟨t, ht⟩ : ∃ t, joined op (ws ++ [w]) = '(' :: t :=
    ⟨_, by rw [hvs, joined_eq_spaced, spaced_cons, hfirst, wrap, List.cons_append]⟩
  refine ⟨TextSearch.trim_self (fun c hc => ?_) fun c hc => ?_, fun b hb hp => ?_⟩
  · rw [ht, List.head?_cons, Option.mem_some_iff] at hc
    subst hc
    decide
  · rw [joined_concat, hlast, wrap, ← List.cons_append, ← List.append_assoc, List.getLast?_concat,
      Option.mem_some_iff] at hc
    subst hc
    decide
  · rw [ht] at hp
    simp only [beginnings, List.mem_cons, List.not_mem_nil, or_false] at hb
    rcases hb with rfl | rfl | rfl | rfl | rfl | rfl <;> exact absurd (List.cons_prefix_cons.1 hp).1 (by decide)

/-- Every beginning has a space or a parenthesis. -/
theorem begins_of_word {s : List Char} (hspace : ' ' ∉ s) (hopen : '(' ∉ s) : ∀ b ∈ beginnings, ¬ b.toList <+: s := by
  intro b hb hp
  have hmem : ' ' ∈ b.toList ∨ '(' ∈ b.toList := by
    simp only [beginnings, List.mem_cons, List.not_mem_nil, or_false] at hb
    rcases hb with rfl | rfl | rfl | rfl | rfl | rfl <;> decide
  exact hmem.elim (fun h => hspace (hp.subset h)) fun h => hopen (hp.subset h)

theorem item_word {s : List Char} (hspace : ' ' ∉ s) (hflat : Flat s) : Item s :=
  .word fun _ hc => ⟨fun h => hspace (h ▸ hc), fun h => hflat.1 (h ▸ hc), fun h => hflat.2 (h ▸ hc)⟩

/-- A name that is no operator and no text in parentheses. -/
theorem parseFrom_name {s : List Char} (hascii : IsAscii s) (hspace : ' ' ∉ s) (hflat : Flat s)
    (htrim : Text.trim s = s) (fuel : ℕ) :
    parseFrom lib (fuel + 1) s =
      .ok (if s = "keywords".toList then .keywords else .selection (String.ofList s)) := by
  obtain ⟨hor, hand⟩ := splitTopLevel_item lib hascii (item_word hspace hflat)
  refine parseFrom_word ⟨htrim, begins_of_word hspace hflat.1⟩ hor hand fun hs => hflat.1 ?_
  exact List.mem_of_mem_head? hs

/-- The operands of a conjunction or a disjunction are read one by one. -/
theorem mapM_operands {children : List ConditionNode} {fuel : ℕ} (h : ∀ c ∈ children, Printable c)
    (ih : ∀ c ∈ children, parseFrom lib fuel c.print = .ok c.starred) :
    (printAll children).mapM (parseFrom lib (fuel + 1)) = .ok (starredAll children) := by
  rw [printAll_eq, starredAll_eq, List.mapM_map]
  refine mapM_eq_ok fun c hc => ?_
  rw [Function.comp_apply, parseFrom_wrap (operand_print (h c hc)), ih c hc]

theorem wrapped_printAll {children : List ConditionNode} (h : ∀ c ∈ children, Printable c) :
    Wrapped (printAll children) := by
  intro w hw
  rw [printAll_eq] at hw
  obtain ⟨c, hc, rfl⟩ := List.mem_map.1 hw
  exact ⟨c.print, operand_print (h c hc), rfl⟩

theorem length_le_joined (hw : w ∈ ws) (op : List Char) : w.length ≤ (joined op ws).length := by
  induction ws with
  | nil => cases hw
  | cons v ws ih =>
    cases ws with
    | nil =>
      rw [List.mem_singleton.1 hw, joined, List.intercalate_singleton]
    | cons u ws =>
      rw [joined, List.intercalate_cons_cons, ← joined, List.length_append, List.length_append]
      rcases List.mem_cons.1 hw with rfl | hw
      · omega
      · have := ih hw
        omega

/-- An operand is shorter than the text. -/
theorem length_operand {children : List ConditionNode} {c : ConditionNode} (hc : c ∈ children) (op : List Char) :
    c.print.length + 2 ≤ (joined op (printAll children)).length := by
  have hmem : wrap c.print ∈ printAll children := by
    rw [printAll_eq]
    exact List.mem_map_of_mem hc
  have hle := length_le_joined hmem op
  rwa [wrap, List.length_cons, List.length_append, List.length_singleton] at hle

/-- A conjunction or a disjunction has operands in front of the last one. -/
theorem exists_operands {children : List ConditionNode} (hlen : 2 ≤ children.length) :
    ∃ ws w, printAll children = ws ++ [w] ∧ ws ≠ [] := by
  rw [← List.length_map (fun c => wrap c.print), ← printAll_eq] at hlen
  obtain ⟨ws, w, hw⟩ := (List.eq_nil_or_concat (printAll children)).resolve_left fun h => by simp [h] at hlen
  rw [List.concat_eq_append] at hw
  refine ⟨ws, w, hw, fun h => ?_⟩
  simp [hw, h] at hlen

theorem parseFrom_print_and {children : List ConditionNode} {fuel : ℕ} (hlen : 2 ≤ children.length)
    (h : ∀ c ∈ children, Printable c) (ih : ∀ c ∈ children, parseFrom lib fuel c.print = .ok c.starred) :
    parseFrom lib (fuel + 2) (joined ['a', 'n', 'd'] (printAll children)) = .ok (.and (starredAll children)) := by
  obtain ⟨ws, w, hws, hne⟩ := exists_operands hlen
  have hwrapped := wrapped_printAll h
  have hmap := mapM_operands h ih
  rw [hws] at hwrapped hmap ⊢
  have hop : Operand (around ['a', 'n', 'd']) := operand_of (by decide)
  obtain ⟨v, vs, hvs⟩ := List.exists_cons_of_ne_nil (l := ws ++ [w]) (by simp)
  have hor : splitTopLevel lib (joined ['a', 'n', 'd'] (ws ++ [w])) " or " = .ok none := by
    rw [hvs] at hwrapped ⊢
    exact hwrapped.split_other hop (item_word (by decide) (by decide)) (by decide) isOperator_or (toLowercase_or lib)
  have hand := hwrapped.split hne hop (by decide) (toLowercase_and lib)
  rw [parseFrom_and (unmarked_joined hwrapped) hor hand, hmap]
  rfl

theorem parseFrom_print_or {children : List ConditionNode} {fuel : ℕ} (hlen : 2 ≤ children.length)
    (h : ∀ c ∈ children, Printable c) (ih : ∀ c ∈ children, parseFrom lib fuel c.print = .ok c.starred) :
    parseFrom lib (fuel + 2) (joined ['o', 'r'] (printAll children)) = .ok (.or (starredAll children)) := by
  obtain ⟨ws, w, hws, hne⟩ := exists_operands hlen
  have hwrapped := wrapped_printAll h
  have hmap := mapM_operands h ih
  rw [hws] at hwrapped hmap ⊢
  have hor := hwrapped.split hne (operand_of (by decide)) (by decide) (toLowercase_or lib)
  rw [parseFrom_or (unmarked_joined hwrapped) hor, hmap]
  rfl

theorem parseFrom_negation {s : List Char} (h : Operand s) (fuel : ℕ) :
    parseFrom lib (fuel + 3) (negation s) = .not <$> parseFrom lib fuel s := by
  have hinner : Operand ("not ".toList ++ wrap s) := (operand_of (by decide)).append h.wrap
  have htrim : Text.trim ("not".toList ++ ' ' :: wrap s) = "not".toList ++ ' ' :: wrap s := by
    have htext : "not".toList ++ ' ' :: wrap s = 'n' :: (['o', 't', ' ', '('] ++ s ++ [')']) := by simp [wrap]
    rw [htext, trim_between (by decide) (by decide)]
  rw [negation, parseFrom_wrap hinner]
  refine (parseFrom_not (Or.inl rfl) htrim).trans ?_
  rw [parseFrom_wrap h]

theorem parseFrom_oneOfText {pattern : String} (h : PlainName pattern) (fuel : ℕ) :
    parseFrom lib (fuel + 2) (oneOfText pattern) = .ok (.oneOf (String.ofList (pattern.toList ++ ['*']))) := by
  have hpattern : Operand (pattern.toList ++ ['*']) := h.operand.append (operand_of (by decide))
  rw [oneOfText, parseFrom_wrap ((operand_of (by decide)).append hpattern.wrap)]
  refine parseFrom_oneOf _ ?_
  have htext (p : List Char) :
      "1 of ".toList ++ '(' :: (p ++ [')']) = '1' :: ([' ', 'o', 'f', ' ', '('] ++ p ++ [')']) := by
    simp
  rw [htext, trim_between (by decide) (by decide)]

theorem parseFrom_allOfText {pattern : String} (h : PlainName pattern) (fuel : ℕ) :
    parseFrom lib (fuel + 2) (allOfText pattern) = .ok (.allOf (String.ofList (pattern.toList ++ ['*']))) := by
  have hpattern : Operand (pattern.toList ++ ['*']) := h.operand.append (operand_of (by decide))
  rw [allOfText, parseFrom_wrap ((operand_of (by decide)).append hpattern.wrap)]
  refine parseFrom_allOf _ ?_
  have htext (p : List Char) :
      "all of ".toList ++ '(' :: (p ++ [')']) = 'a' :: (['l', 'l', ' ', 'o', 'f', ' ', '('] ++ p ++ [')']) := by
    simp
  rw [htext, trim_between (by decide) (by decide)]

theorem parseFrom_keywordsText (fuel : ℕ) : parseFrom lib (fuel + 1) keywordsText = .ok .keywords := by
  have hascii : IsAscii keywordsText := by decide
  have hspace : ' ' ∉ keywordsText := by decide
  have hflat : Flat keywordsText := by decide
  have htrim : Text.trim keywordsText = keywordsText :=
    trim_between (a := 'k') (b := 's') (by decide) (by decide) ['e', 'y', 'w', 'o', 'r', 'd']
  rw [parseFrom_name hascii hspace hflat htrim]
  exact congrArg _ (if_pos rfl)

/-- **The text of a condition is read back.** -/
theorem parseFrom_print {n : ConditionNode} (h : Printable n) {fuel : ℕ} (hfuel : n.print.length < fuel) :
    parseFrom lib fuel n.print = .ok n.starred := by
  induction h generalizing fuel with
  | @selection name h hkeywords htrim =>
    obtain ⟨fuel, rfl⟩ : ∃ f, fuel = f + 1 := ⟨fuel - 1, by omega⟩
    have hne : name.toList ≠ "keywords".toList := fun heq => hkeywords (String.toList_inj.1 heq)
    rw [print, starred, parseFrom_name h.1 h.2.1 h.2.2 htrim, if_neg hne, String.ofList_toList]
  | keywords =>
    obtain ⟨fuel, rfl⟩ : ∃ f, fuel = f + 1 := ⟨fuel - 1, by omega⟩
    rw [print, starred, parseFrom_keywordsText]
  | @not inner h ih =>
    rw [print, negation, wrap, wrap] at hfuel
    simp only [List.length_cons, List.length_append] at hfuel
    obtain ⟨fuel, rfl⟩ : ∃ f, fuel = f + 3 := ⟨fuel - 3, by omega⟩
    rw [print, starred, parseFrom_negation (operand_print h), ih (by omega)]
    rfl
  | @and children hlen h ih =>
    rw [print] at hfuel
    obtain ⟨c, hc⟩ := List.exists_mem_of_length_pos (l := children) (by omega)
    have hle := length_operand hc ['a', 'n', 'd']
    obtain ⟨fuel, rfl⟩ : ∃ f, fuel = f + 2 := ⟨fuel - 2, by omega⟩
    rw [print, starred, parseFrom_print_and hlen h fun d hd => ih d hd ?_]
    have := length_operand hd ['a', 'n', 'd']
    omega
  | @or children hlen h ih =>
    rw [print] at hfuel
    obtain ⟨c, hc⟩ := List.exists_mem_of_length_pos (l := children) (by omega)
    have hle := length_operand hc ['o', 'r']
    obtain ⟨fuel, rfl⟩ : ∃ f, fuel = f + 2 := ⟨fuel - 2, by omega⟩
    rw [print, starred, parseFrom_print_or hlen h fun d hd => ih d hd ?_]
    have := length_operand hd ['o', 'r']
    omega
  | @oneOf pattern h =>
    rw [print, oneOfText, wrap] at hfuel
    obtain ⟨fuel, rfl⟩ : ∃ f, fuel = f + 2 := ⟨fuel - 2, by simp at hfuel; omega⟩
    rw [print, starred, parseFrom_oneOfText h]
  | @allOf pattern h =>
    rw [print, allOfText, wrap] at hfuel
    obtain ⟨fuel, rfl⟩ : ∃ f, fuel = f + 2 := ⟨fuel - 2, by simp at hfuel; omega⟩
    rw [print, starred, parseFrom_allOfText h]

theorem byteLength_print {n : ConditionNode} (h : Printable n) : Text.byteLength n.print = n.print.length :=
  byteLength_ascii (operand_print h).ascii

/-- **A printed condition is read back with the same truth value.** -/
theorem print_roundtrip (lib : Libraries) {n : ConditionNode} (h : Printable n) :
    ∃ m, parseCondition lib (String.ofList n.print) = .ok m ∧ (∀ a : Assignment, m.eval a = n.eval a) ∧
      ∀ (rule : CompiledSigmaRule) (text : String), rule.evalCondition text m = rule.evalCondition text n := by
  have hread : parseCondition lib (String.ofList n.print) = .ok n.starred := by
    rw [parseCondition, String.toList_ofList]
    apply parseFrom_print h
    rw [byteLength_print h]
    omega
  refine ⟨n.starred, hread, fun a => eval_starred a n, fun rule text => ?_⟩
  rw [evalCondition_eq, evalCondition_eq, eval_starred]

/-- A negation of a conjunction of the keywords, a quantifier and a name that is an operator. -/
def nested : ConditionNode :=
  .or [.oneOf "b", .not (.and [.keywords, .allOf "c*", .selection "or"])]

theorem printable_nested : Printable nested := by
  have hor : Printable (.selection "or") := .selection (by decide) (by decide) (by decide)
  have hand : Printable (.and [.keywords, .allOf "c*", .selection "or"]) := by
    refine .and (by decide) fun c hc => ?_
    simp only [List.mem_cons, List.not_mem_nil, or_false] at hc
    rcases hc with rfl | rfl | rfl
    · exact .keywords
    · exact .allOf (by decide)
    · exact hor
  refine .or (by decide) fun c hc => ?_
  simp only [List.mem_cons, List.not_mem_nil, or_false] at hc
  rcases hc with rfl | rfl
  · exact .oneOf (by decide)
  · exact .not hand

theorem print_roundtrip_nested :
    ∃ m, parseCondition asciiLibraries (String.ofList nested.print) = .ok m ∧
      (∀ a : Assignment, m.eval a = nested.eval a) ∧
      ∀ (rule : CompiledSigmaRule) (text : String), rule.evalCondition text m = rule.evalCondition text nested :=
  print_roundtrip asciiLibraries printable_nested

/-- A tab is no space, and it is trimmed. -/
theorem tab_not_read_back :
    PlainName "\t" ∧ "\t" ≠ "keywords" ∧
      ¬ ∃ m, parseCondition asciiLibraries (String.ofList (ConditionNode.selection "\t").print) = .ok m ∧
        ∀ a : Assignment, m.eval a = (ConditionNode.selection "\t").eval a := by
  refine ⟨by decide, by decide, ?_⟩
  rintro ⟨m, hm, heval⟩
  have hread : parseCondition asciiLibraries (String.ofList (ConditionNode.selection "\t").print) =
      .ok (.selection "") := rfl
  rw [hread, Except.ok.injEq] at hm
  have h := heval { names := [], value := fun name => name == "", keywords := false }
  rw [← hm] at h
  exact absurd h (by decide)

end ThorFirewall.Sigma
