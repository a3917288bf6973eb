import Mathlib
import ThorFirewall.Detection.SigmaConditions
import ThorFirewall.Detection.TieredSigma

/-!
# Conditions without parentheses

A condition without parentheses is a disjunction of conjunctions of selections and quantifiers, each with negations in
front of it. The parser looks for a negation before it splits, so that a negation in front of a conjunction takes all
of it, and it knows quantifiers only with parentheses.

- `splitTopLevel_segments`: words are split at an operator;
- `Readable.reads`: the negations in front of a condition take all of it;
- `precedence_iff`: the conditions that the parser reads as they are meant.
-/

namespace ThorFirewall.Sigma

open Utf8

/-! ## Conditions -/

/-- A word without white space and parentheses. -/
structure Word where
  text : List Char
  ne_nil : text ≠ []
  clean : ∀ c ∈ text, Text.isWhitespace c = false ∧ c ≠ '(' ∧ c ≠ ')'

/-- A word that is no operator. -/
structure Name extends Word where
  no_operator : lower text ∉ [['a', 'n', 'd'], ['o', 'r'], ['n', 'o', 't']]

/-- An operator in any case. -/
structure Operator (kw : List Char) where
  text : List Char
  spells : lower text = kw

inductive Base
  | name (n : Name)
  | oneOf (stem : Word)
  | allOf (stem : Word)

structure Factor where
  nots : List (Operator ['n', 'o', 't'])
  base : Base

structure Group where
  first : Factor
  rest : List (Operator ['a', 'n', 'd'] × Factor)

structure Condition where
  first : Group
  rest : List (Operator ['o', 'r'] × Group)

def Base.words : Base → List (List Char)
  | .name n => [n.text]
  | .oneOf stem => [['1'], ['o', 'f'], stem.text ++ ['*']]
  | .allOf stem => [['a', 'l', 'l'], ['o', 'f'], stem.text ++ ['*']]

def Factor.words (f : Factor) : List (List Char) := f.nots.map Operator.text ++ f.base.words

def Group.words (g : Group) : List (List Char) := g.first.words ++ g.rest.flatMap fun r => r.1.text :: r.2.words

def Condition.words (c : Condition) : List (List Char) := c.first.words ++ c.rest.flatMap fun r => r.1.text :: r.2.words

/-- The text of a condition, with single spaces. -/
def Condition.text (c : Condition) : String := String.ofList (spaced c.words)

/-! ## What conditions mean -/

/-- The selections whose name begins with a stem. -/
def Assignment.beginning (a : Assignment) (stem : Word) : List String :=
  a.names.filter fun k => stem.text.isPrefixOf k.toList

def Base.eval (a : Assignment) : Base → Bool
  | .name n => if n.text = "keywords".toList then a.keywords else a.value (String.ofList n.text)
  | .oneOf stem => (a.beginning stem).any a.value
  | .allOf stem => (a.beginning stem).all a.value

/-- Negated as often as there are negations. -/
def negated {α : Type*} (nots : List α) (b : Bool) : Bool := nots.foldr (fun _ b => !b) b

def Factor.eval (a : Assignment) (f : Factor) : Bool := negated f.nots (f.base.eval a)

def Group.eval (a : Assignment) (g : Group) : Bool := g.first.eval a && g.rest.all fun r => r.2.eval a

def Condition.eval (a : Assignment) (c : Condition) : Bool := c.first.eval a || c.rest.any fun r => r.2.eval a

/-! ## Words -/

def Clean (w : List Char) : Prop := w ≠ [] ∧ ∀ c ∈ w, Text.isWhitespace c = false ∧ c ≠ '(' ∧ c ≠ ')'

theorem Clean.not_mem {w : List Char} (h : Clean w) : ∀ c ∈ [' ', '(', ')'], c ∉ w := by
  intro c hc hmem
  obtain ⟨hspace, hopen, hclose⟩ := h.2 c hmem
  simp only [List.mem_cons, List.not_mem_nil, or_false] at hc
  rcases hc with rfl | rfl | rfl
  · cases hspace
  · exact hopen rfl
  · exact hclose rfl

/-- A text without spaces and parentheses is an item. -/
theorem item_of_not_mem {w : List Char} (h : ∀ c ∈ [' ', '(', ')'], c ∉ w) : Item w :=
  .word fun _ hc => ⟨fun heq => h ' ' (by decide) (heq ▸ hc), fun heq => h '(' (by decide) (heq ▸ hc),
    fun heq => h ')' (by decide) (heq ▸ hc)⟩

theorem Clean.item {w : List Char} (h : Clean w) : Item w := item_of_not_mem h.not_mem

/-- All words but the last are ASCII. -/
def AsciiInit (ws : List (List Char)) : Prop := ∀ w ∈ ws.dropLast, IsAscii w

theorem asciiInit_append {ws vs : List (List Char)} (hvs : vs ≠ []) :
    AsciiInit (ws ++ vs) ↔ (∀ w ∈ ws, IsAscii w) ∧ AsciiInit vs := by
  rw [AsciiInit, List.dropLast_append_of_ne_nil hvs, List.forall_mem_append, AsciiInit]

/-- The library lower-cases ASCII letters in front of other characters, and makes no spaces or parentheses. -/
def LowersTail (lib : Libraries) : Prop :=
  ∀ s t : List Char, IsAscii s → ∃ t', (lib.toLowercase (String.ofList (s ++ t))).toList = lower s ++ t' ∧
    ∀ c ∈ [' ', '(', ')'], c ∈ t' → c ∈ t

theorem isAscii_spaced {ws : List (List Char)} (h : ∀ w ∈ ws, IsAscii w) : IsAscii (spaced ws) := by
  cases ws with
  | nil => exact fun c hc => by cases hc
  | cons w ws =>
    obtain ⟨hw, hws⟩ := List.forall_mem_cons.1 h
    rw [spaced_cons, isAscii_append]
    refine ⟨hw, fun c hc => ?_⟩
    obtain ⟨v, hv, hc⟩ := List.mem_flatMap.1 hc
    rcases List.mem_cons.1 hc with rfl | hc
    · decide
    · exact hws v hv c hc

theorem not_mem_spaced {c : Char} {ws : List (List Char)} (hc : c ≠ ' ') (h : ∀ w ∈ ws, c ∉ w) : c ∉ spaced ws := by
  cases ws with
  | nil => exact List.not_mem_nil
  | cons w ws =>
    obtain ⟨hw, hws⟩ := List.forall_mem_cons.1 h
    rw [spaced_cons, List.mem_append, not_or]
    refine ⟨hw, fun hmem => ?_⟩
    obtain ⟨v, hv, hmem⟩ := List.mem_flatMap.1 hmem
    exact (List.mem_cons.1 hmem).elim hc (hws v hv)

theorem isAscii_around {o : List Char} (ho : IsAscii o) : IsAscii (around o) := by
  have hspace : IsAscii [' '] := by decide
  exact isAscii_append.2 ⟨hspace, isAscii_append.2 ⟨ho, hspace⟩⟩

theorem spaced_append {ws vs : List (List Char)} (hws : ws ≠ []) (hvs : vs ≠ []) :
    spaced (ws ++ vs) = spaced ws ++ ' ' :: spaced vs := by
  obtain ⟨w, ws, rfl⟩ := List.exists_cons_of_ne_nil hws
  obtain ⟨v, vs, rfl⟩ := List.exists_cons_of_ne_nil hvs
  rw [List.cons_append, spaced_cons, spaced_cons, spaced_cons]
  simp

/-- Words are not trimmed. -/
theorem trim_spaced {ws : List (List Char)} (hne : ws ≠ []) (hclean : ∀ w ∈ ws, Clean w) :
    Text.trim (spaced ws) = spaced ws := by
  refine TextSearch.trim_self (fun c hc => ?_) fun c hc => ?_
  · obtain ⟨w, vs, rfl⟩ := List.exists_cons_of_ne_nil hne
    obtain ⟨hw, hchars⟩ := hclean w List.mem_cons_self
    rw [spaced_cons, List.head?_append_of_ne_nil _ hw] at hc
    exact (hchars c (List.mem_of_mem_head? hc)).1
  · obtain ⟨init, b, rfl⟩ : ∃ init b, ws = init ++ [b] := ⟨_, _, (List.dropLast_append_getLast hne).symm⟩
    obtain ⟨hb, hchars⟩ := hclean b (by simp)
    have hlast : (spaced (init ++ [b])).getLast? = b.getLast? := by
      by_cases hnil : init = []
      · rw [hnil, List.nil_append, spaced, List.intercalate_singleton]
      · have hsingle : spaced [b] = b := by rw [spaced, List.intercalate_singleton]
        rw [spaced_append hnil (by simp), hsingle, ← List.singleton_append, ← List.append_assoc,
          List.getLast?_append_of_ne_nil _ hb]
    rw [hlast] at hc
    exact (hchars c (List.mem_of_getLast? hc)).1

variable {lib : Libraries} {kw : List Char} {ws : List (List Char)}

theorem passes_lower_spaced (rest : List Char) (hkw : IsOperator kw) (hne : ws ≠ []) (hclean : ∀ w ∈ ws, Clean w)
    (hnot : ∀ w ∈ ws, lower w ≠ kw) (hrest : rest = [] ∨ rest.head? = some ' ') :
    Passes (around kw) rest (lower (spaced ws)) := by
  obtain ⟨w, vs, rfl⟩ := List.exists_cons_of_ne_nil hne
  rw [lower_spaced, List.map_cons]
  refine passes_spaced hkw hrest (hclean w List.mem_cons_self).item.lower (List.forall_mem_map.2 fun v hv => ?_)
  exact ⟨(hclean v (List.mem_cons_of_mem _ hv)).item.lower, hnot v (List.mem_cons_of_mem _ hv)⟩

/-- In lower case, words that are not the operator have no separator. -/
theorem exists_lower_spaced (hlib : LowersTail lib) {s : List Char} (hs : IsAscii s) (hne : ws ≠ [])
    (hclean : ∀ w ∈ ws, Clean w) (hascii : AsciiInit ws) :
    ∃ l, (lib.toLowercase (String.ofList (s ++ spaced ws))).toList = lower s ++ l ∧
      ∀ kw, IsOperator kw → (∀ w ∈ ws, lower w ≠ kw) → Passes (around kw) [] l := by
  obtain ⟨init, b, rfl⟩ : ∃ init b, ws = init ++ [b] := ⟨_, _, (List.dropLast_append_getLast hne).symm⟩
  have hb : Clean b := hclean b (by simp)
  have hinit : ∀ w ∈ init, IsAscii w := (asciiInit_append (by simp)).1 hascii |>.1
  have hword {t : List Char} (ht : ∀ c ∈ [' ', '(', ')'], c ∈ t → c ∈ b) : ∀ c ∈ [' ', '(', ')'], c ∉ t :=
    fun c hc hmem => hb.not_mem c hc (ht c hc hmem)
  by_cases hnil : init = []
  · subst hnil
    obtain ⟨t, ht, hchars⟩ := hlib s b hs
    refine ⟨t, ?_, fun kw _ _ => (item_of_not_mem (hword hchars)).passes kw []⟩
    rw [List.nil_append, spaced, List.intercalate_singleton, ht]
  · have hfront : IsAscii (s ++ (spaced init ++ [' '])) :=
      isAscii_append.2 ⟨hs, isAscii_append.2 ⟨isAscii_spaced hinit, by decide⟩⟩
    obtain ⟨t, ht, hchars⟩ := hlib _ b hfront
    refine ⟨lower (spaced init) ++ ([' '] ++ t), ?_, fun kw hkw hnot => ?_⟩
    · have htext : s ++ spaced (init ++ [b]) = s ++ (spaced init ++ [' ']) ++ b := by
        rw [spaced_append hnil (by simp)]
        simp [spaced]
      rw [htext, ht]
      simp [lower]
    · -- the last word has no space behind it
      have hspace : ¬ around kw <+: ' ' :: (t ++ []) := fun hp => by
        have hmem : ' ' ∈ t ++ [] := (List.cons_prefix_cons.1 hp).2.subset (by simp)
        rw [List.append_nil] at hmem
        exact hword hchars ' ' (by decide) hmem
      have hlast : Passes (around kw) [] ([' '] ++ t) :=
        (passes_singleton (by decide) hspace).append ((item_of_not_mem (hword hchars)).passes kw [])
      have hpass := passes_lower_spaced ([' '] ++ t) hkw hnil
        (fun v hv => hclean v (List.mem_append_left _ hv)) (fun v hv => hnot v (List.mem_append_left _ hv)) (Or.inr rfl)
      rw [← List.append_nil ([' '] ++ t)] at hpass
      exact hpass.append hlast

/-! ## Splitting at an operator -/

/-- Words, and more words behind operators. -/
def segmentWords (ws : List (List Char)) (rest : List (List Char × List (List Char))) : List (List Char) :=
  ws ++ rest.flatMap fun r => r.1 :: r.2

/-- The parts of the text, each with the operator behind it. -/
def cuts : List (List Char) → List (List Char × List (List Char)) → List (List Char × List Char)
  | _, [] => []
  | ws, (o, vs) :: rest => (spaced ws, around o) :: cuts vs rest

/-- The words behind the last operator. -/
def lastWords : List (List Char) → List (List Char × List (List Char)) → List (List Char)
  | ws, [] => ws
  | _, (_, vs) :: rest => lastWords vs rest

theorem spaced_segmentWords {ws : List (List Char)} {rest : List (List Char × List (List Char))} (hws : ws ≠ [])
    (hrest : ∀ r ∈ rest, r.2 ≠ []) :
    spaced (segmentWords ws rest) = cutText (cuts ws rest) ++ spaced (lastWords ws rest) := by
  induction rest generalizing ws with
  | nil => simp [segmentWords, cuts, lastWords, cutText]
  | cons r rest ih =>
    obtain ⟨o, vs⟩ := r
    obtain ⟨hvs, hrest⟩ := List.forall_mem_cons.1 hrest
    have hwords : segmentWords ws ((o, vs) :: rest) = ws ++ ([o] ++ segmentWords vs rest) := by simp [segmentWords]
    have hne : segmentWords vs rest ≠ [] := by simp [segmentWords, hvs]
    rw [hwords, spaced_append hws (by simp), spaced_append (by simp) hne, ih hvs hrest]
    simp [cuts, lastWords, cutText, around, spaced]

theorem map_cuts (ws : List (List Char)) (rest : List (List Char × List (List Char))) :
    (cuts ws rest).map Prod.fst ++ [spaced (lastWords ws rest)] = spaced ws :: rest.map fun r => spaced r.2 := by
  induction rest generalizing ws with
  | nil => rfl
  | cons r rest ih => rw [cuts, lastWords, List.map_cons, List.cons_append, ih, List.map_cons]

/-- Words that are not the operator, with the operator between them, all but the last ASCII. -/
structure Segments (kw : List Char) (ws : List (List Char)) (rest : List (List Char × List (List Char))) : Prop where
  words : ∀ vs ∈ ws :: rest.map Prod.snd, vs ≠ [] ∧ ∀ w ∈ vs, Clean w ∧ lower w ≠ kw
  operators : ∀ r ∈ rest, lower r.1 = kw
  ascii : AsciiInit (segmentWords ws rest)

namespace Segments

variable {rest : List (List Char × List (List Char))}

theorem ne_nil (h : Segments kw ws rest) : ws ≠ [] := (h.words ws List.mem_cons_self).1

theorem clean (h : Segments kw ws rest) : ∀ w ∈ ws, Clean w := fun w hw =>
  ((h.words ws List.mem_cons_self).2 w hw).1

theorem lower_ne (h : Segments kw ws rest) : ∀ w ∈ ws, lower w ≠ kw := fun w hw =>
  ((h.words ws List.mem_cons_self).2 w hw).2

theorem tail {o : List Char} {vs : List (List Char)} (h : Segments kw ws ((o, vs) :: rest)) :
    (∀ w ∈ ws, IsAscii w) ∧ IsAscii o ∧ Segments kw vs rest := by
  have hvs : vs ≠ [] := (h.words vs (by simp)).1
  have hwords : segmentWords ws ((o, vs) :: rest) = ws ++ ([o] ++ segmentWords vs rest) := by simp [segmentWords]
  have hne : segmentWords vs rest ≠ [] := by simp [segmentWords, hvs]
  have hascii := h.ascii
  rw [hwords, asciiInit_append (by simp), asciiInit_append hne] at hascii
  obtain ⟨hws, ho, hinit⟩ := hascii
  exact ⟨hws, ho o List.mem_cons_self, fun us hus => h.words us (List.mem_cons_of_mem _ hus),
    fun r hr => h.operators r (List.mem_cons_of_mem _ hr), hinit⟩

theorem cut (hkw : IsOperator kw) (h : Segments kw ws rest) : Cut kw (cuts ws rest) := by
  induction rest generalizing ws with
  | nil => exact fun r hr => by cases hr
  | cons r rest ih =>
    obtain ⟨o, vs⟩ := r
    obtain ⟨hws, ho, htail⟩ := h.tail
    refine List.forall_mem_cons.2 ⟨⟨isAscii_spaced hws, ?_, ?_, fun rest hrest => ?_⟩, ih htail⟩
    · exact isAscii_around ho
    · have hop : lower o = kw := h.operators _ List.mem_cons_self
      rw [← hop]
      simp [around, lower]
    · exact passes_lower_spaced rest hkw h.ne_nil h.clean h.lower_ne (Or.inr hrest)

theorem last (h : Segments kw ws rest) : Segments kw (lastWords ws rest) [] := by
  induction rest generalizing ws with
  | nil => exact h
  | cons r rest ih => exact ih h.tail.2.2

end Segments

/-- Words are split at an operator. -/
theorem splitTopLevel_segments (hlib : LowersTail lib) {sep : String} {rest : List (List Char × List (List Char))}
    (hkw : IsOperator kw) (hsep : (lib.toLowercase sep).toList = around kw) (h : Segments kw ws rest) :
    splitTopLevel lib (spaced (segmentWords ws rest)) sep =
      .ok (if rest = [] then none else some (spaced ws :: rest.map fun r => spaced r.2)) := by
  have hcut := h.cut hkw
  have hlast := h.last
  have hne : ∀ r ∈ rest, r.2 ≠ [] := fun r hr => (h.words r.2 (List.mem_cons_of_mem _ (List.mem_map_of_mem hr))).1
  have hfront : IsAscii (cutText (cuts ws rest)) := by
    intro c hc
    obtain ⟨r, hr, hc⟩ := List.mem_flatMap.1 hc
    obtain ⟨hpart, hop, -⟩ := hcut r hr
    exact (List.mem_append.1 hc).elim (hpart c) (hop c)
  have hinit : AsciiInit (lastWords ws rest) := by simpa [segmentWords] using hlast.ascii
  obtain ⟨l, hlower, hpass⟩ := exists_lower_spaced hlib hfront hlast.ne_nil hlast.clean hinit
  have htrim : (spaced ws :: rest.map fun r => spaced r.2).map Text.trim =
      spaced ws :: rest.map fun r => spaced r.2 := by
    rw [List.map_cons, List.map_map, trim_spaced h.ne_nil h.clean]
    congr 1
    refine List.map_congr_left fun r hr => trim_spaced (hne r hr) fun w hw => ?_
    exact ((h.words r.2 (List.mem_cons_of_mem _ (List.mem_map_of_mem hr))).2 w hw).1
  rw [spaced_segmentWords h.ne_nil hne, splitTopLevel_parts hsep hcut (hpass kw hkw hlast.lower_ne) hlower, map_cuts,
    htrim]
  cases rest <;> rfl

theorem length_part {cs : List (List Char × List Char)} {p : List Char} (hcs : ∀ r ∈ cs, r.2 ≠ []) (hne : cs ≠ []) :
    ∀ q ∈ cs.map Prod.fst ++ [p], q.length < (cutText cs ++ p).length := by
  induction cs with
  | nil => exact absurd rfl hne
  | cons r cs ih =>
    obtain ⟨hr, hcs⟩ := List.forall_mem_cons.1 hcs
    have hpos := List.length_pos_iff.2 hr
    have hlen : (cutText (r :: cs) ++ p).length = r.1.length + r.2.length + (cutText cs ++ p).length := by
      simp [cutText, Nat.add_assoc]
    intro q hq
    rw [hlen]
    rcases List.mem_cons.1 hq with rfl | hq
    · omega
    · by_cases hnil : cs = []
      · subst hnil
        have hqp : q = p := by simpa using hq
        rw [hqp, List.length_append]
        omega
      · have := ih hcs hnil q hq
        omega

/-- Each part is shorter than the text. -/
theorem Segments.length_lt {rest : List (List Char × List (List Char))} (h : Segments kw ws rest) (hrest : rest ≠ []) :
    ∀ q ∈ spaced ws :: rest.map (fun r => spaced r.2), q.length < (spaced (segmentWords ws rest)).length := by
  have hne : ∀ r ∈ rest, r.2 ≠ [] := fun r hr => (h.words r.2 (List.mem_cons_of_mem _ (List.mem_map_of_mem hr))).1
  have hops : ∀ (ws : List (List Char)) (rest : List (List Char × List (List Char))), ∀ r ∈ cuts ws rest, r.2 ≠ [] := by
    intro ws rest
    induction rest generalizing ws with
    | nil => exact fun r hr => by cases hr
    | cons r rest ih => exact List.forall_mem_cons.2 ⟨List.cons_ne_nil _ _, ih r.2⟩
  have hcuts : cuts ws rest ≠ [] := by
    cases rest with
    | nil => exact absurd rfl hrest
    | cons r rest => exact List.cons_ne_nil _ _
  rw [spaced_segmentWords h.ne_nil hne, ← map_cuts]
  exact length_part (hops ws rest) hcuts

/-- Each part but the last is ASCII. -/
theorem Segments.asciiInit {rest : List (List Char × List (List Char))} (h : Segments kw ws rest) :
    ∀ vs ∈ ws :: rest.map Prod.snd, AsciiInit vs := by
  induction rest generalizing ws with
  | nil =>
    intro vs hvs
    rw [List.map_nil, List.mem_singleton] at hvs
    simpa [hvs, segmentWords] using h.ascii
  | cons r rest ih =>
    obtain ⟨hws, -, htail⟩ := h.tail
    exact List.forall_mem_cons.2 ⟨fun w hw => hws w (List.mem_of_mem_dropLast hw), ih htail⟩

/-! ## Reading -/

/-- The text is read as a condition with this meaning. -/
def Reads (lib : Libraries) (s : List Char) (v : Assignment → Bool) : Prop :=
  ∃ n, (∀ fuel, s.length < fuel → parseFrom lib fuel s = .ok n) ∧ ∀ a, n.eval a = v a

/-- The parts are read one by one. -/
theorem reads_parts {parts : List (List Char × (Assignment → Bool))} (h : ∀ r ∈ parts, Reads lib r.1 r.2) :
    ∃ ns, (∀ fuel, (∀ r ∈ parts, r.1.length < fuel) →
        (parts.map Prod.fst).mapM (parseFrom lib fuel) = .ok ns) ∧
      ∀ a, ConditionNode.evalAll a ns = parts.all (fun r => r.2 a) ∧
        ConditionNode.evalAny a ns = parts.any fun r => r.2 a := by
  induction parts with
  | nil => exact ⟨[], fun _ _ => rfl, fun a => ⟨rfl, rfl⟩⟩
  | cons r parts ih =>
    obtain ⟨⟨n, hn, heval⟩, hparts⟩ := List.forall_mem_cons.1 h
    obtain ⟨ns, hns, hevals⟩ := ih hparts
    refine ⟨n :: ns, fun fuel hfuel => ?_, fun a => ?_⟩
    · obtain ⟨hr, hrest⟩ := List.forall_mem_cons.1 hfuel
      rw [List.map_cons, List.mapM_cons, hn fuel hr, hns fuel hrest]
      rfl
    · rw [ConditionNode.evalAll, ConditionNode.evalAny, heval, (hevals a).1, (hevals a).2]
      exact ⟨rfl, rfl⟩

/-- A negation that the parser knows takes what stands behind it. -/
theorem reads_not {w : List Char} {v : Assignment → Bool} (hw : w = "not".toList ∨ w = "NOT".toList) (hne : ws ≠ [])
    (hclean : ∀ u ∈ w :: ws, Clean u) (h : Reads lib (spaced ws) v) :
    Reads lib (spaced (w :: ws)) fun a => !v a := by
  obtain ⟨n, hn, heval⟩ := h
  have htext : spaced (w :: ws) = w ++ ' ' :: spaced ws := by
    rw [← List.singleton_append, spaced_append (by simp) hne, spaced, List.intercalate_singleton]
  have htrim := trim_spaced (List.cons_ne_nil w ws) hclean
  refine ⟨.not n, fun fuel hfuel => ?_, fun a => by rw [ConditionNode.eval, heval]⟩
  rw [htext] at htrim hfuel ⊢
  rw [List.length_append, List.length_cons] at hfuel
  obtain ⟨fuel, rfl⟩ : ∃ f, fuel = f + 1 := ⟨fuel - 1, by omega⟩
  rw [parseFrom_not hw htrim, hn fuel (by omega)]
  rfl

theorem reads_nots {nots : List (List Char)} {v : Assignment → Bool}
    (hnots : ∀ w ∈ nots, w = "not".toList ∨ w = "NOT".toList) (hne : ws ≠ []) (hclean : ∀ w ∈ nots ++ ws, Clean w)
    (h : Reads lib (spaced ws) v) : Reads lib (spaced (nots ++ ws)) fun a => negated nots (v a) := by
  induction nots with
  | nil => exact h
  | cons w nots ih =>
    obtain ⟨hw, hrest⟩ := List.forall_mem_cons.1 hnots
    exact reads_not hw (by simp [hne]) hclean (ih hrest fun u hu => hclean u (List.mem_cons_of_mem _ hu))

/-- A text of words that begins with no negation. -/
theorem unmarked_spaced {w : List Char} (hclean : ∀ u ∈ w :: ws, Clean u) (hw : lower w ≠ ['n', 'o', 't']) :
    Unmarked (spaced (w :: ws)) := by
  have hopen : '(' ∉ spaced (w :: ws) := not_mem_spaced (by decide) fun u hu => (hclean u hu).not_mem '(' (by decide)
  have hnot (kw : List Char) (hkw : IsOperator kw) (hp : kw ++ [' '] <+: spaced (w :: ws)) : w = kw := by
    rw [spaced_cons] at hp
    have htail := head?_spaced_tail ws (Or.inl rfl : ([] : List Char) = [] ∨ _)
    rw [List.append_nil] at htail
    exact (hclean w List.mem_cons_self).item.eq_of_begins hkw htail (List.cons_prefix_cons.2 ⟨rfl, hp⟩)
  refine ⟨trim_spaced (List.cons_ne_nil _ _) hclean, fun b hb hp => ?_⟩
  simp only [beginnings, List.mem_cons, List.not_mem_nil, or_false] at hb
  rcases hb with rfl | rfl | rfl | rfl | rfl | rfl
  · exact hopen (hp.subset (by decide))
  · exact hopen (hp.subset (by decide))
  · exact hopen (hp.subset (by decide))
  · exact hopen (hp.subset (by decide))
  · have := hnot ['n', 'o', 't'] ⟨by decide, 'n', ['o', 't'], rfl, by decide⟩ hp
    exact hw (by rw [this]; rfl)
  · have := hnot ['N', 'O', 'T'] ⟨by decide, 'N', ['O', 'T'], rfl, by decide⟩ hp
    exact hw (by rw [this]; rfl)

section Segments

variable {w : List Char} {ρ : Type} {rs : List ρ} {op : ρ → List Char} {wordsOf : ρ → List (List Char)}
  {v : Assignment → Bool} {val : ρ → Assignment → Bool}

/-- The parts of a text with operators, with their meanings. -/
theorem reads_segments (hv : Reads lib (spaced (w :: ws)) v) (hval : ∀ r ∈ rs, Reads lib (spaced (wordsOf r)) (val r))
    (h : Segments kw (w :: ws) (rs.map fun r => (op r, wordsOf r))) (hrs : rs ≠ []) :
    ∃ ns, (∀ fuel, (spaced (segmentWords (w :: ws) (rs.map fun r => (op r, wordsOf r)))).length < fuel + 1 →
        (spaced (w :: ws) :: (rs.map fun r => (op r, wordsOf r)).map fun r => spaced r.2).mapM (parseFrom lib fuel) =
          .ok ns) ∧
      ∀ a, ConditionNode.evalAll a ns = (v a && rs.all fun r => val r a) ∧
        ConditionNode.evalAny a ns = (v a || rs.any fun r => val r a) := by
  have hparts : ∀ r ∈ (spaced (w :: ws), v) :: rs.map fun r => (spaced (wordsOf r), val r), Reads lib r.1 r.2 :=
    List.forall_mem_cons.2 ⟨hv, List.forall_mem_map.2 hval⟩
  obtain ⟨ns, hns, hevals⟩ := reads_parts hparts
  have hlt := h.length_lt (by simpa using hrs)
  refine ⟨ns, fun fuel hfuel => ?_, fun a => ?_⟩
  · have hfuels : ∀ r ∈ (spaced (w :: ws), v) :: rs.map fun r => (spaced (wordsOf r), val r), r.1.length < fuel := by
      refine List.forall_mem_cons.2 ⟨?_, List.forall_mem_map.2 fun r hr => ?_⟩
      · have := hlt _ List.mem_cons_self
        simp only
        omega
      · have := hlt (spaced (wordsOf r)) (List.mem_cons_of_mem _ (by simpa using ⟨r, hr, rfl⟩))
        simp only
        omega
    have := hns fuel hfuels
    simpa [List.map_map, Function.comp_def] using this
  · obtain ⟨hall, hany⟩ := hevals a
    rw [hall, hany, List.all_cons, List.any_cons, List.all_map, List.any_map]
    exact ⟨rfl, rfl⟩

theorem reads_or (hlib : LowersTail lib) (hv : Reads lib (spaced (w :: ws)) v)
    (hval : ∀ r ∈ rs, Reads lib (spaced (wordsOf r)) (val r)) (hrs : rs ≠ [])
    (h : Segments ['o', 'r'] (w :: ws) (rs.map fun r => (op r, wordsOf r)))
    (hunmarked : Unmarked (spaced (segmentWords (w :: ws) (rs.map fun r => (op r, wordsOf r))))) :
    Reads lib (spaced (segmentWords (w :: ws) (rs.map fun r => (op r, wordsOf r)))) fun a =>
      v a || rs.any fun r => val r a := by
  obtain ⟨ns, hns, hevals⟩ := reads_segments hv hval h hrs
  have hor := splitTopLevel_segments hlib isOperator_or (toLowercase_or lib) h
  rw [if_neg (by simpa using hrs)] at hor
  refine ⟨.or ns, fun fuel hfuel => ?_, fun a => by rw [ConditionNode.eval, (hevals a).2]⟩
  obtain ⟨fuel, rfl⟩ : ∃ f, fuel = f + 1 := ⟨fuel - 1, by omega⟩
  rw [parseFrom_or hunmarked hor, hns fuel hfuel]
  rfl

theorem reads_and (hlib : LowersTail lib) (hv : Reads lib (spaced (w :: ws)) v)
    (hval : ∀ r ∈ rs, Reads lib (spaced (wordsOf r)) (val r)) (hrs : rs ≠ [])
    (h : Segments ['a', 'n', 'd'] (w :: ws) (rs.map fun r => (op r, wordsOf r)))
    (hor : Segments ['o', 'r'] (segmentWords (w :: ws) (rs.map fun r => (op r, wordsOf r))) [])
    (hunmarked : Unmarked (spaced (segmentWords (w :: ws) (rs.map fun r => (op r, wordsOf r))))) :
    Reads lib (spaced (segmentWords (w :: ws) (rs.map fun r => (op r, wordsOf r)))) fun a =>
      v a && rs.all fun r => val r a := by
  obtain ⟨ns, hns, hevals⟩ := reads_segments hv hval h hrs
  have hnone := splitTopLevel_segments hlib isOperator_or (toLowercase_or lib) hor
  have hand := splitTopLevel_segments hlib isOperator_and (toLowercase_and lib) h
  rw [if_neg (by simpa using hrs)] at hand
  refine ⟨.and ns, fun fuel hfuel => ?_, fun a => by rw [ConditionNode.eval, (hevals a).1]⟩
  obtain ⟨fuel, rfl⟩ : ∃ f, fuel = f + 1 := ⟨fuel - 1, by omega⟩
  have hsame : segmentWords (segmentWords (w :: ws) (rs.map fun r => (op r, wordsOf r))) [] =
      segmentWords (w :: ws) (rs.map fun r => (op r, wordsOf r)) := by
    rw [segmentWords, List.flatMap_nil, List.append_nil]
  rw [hsame, if_pos rfl] at hnone
  rw [parseFrom_and hunmarked hnone hand, hns fuel hfuel]
  rfl

end Segments

/-! ## The words of a condition -/

theorem toLower_of_isWhitespace {c : Char} (h : Text.isWhitespace c = true) : c.toLower = c := by
  unfold Char.toLower
  refine dif_neg fun hupper => ?_
  have hle : 65 ≤ c.toNat := UInt32.le_iff_toNat_le.1 hupper.1
  have hge : c.toNat ≤ 90 := UInt32.le_iff_toNat_le.1 hupper.2
  simp only [Text.isWhitespace, Bool.or_eq_true, Bool.and_eq_true, decide_eq_true_eq, beq_iff_eq] at h
  omega

/-- What spells clean letters is clean. -/
theorem clean_of_lower {w : List Char} (h : Clean (lower w)) : Clean w := by
  refine ⟨fun hnil => h.1 (by rw [hnil]; rfl), fun c hc => ?_⟩
  obtain ⟨hspace, hopen, hclose⟩ := h.2 c.toLower (List.mem_map_of_mem hc)
  refine ⟨Bool.eq_false_iff.2 fun hwhite => ?_, fun heq => hopen (by rw [heq]; rfl),
    fun heq => hclose (by rw [heq]; rfl)⟩
  rw [toLower_of_isWhitespace hwhite, hwhite] at hspace
  cases hspace

/-- A factor without quantifiers whose negations are spelled as the parser knows them. -/
def Factor.Plain (f : Factor) : Prop :=
  (∃ n, f.base = .name n) ∧ ∀ w ∈ f.nots, w.text = "not".toList ∨ w.text = "NOT".toList

/-- A word of a conjunction: it is not `or`. -/
structure InGroup (w : List Char) : Prop where
  clean : Clean w
  no_or : lower w ≠ ['o', 'r']

/-- A word of a factor: it is not `and` either. -/
structure InFactor (w : List Char) : Prop extends InGroup w where
  no_and : lower w ≠ ['a', 'n', 'd']

theorem clean_not : Clean ['n', 'o', 't'] := ⟨by decide, by simp [Text.isWhitespace]⟩

theorem clean_and : Clean ['a', 'n', 'd'] := ⟨by decide, by simp [Text.isWhitespace]⟩

theorem clean_or : Clean ['o', 'r'] := ⟨by decide, by simp [Text.isWhitespace]⟩

theorem Name.inFactor (n : Name) : InFactor n.text where
  clean := ⟨n.ne_nil, n.clean⟩
  no_or h := n.no_operator (by rw [h]; decide)
  no_and h := n.no_operator (by rw [h]; decide)

theorem inFactor_not (w : Operator ['n', 'o', 't']) : InFactor w.text where
  clean := clean_of_lower (by rw [w.spells]; exact clean_not)
  no_or h := absurd (w.spells.symm.trans h) (by decide)
  no_and h := absurd (w.spells.symm.trans h) (by decide)

theorem inGroup_and (w : Operator ['a', 'n', 'd']) : InGroup w.text where
  clean := clean_of_lower (by rw [w.spells]; exact clean_and)
  no_or h := absurd (w.spells.symm.trans h) (by decide)

theorem Factor.Plain.inFactor {f : Factor} (h : f.Plain) : ∀ w ∈ f.words, InFactor w := by
  obtain ⟨⟨n, hn⟩, -⟩ := h
  intro w hw
  rw [Factor.words, hn, Base.words, List.mem_append, List.mem_singleton, List.mem_map] at hw
  rcases hw with ⟨o, -, rfl⟩ | rfl
  · exact inFactor_not o
  · exact n.inFactor

/-! ## Reading factors, groups and conditions -/

theorem reads_name (hlib : LowersTail lib) (n : Name) : Reads lib (spaced [n.text]) fun a => (Base.name n).eval a := by
  have hn := n.inFactor
  have hclean : ∀ u ∈ [n.text], Clean u := List.forall_mem_singleton.2 hn.clean
  have hsegments {kw : List Char} (hne : lower n.text ≠ kw) : Segments kw [n.text] [] :=
    ⟨by simpa using ⟨hn.clean, hne⟩, fun r hr => absurd hr List.not_mem_nil, fun w hw => absurd hw List.not_mem_nil⟩
  have hor := splitTopLevel_segments hlib isOperator_or (toLowercase_or lib) (hsegments hn.no_or)
  have hand := splitTopLevel_segments hlib isOperator_and (toLowercase_and lib) (hsegments hn.no_and)
  have hmarked := unmarked_spaced hclean fun h => n.no_operator (by rw [h]; decide)
  have htext : spaced [n.text] = n.text := by rw [spaced, List.intercalate_singleton]
  have hwords : segmentWords [n.text] [] = [n.text] := rfl
  rw [hwords, if_pos rfl, htext] at hor hand
  rw [htext] at hmarked ⊢
  have hhead : n.text.head? ≠ some '(' := fun h => hn.clean.not_mem '(' (by decide) (List.mem_of_mem_head? h)
  refine ⟨if n.text = "keywords".toList then .keywords else .selection (String.ofList n.text), fun fuel hfuel => ?_,
    fun a => ?_⟩
  · obtain ⟨fuel, rfl⟩ : ∃ f, fuel = f + 1 := ⟨fuel - 1, by omega⟩
    exact parseFrom_word hmarked hor hand hhead
  · simp only [Base.eval]
    split_ifs <;> rfl

theorem Factor.Plain.reads (hlib : LowersTail lib) {f : Factor} (h : f.Plain) :
    Reads lib (spaced f.words) fun a => f.eval a := by
  have hclean : ∀ w ∈ f.words, Clean w := fun w hw => (h.inFactor w hw).clean
  obtain ⟨⟨n, hn⟩, hnots⟩ := h
  rw [Factor.words, hn, Base.words] at hclean ⊢
  have hread := reads_nots (List.forall_mem_map.2 hnots) (List.cons_ne_nil _ _) hclean (reads_name hlib n)
  unfold Factor.eval
  rw [hn]
  unfold negated at hread ⊢
  simpa [List.foldr_map] using hread

theorem negated_eq {α : Type*} (nots : List α) (b : Bool) : negated nots b = (decide (Odd nots.length) ^^ b) := by
  induction nots with
  | nil => simp [negated]
  | cons w nots ih =>
    rw [negated, List.foldr_cons, ← negated, ih, List.length_cons, decide_eq_decide.2 Nat.odd_add_one, decide_not,
      Bool.not_xor]

theorem negated_of_even {α : Type*} {nots : List α} (h : Even nots.length) (b : Bool) : negated nots b = b := by
  rw [negated_eq, decide_eq_false (Nat.not_odd_iff_even.2 h), Bool.false_xor]

theorem negated_of_odd {α : Type*} {nots : List α} (h : Odd nots.length) (b : Bool) : negated nots b = !b := by
  rw [negated_eq, decide_eq_true h, Bool.true_xor]

namespace Group

/-- The group without the negations at its front. -/
def strip (g : Group) : Group := { g with first := { g.first with nots := [] } }

def Plain (g : Group) : Prop := g.first.Plain ∧ ∀ r ∈ g.rest, r.2.Plain

theorem words_eq_strip (g : Group) : g.words = g.first.nots.map Operator.text ++ g.strip.words := by
  rw [words, words, strip, Factor.words, Factor.words, List.map_nil, List.nil_append, List.append_assoc]

theorem plain_strip {g : Group} (h : g.Plain) : g.strip.Plain := ⟨⟨h.1.1, fun w hw => by cases hw⟩, h.2⟩

theorem Plain.inGroup {g : Group} (h : g.Plain) : ∀ w ∈ g.words, InGroup w := by
  intro w hw
  rw [words, List.mem_append, List.mem_flatMap] at hw
  rcases hw with hw | ⟨r, hr, hw⟩
  · exact (h.1.inFactor w hw).toInGroup
  · rcases List.mem_cons.1 hw with rfl | hw
    · exact inGroup_and r.1
    · exact ((h.2 r hr).inFactor w hw).toInGroup

theorem words_ne_nil {f : Factor} (h : f.Plain) : f.words ≠ [] := by
  obtain ⟨⟨n, hn⟩, -⟩ := h
  rw [Factor.words, hn, Base.words]
  simp

/-- Without negations at its front, a group is read as it is meant. -/
theorem Plain.reads_strip (hlib : LowersTail lib) {g : Group} (h : g.Plain) (hascii : AsciiInit g.strip.words) :
    Reads lib (spaced g.strip.words) fun a => g.strip.eval a := by
  obtain ⟨n, hn⟩ := h.1.1
  have hwords : g.strip.words = segmentWords [n.text] (g.rest.map fun r => (r.1.text, r.2.words)) := by
    rw [words, Group.strip, Factor.words, hn, Base.words, segmentWords, List.flatMap_map]
    rfl
  have heval (a : Assignment) : g.strip.eval a = ((Base.name n).eval a && g.rest.all fun r => r.2.eval a) := by
    rw [eval, Group.strip, Factor.eval, hn]
    rfl
  have hgroup := (plain_strip h).inGroup
  rw [hwords] at hascii hgroup ⊢
  simp only [heval]
  by_cases hrest : g.rest = []
  · simp only [hrest, List.map_nil, List.all_nil, Bool.and_true]
    exact reads_name hlib n
  · have hfactors : ∀ vs ∈ [n.text] :: (g.rest.map fun r => (r.1.text, r.2.words)).map Prod.snd,
        vs ≠ [] ∧ ∀ w ∈ vs, Clean w ∧ lower w ≠ ['a', 'n', 'd'] := by
      refine List.forall_mem_cons.2 ⟨by simpa using ⟨n.inFactor.clean, n.inFactor.no_and⟩, ?_⟩
      rw [List.map_map]
      refine List.forall_mem_map.2 fun r hr => ⟨words_ne_nil (h.2 r hr), fun w hw => ?_⟩
      exact ⟨((h.2 r hr).inFactor w hw).clean, ((h.2 r hr).inFactor w hw).no_and⟩
    have hsegments : Segments ['a', 'n', 'd'] [n.text] (g.rest.map fun r => (r.1.text, r.2.words)) :=
      ⟨hfactors, List.forall_mem_map.2 fun r _ => r.1.spells, hascii⟩
    have hor : Segments ['o', 'r'] (segmentWords [n.text] (g.rest.map fun r => (r.1.text, r.2.words))) [] := by
      refine ⟨List.forall_mem_cons.2 ⟨⟨by simp [segmentWords], fun w hw => ⟨(hgroup w hw).clean, (hgroup w hw).no_or⟩⟩,
        fun vs hvs => absurd hvs List.not_mem_nil⟩, fun r hr => absurd hr List.not_mem_nil, ?_⟩
      simpa [segmentWords] using hascii
    have hmarked := unmarked_spaced (fun w hw => (hgroup w hw).clean) fun h => n.no_operator (by rw [h]; decide)
    exact reads_and hlib (reads_name hlib n) (fun r hr => (h.2 r hr).reads hlib) hrest hsegments hor hmarked

theorem eval_strip_of_even {g : Group} (h : Even g.first.nots.length) (a : Assignment) : g.strip.eval a = g.eval a := by
  have hfirst : g.first.eval a = g.strip.first.eval a := by
    rw [Factor.eval, negated_of_even h]
    rfl
  rw [eval, eval, hfirst]
  rfl

theorem negated_strip {g : Group} (heven : g.rest ≠ [] → Even g.first.nots.length) (a : Assignment) :
    negated (g.first.nots.map Operator.text) (g.strip.eval a) = g.eval a := by
  by_cases hrest : g.rest = []
  · simp [eval, Group.strip, Factor.eval, hrest, negated, List.foldr_map]
  · rw [negated_of_even (by rw [List.length_map]; exact heven hrest), eval_strip_of_even (heven hrest)]

/-- A group is read as it is meant, if it is one factor or its first one is negated an even number of times. -/
theorem Plain.reads (hlib : LowersTail lib) {g : Group} (h : g.Plain) (hascii : AsciiInit g.words)
    (heven : g.rest ≠ [] → Even g.first.nots.length) : Reads lib (spaced g.words) fun a => g.eval a := by
  have hclean : ∀ w ∈ g.words, Clean w := fun w hw => (h.inGroup w hw).clean
  have hstrip : g.strip.words ≠ [] := by simp [words, words_ne_nil (plain_strip h).1]
  rw [words_eq_strip] at hascii hclean ⊢
  have hread := reads_nots (List.forall_mem_map.2 h.1.2) hstrip hclean
    (h.reads_strip hlib ((asciiInit_append hstrip).1 hascii).2)
  simp only [negated_strip heven] at hread
  exact hread

end Group

namespace Condition

def groups (c : Condition) : List Group := c.first :: c.rest.map Prod.snd

/-- The condition without the negations at its front. -/
def strip (c : Condition) : Condition := { c with first := c.first.strip }

/-- The conditions whose parts the parser knows: no quantifiers, every negation spelled `not` or `NOT`, an even number
of negations in front of each conjunction behind an `or`, and ASCII words but for the last. -/
structure Readable (c : Condition) : Prop where
  plain : ∀ g ∈ c.groups, g.Plain
  even : ∀ r ∈ c.rest, r.2.rest ≠ [] → Even r.2.first.nots.length
  ascii : AsciiInit c.words

/-- The negations in front of the condition may take all of it: they cancel each other, or they stand in front of one
factor, and none of the other groups is ever true. -/
def Grouped (c : Condition) : Prop :=
  Even c.first.first.nots.length ∨ (c.first.rest = [] ∧ ∀ r ∈ c.rest, ∀ a, r.2.eval a = false)

variable {c : Condition}

theorem words_eq_strip (c : Condition) : c.words = c.first.first.nots.map Operator.text ++ c.strip.words := by
  rw [words, Group.words_eq_strip, List.append_assoc]
  rfl

theorem words_strip (c : Condition) :
    c.strip.words = segmentWords c.first.strip.words (c.rest.map fun r => (r.1.text, r.2.words)) := by
  rw [segmentWords, List.flatMap_map]
  rfl

theorem Readable.clean (h : c.Readable) : ∀ w ∈ c.words, Clean w := by
  intro w hw
  rw [words, List.mem_append, List.mem_flatMap] at hw
  rcases hw with hw | ⟨r, hr, hw⟩
  · exact ((h.plain c.first List.mem_cons_self).inGroup w hw).clean
  · rcases List.mem_cons.1 hw with rfl | hw
    · exact clean_of_lower (by rw [r.1.spells]; exact clean_or)
    · exact ((h.plain r.2 (List.mem_cons_of_mem _ (List.mem_map_of_mem hr))).inGroup w hw).clean

/-- Without negations at its front, a condition is read as it is meant. -/
theorem Readable.reads_strip (hlib : LowersTail lib) (h : c.Readable) :
    Reads lib (spaced c.strip.words) fun a => c.strip.eval a := by
  have hfirst := h.plain c.first List.mem_cons_self
  have hne : c.first.strip.words ≠ [] := by simp [Group.words, Group.words_ne_nil (Group.plain_strip hfirst).1]
  have hascii : AsciiInit c.strip.words := by
    have := h.ascii
    rw [words_eq_strip, asciiInit_append (by simp [words, strip, hne])] at this
    exact this.2
  rw [words_strip] at hascii ⊢
  by_cases hrest : c.rest = []
  · simp only [eval, strip, hrest, List.map_nil, List.any_nil, Bool.or_false, segmentWords, List.flatMap_nil,
      List.append_nil] at hascii ⊢
    exact hfirst.reads_strip hlib hascii
  · have hplain : ∀ r ∈ c.rest, r.2.Plain := fun r hr => h.plain r.2 (List.mem_cons_of_mem _ (List.mem_map_of_mem hr))
    have hsegments : Segments ['o', 'r'] c.first.strip.words (c.rest.map fun r => (r.1.text, r.2.words)) := by
      refine ⟨List.forall_mem_cons.2 ⟨⟨hne, fun w hw => ?_⟩, ?_⟩, List.forall_mem_map.2 fun r _ => r.1.spells, hascii⟩
      · exact ⟨((Group.plain_strip hfirst).inGroup w hw).clean, ((Group.plain_strip hfirst).inGroup w hw).no_or⟩
      · rw [List.map_map]
        refine List.forall_mem_map.2 fun r hr => ⟨?_, fun w hw => ?_⟩
        · simp [Group.words, Group.words_ne_nil (hplain r hr).1]
        · exact ⟨((hplain r hr).inGroup w hw).clean, ((hplain r hr).inGroup w hw).no_or⟩
    obtain ⟨n, hn⟩ := hfirst.1.1
    obtain ⟨vs, hvs⟩ : ∃ vs, c.first.strip.words = n.text :: vs :=
      ⟨_, by rw [Group.words, Group.strip, Factor.words, hn, Base.words]; rfl⟩
    have hclean : ∀ w ∈ c.strip.words, Clean w := fun w hw =>
      h.clean w (by rw [words_eq_strip]; exact List.mem_append_right _ hw)
    have hinit := hsegments.asciiInit
    have hv := hfirst.reads_strip hlib (hinit _ List.mem_cons_self)
    have hval : ∀ r ∈ c.rest, Reads lib (spaced r.2.words) fun a => r.2.eval a := fun r hr => by
      refine (hplain r hr).reads hlib (hinit _ (List.mem_cons_of_mem _ ?_)) (h.even r hr)
      rw [List.map_map]
      exact List.mem_map_of_mem (f := Prod.snd ∘ fun r => (r.1.text, r.2.words)) hr
    rw [words_strip] at hclean
    rw [hvs] at hsegments hclean hv ⊢
    have hmarked := unmarked_spaced hclean fun h => n.no_operator (by rw [h]; decide)
    exact reads_or hlib hv hval hrest hsegments hmarked

/-- The negations in front of a condition take all of it. -/
theorem Readable.reads (hlib : LowersTail lib) (h : c.Readable) :
    Reads lib (spaced c.words) fun a => negated (c.first.first.nots.map Operator.text) (c.strip.eval a) := by
  have hclean := h.clean
  have hfirst := h.plain c.first List.mem_cons_self
  have hne : c.strip.words ≠ [] := by simp [words, strip, Group.words, Group.words_ne_nil (Group.plain_strip hfirst).1]
  rw [words_eq_strip] at hclean ⊢
  exact reads_nots (List.forall_mem_map.2 hfirst.1.2) hne hclean (h.reads_strip hlib)

/-- The condition is read with `not` before `and`, and `and` before `or`. -/
def Precedence (lib : Libraries) (c : Condition) : Prop :=
  ∃ n, parseCondition lib c.text = .ok n ∧ ∀ a, n.eval a = c.eval a

theorem Readable.precedence_iff_eval (hlib : LowersTail lib) (h : c.Readable) :
    Precedence lib c ↔ ∀ a, negated c.first.first.nots (c.strip.eval a) = c.eval a := by
  obtain ⟨n, hn, heval⟩ := h.reads hlib
  have hread : parseCondition lib c.text = .ok n := by
    rw [parseCondition, text, String.toList_ofList]
    exact hn _ (Nat.lt_succ_of_le (length_le_byteLength _))
  have hnots (b : Bool) : negated (c.first.first.nots.map Operator.text) b = negated c.first.first.nots b := by
    simp [negated, List.foldr_map]
  simp only [hnots] at heval
  constructor
  · rintro ⟨m, hm, hmeval⟩ a
    rw [hread, Except.ok.injEq] at hm
    rw [← heval, hm, hmeval]
  · exact fun hall => ⟨n, hread, fun a => (heval a).trans (hall a)⟩

/-- The first factor, the other factors of its group, and the other groups. -/
theorem eval_eq (c : Condition) (a : Assignment) :
    c.eval a = (negated c.first.first.nots (c.first.first.base.eval a) && (c.first.rest.all fun r => r.2.eval a) ||
      c.rest.any fun r => r.2.eval a) := rfl

theorem eval_strip (c : Condition) (a : Assignment) :
    c.strip.eval a = (c.first.first.base.eval a && (c.first.rest.all fun r => r.2.eval a) ||
      c.rest.any fun r => r.2.eval a) := rfl

theorem exists_false {f : Factor} (h : f.Plain) : ∃ a, f.eval a = false := by
  obtain ⟨n, hn⟩ := h.1
  have hconst (b : Bool) : f.eval { names := [], value := fun _ => b, keywords := b } = negated f.nots b := by
    rw [Factor.eval, hn, Base.eval]
    split_ifs <;> rfl
  by_cases heven : Even f.nots.length
  · exact ⟨_, (hconst false).trans (negated_of_even heven false)⟩
  · exact ⟨_, (hconst true).trans (negated_of_odd (Nat.not_even_iff_odd.1 heven) true)⟩

end Condition

/-- **A readable condition is read as it is meant exactly if its groups are what its first negations may take.** -/
theorem precedence_iff {lib : Libraries} (hlib : LowersTail lib) {c : Condition} (h : c.Readable) :
    c.Precedence lib ↔ c.Grouped := by
  rw [h.precedence_iff_eval hlib]
  simp only [Condition.eval_strip]
  simp only [Condition.eval_eq]
  by_cases heven : Even c.first.first.nots.length
  · simp only [negated_of_even heven, implies_true, true_iff]
    exact Or.inl heven
  · simp only [negated_of_odd (Nat.not_even_iff_odd.1 heven)]
    rw [Condition.Grouped, or_iff_right heven]
    constructor
    · intro hall
      have hrest : ∀ r ∈ c.rest, ∀ a, r.2.eval a = false := by
        intro r hr a
        by_contra htrue
        have hany : (c.rest.any fun r => r.2.eval a) = true := List.any_eq_true.2 ⟨r, hr, by simpa using htrue⟩
        have := hall a
        simp [hany] at this
      refine ⟨?_, hrest⟩
      by_contra hne
      obtain ⟨r, rs, hrs⟩ := List.exists_cons_of_ne_nil hne
      obtain ⟨a, ha⟩ := Condition.exists_false ((h.plain c.first List.mem_cons_self).2 r (by simp [hrs]))
      have hnone : (c.first.rest.all fun r => r.2.eval a) = false := by simp [hrs, ha]
      have hany : (c.rest.any fun r => r.2.eval a) = false := List.any_eq_false.2 fun r hr => by simp [hrest r hr a]
      have := hall a
      simp [hnone, hany] at this
    · rintro ⟨hnil, hrest⟩ a
      have hany : (c.rest.any fun r => r.2.eval a) = false := List.any_eq_false.2 fun r hr => by simp [hrest r hr a]
      simp [hnil, hany]

theorem lowersTail_asciiLibraries : LowersTail asciiLibraries := by
  intro s t _
  refine ⟨lower t, ?_, fun c hc hmem => ?_⟩
  · have hlower : asciiLibraries.toLowercase (String.ofList (s ++ t)) =
        String.ofList ((String.ofList (s ++ t)).toList.map Char.toLower) := rfl
    rw [hlower, String.toList_ofList, String.toList_ofList, List.map_append]
    rfl
  · obtain ⟨d, hd, heq⟩ := List.mem_map.1 hmem
    have hnot : c.isLower = false := by
      simp only [List.mem_cons, List.not_mem_nil, or_false] at hc
      rcases hc with rfl | rfl | rfl <;> rfl
    exact TextSearch.eq_of_toLower hnot heq ▸ hd

def nameA : Name := ⟨⟨['a'], by decide, by simp [Text.isWhitespace]⟩, by decide⟩

def nameB : Name := ⟨⟨['b'], by decide, by simp [Text.isWhitespace]⟩, by decide⟩

/-- `a AND NOT b or not not b`. -/
def mixed : Condition where
  first := ⟨⟨[], .name nameA⟩, [(⟨['A', 'N', 'D'], rfl⟩, ⟨[⟨['N', 'O', 'T'], rfl⟩], .name nameB⟩)]⟩
  rest := [(⟨['o', 'r'], rfl⟩, ⟨⟨[⟨['n', 'o', 't'], rfl⟩, ⟨['n', 'o', 't'], rfl⟩], .name nameB⟩, []⟩)]

theorem readable_mixed : mixed.Readable where
  plain := by
    refine List.forall_mem_cons.2 ⟨⟨⟨⟨_, rfl⟩, fun w hw => absurd hw List.not_mem_nil⟩, ?_⟩, ?_⟩
    · exact List.forall_mem_singleton.2 ⟨⟨_, rfl⟩, List.forall_mem_singleton.2 (Or.inr rfl)⟩
    · refine List.forall_mem_singleton.2 ⟨⟨⟨_, rfl⟩, ?_⟩, fun r hr => absurd hr List.not_mem_nil⟩
      exact List.forall_mem_cons.2 ⟨Or.inl rfl, List.forall_mem_singleton.2 (Or.inl rfl)⟩
  even := List.forall_mem_singleton.2 fun h => absurd rfl h
  ascii := by
    have hwords : ∀ w ∈ mixed.words.dropLast, IsAscii w := by decide
    exact hwords

theorem precedence_mixed : mixed.Precedence asciiLibraries :=
  (precedence_iff lowersTail_asciiLibraries readable_mixed).2 (Or.inl ⟨0, rfl⟩)

/-- `not a and b`. -/
def notAnd : Condition where
  first := ⟨⟨[⟨['n', 'o', 't'], rfl⟩], .name nameA⟩, [(⟨['a', 'n', 'd'], rfl⟩, ⟨[], .name nameB⟩)]⟩
  rest := []

/-- `1 of a*`. -/
def oneOfA : Condition where
  first := ⟨⟨[], .oneOf nameA.toWord⟩, []⟩
  rest := []

/-- The negation takes the conjunction, and the quantifier is read as a name. -/
theorem misread : ¬ notAnd.Precedence asciiLibraries ∧ ¬ oneOfA.Precedence asciiLibraries := by
  constructor
  · rintro ⟨n, hn, heval⟩
    have hread : parseCondition asciiLibraries notAnd.text = .ok (.not (.and [.selection "a", .selection "b"])) := rfl
    rw [hread, Except.ok.injEq] at hn
    have h := heval { names := [], value := fun _ => false, keywords := false }
    rw [← hn] at h
    exact absurd h (by decide)
  · rintro ⟨n, hn, heval⟩
    have hread : parseCondition asciiLibraries oneOfA.text = .ok (.selection "1 of a*") := rfl
    rw [hread, Except.ok.injEq] at hn
    have h := heval { names := [], value := fun _ => true, keywords := false }
    rw [← hn] at h
    exact absurd h (by decide)

end ThorFirewall.Sigma
