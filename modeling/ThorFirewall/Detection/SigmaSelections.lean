import Mathlib
import ThorFirewall.Detection.TieredSigma
import ThorFirewall.Lib.Utf8

/-!
# What a compiled selection means (`detection/sigma_compiler.rs`)

A selection asks of each of its fields that a listed value, or with modifiers every one or none, occurs in the text of
the event. The compiler keeps the values of at least three bytes, makes no matcher for a field without any, and knows
one modifier only, a `|not` that ends the name. A selection without matchers is not stored, and nothing matches it.

- `evalSelection_compiled`: what the stored selection accepts;
- `accepts_iff`: the fields of which the matchers accept what is meant;
- `compile_selection_faithful`: selections of such fields, and of a single field.
-/

namespace ThorFirewall.Sigma

open Text Utf8

/-! ## Fields -/

inductive Modifier
  | contains
  | containsAll
  | not
  deriving DecidableEq

def Modifier.text : Modifier → List Char
  | contains => "|contains".toList
  | containsAll => "|contains|all".toList
  | not => "|not".toList

/-- One value, or a list of values. -/
inductive Listed
  | one (value : String)
  | many (values : List String)

namespace Listed

def values : Listed → List String
  | one value => [value]
  | many values => values

def yaml : Listed → Value
  | one value => .string value
  | many values => .sequence (values.map .string)

end Listed

/-- A field of a selection. Its values have no wildcards. -/
structure Field where
  name : String
  modifiers : List Modifier
  listed : Listed
  name_plain : '|' ∉ name.toList
  values_plain : ∀ v ∈ listed.values, '*' ∉ v.toList ∧ '?' ∉ v.toList

namespace Field

/-- The name with its modifiers. -/
def key (f : Field) : List Char := f.name.toList ++ f.modifiers.flatMap Modifier.text

/-- The entry of the mapping. -/
def entry (f : Field) : Value × Value := (.string (String.ofList f.key), f.listed.yaml)

def values (f : Field) : List String := f.listed.values

/-- The values of at least three bytes. -/
def patterns (f : Field) : List String := f.values.filter fun v => 3 ≤ byteLength v.toList

/-- What the field asks of a text. -/
def Meant (f : Field) (text : String) : Prop :=
  if .not ∈ f.modifiers then ∀ v ∈ f.values, occurs v text = false
  else if .containsAll ∈ f.modifiers then ∀ v ∈ f.values, occurs v text = true
  else ∃ v ∈ f.values, occurs v text = true

/-- No value is short. -/
def Long (f : Field) : Prop := ∀ v ∈ f.values, 3 ≤ byteLength v.toList

instance (f : Field) : Decidable f.Long := inferInstanceAs (Decidable (∀ v ∈ f.values, _))

/-- The matcher of the field accepts what is meant: with `not` at the end, no value is short; with another one behind
`not`, there are no values; with `contains|all`, each long value has all values in it (or there is none, and all values
are empty); otherwise, there are values and none is short (or all are, and one is empty). -/
def Faithful (f : Field) : Prop :=
  if .not ∈ f.modifiers then if f.modifiers.getLast? = some .not then f.Long else f.values = []
  else if .containsAll ∈ f.modifiers then
    (f.patterns ≠ [] ∧ ∀ p ∈ f.patterns, ∀ v ∈ f.values, occurs v p = true) ∨ ∀ v ∈ f.values, v = ""
  else (f.values ≠ [] ∧ f.Long) ∨ (f.patterns = [] ∧ "" ∈ f.values)

/-- No text meets the field: with `not`, a value is empty; with neither `not` nor `contains|all`, there are none. -/
def Unmet (f : Field) : Prop :=
  if .not ∈ f.modifiers then "" ∈ f.values else .containsAll ∉ f.modifiers ∧ f.values = []

end Field

/-- The stored selection accepts what is meant: a field has a value of three bytes, so that there is a matcher, and all
fields are faithful; or none has, so that nothing is stored, and no text meets one of the fields. -/
def FaithfulSelection (fields : List Field) : Prop :=
  if ∃ f ∈ fields, f.patterns ≠ [] then ∀ f ∈ fields, f.Faithful else ∃ f ∈ fields, f.Unmet

/-! ## Occurrences -/

theorem occurs_iff {p text : String} :
    occurs p text = true ↔ p.toList.map Char.toLower <:+: text.toList.map Char.toLower :=
  decide_eq_true_iff

theorem occurs_self (p : String) : occurs p p = true := occurs_iff.2 List.infix_rfl

theorem occurs_empty (text : String) : occurs "" text = true := occurs_iff.2 List.nil_infix

theorem occurs_trans {p q text : String} (hp : occurs p q = true) (hq : occurs q text = true) : occurs p text = true :=
  occurs_iff.2 ((occurs_iff.1 hp).trans (occurs_iff.1 hq))

theorem eq_empty_of_occurs {p : String} (h : occurs p "" = true) : p = "" := by
  have hnil := List.map_eq_nil_iff.1 (List.infix_nil.1 (occurs_iff.1 h))
  exact String.toList_inj.1 hnil

theorem utf8Size_toLower (c : Char) : c.toLower.utf8Size = c.utf8Size := by
  by_cases hc : c.toNat < 128
  · have hlower : c.toLower.toNat < 128 := isAscii_toLower (s := [c]) (by simpa [IsAscii] using hc) _ (by simp)
    rw [utf8Size_ascii hc, utf8Size_ascii hlower]
  · have hupper : ¬ c.isUpper = true := by
      intro h
      simp only [Char.isUpper, decide_eq_true_eq] at h
      have hle := UInt32.le_iff_toNat_le.1 h.2
      exact hc (lt_of_le_of_lt hle (by decide))
    rw [Char.toLower_eq_of_not_isUpper hupper]

/-- What occurs in a text has no more bytes. -/
theorem byteLength_le_of_occurs {p text : String} (h : occurs p text = true) :
    byteLength p.toList ≤ byteLength text.toList := by
  have hlower (s : List Char) : byteLength (s.map Char.toLower) = byteLength s := by
    rw [byteLength, byteLength, List.map_map]
    exact congrArg List.sum (List.map_congr_left fun c _ => utf8Size_toLower c)
  rw [← hlower, ← hlower text.toList]
  exact ((occurs_iff.1 h).sublist.map _).sum_le_sum fun _ _ => Nat.zero_le _

/-! ## What is compiled -/

theorem remove_of_notMem {c : Char} {s : String} (h : c ∉ s.toList) : remove (String.ofList [c]) s = s := by
  have hfrom : ∀ s : List Char, c ∉ s → removeFrom [c] s 0 = s := by
    intro s hs
    induction s with
    | nil => rfl
    | cons d s ih =>
      rw [List.mem_cons, not_or] at hs
      have hnot : ¬ [c].isPrefixOf (d :: s) = true := fun hp =>
        hs.1 (List.cons_prefix_cons.1 (List.isPrefixOf_iff_prefix.1 hp)).1
      rw [removeFrom, if_neg hnot, ih hs.2]
  rw [remove, String.toList_ofList, hfrom _ h, String.ofList_toList]

theorem extractStrings_string {v : String} (h : '*' ∉ v.toList ∧ '?' ∉ v.toList) :
    extractStringsFromYaml (.string v) = [v].filter fun v => 3 ≤ byteLength v.toList := by
  have hstar : remove "*" v = v := remove_of_notMem h.1
  have hmark : remove "?" v = v := remove_of_notMem h.2
  rw [extractStringsFromYaml, hstar, hmark, List.filter_singleton]
  by_cases hlong : 3 ≤ byteLength v.toList
  · rw [if_pos hlong, decide_eq_true hlong]
    rfl
  · rw [if_neg hlong, decide_eq_false hlong]
    rfl

/-- The long values are kept. -/
theorem extractStrings_yaml (f : Field) : extractStringsFromYaml f.listed.yaml = f.patterns := by
  have hplain := f.values_plain
  unfold Field.patterns Field.values
  generalize f.listed = listed at hplain
  cases listed with
  | one v => exact extractStrings_string (hplain v (List.mem_singleton_self v))
  | many vs =>
    rw [Listed.yaml, extractStringsFromYaml]
    unfold Listed.values at hplain ⊢
    dsimp only at hplain ⊢
    induction vs with
    | nil => rfl
    | cons v vs ih =>
      rw [List.map_cons, extractStringsFromItems, extractStrings_string (hplain v List.mem_cons_self),
        ih fun w hw => hplain w (List.mem_cons_of_mem v hw), ← List.filter_append]
      rfl

/-- Only a `not` at the end of the name is seen. -/
theorem negated_key (f : Field) :
    "|not".toList.isSuffixOf f.key = decide (f.modifiers.getLast? = some .not) := by
  rw [Bool.eq_iff_iff, List.isSuffixOf_iff_suffix, decide_eq_true_eq, Field.key]
  have hend {l : List Char} {c : Char} (hl : l.getLast? = some c) (x : List Char) (h : "|not".toList <:+ x ++ l) :
      c = 't' := by
    obtain ⟨u, hu⟩ := h
    have hlast := congrArg List.getLast? hu
    rw [List.getLast?_append, List.getLast?_append, hl] at hlast
    exact (Option.some.inj hlast).symm
  rcases List.eq_nil_or_concat f.modifiers with hnil | ⟨ms, m, hms⟩
  · rw [hnil, List.flatMap_nil, List.append_nil]
    refine iff_of_false (fun h => f.name_plain (h.subset ?_)) (by simp)
    decide
  · rw [hms, List.concat_eq_append, List.flatMap_append, List.flatMap_singleton, ← List.append_assoc,
      List.getLast?_concat, Option.some_inj]
    cases m with
    | contains => exact iff_of_false (fun h => by cases hend rfl _ h) (by decide)
    | containsAll => exact iff_of_false (fun h => by cases hend rfl _ h) (by decide)
    | not => exact iff_of_true (List.suffix_append _ _) rfl

namespace Field

/-- What the matcher of the field accepts, if there is one. -/
def accepts (f : Field) (text : String) : Bool :=
  f.patterns.isEmpty || (if f.modifiers.getLast? = some .not then !f.patterns.any (occurs · text)
    else f.patterns.any (occurs · text))

end Field

variable {lib : Libraries} {rule : CompiledSigmaRule} {name : String} {fields : List Field}

/-- No matcher is made without a long value. -/
theorem compileEntry_empty {f : Field} (h : f.patterns.isEmpty = true) :
    compileEntry lib f.entry.1 f.entry.2 = none := by
  rw [compileEntry, Field.entry, extractStrings_yaml, h]
  rfl

theorem compileEntry_some {f : Field} (h : f.patterns.isEmpty = false) (hbuilds : lib.builds f.patterns = true) :
    ∃ m, compileEntry lib f.entry.1 f.entry.2 = some m ∧ m.ac = ⟨f.patterns⟩ ∧
      m.negate = decide (f.modifiers.getLast? = some .not) := by
  rw [compileEntry, Field.entry, extractStrings_yaml, h]
  dsimp only
  rw [Libraries.build, if_pos hbuilds]
  refine ⟨_, rfl, rfl, ?_⟩
  exact (congrArg ("|not".toList.isSuffixOf ·) String.toList_ofList).trans (negated_key f)

/-- The matchers of the fields. -/
theorem compileSelection_fields (hbuilds : ∀ f ∈ fields, lib.builds f.patterns = true) (text : String) :
    (compileSelection lib (.mapping (fields.map Field.entry))).isEmpty = fields.all (·.patterns.isEmpty) ∧
      ((compileSelection lib (.mapping (fields.map Field.entry))).all fun m =>
        if m.negate then !m.ac.isMatch text else m.ac.isMatch text) = fields.all (·.accepts text) := by
  have hcompiled : compileSelection lib (.mapping (fields.map Field.entry)) =
      fields.filterMap fun f => compileEntry lib f.entry.1 f.entry.2 := by
    rw [compileSelection, List.filterMap_map]
    rfl
  rw [hcompiled]
  clear hcompiled
  induction fields with
  | nil => exact ⟨rfl, rfl⟩
  | cons f fields ih =>
    obtain ⟨hnil, hall⟩ := ih fun g hg => hbuilds g (List.mem_cons_of_mem f hg)
    rw [List.filterMap_cons, List.all_cons, List.all_cons, ← hnil, ← hall]
    cases hempty : f.patterns.isEmpty with
    | true =>
      rw [compileEntry_empty hempty, Field.accepts, hempty]
      exact ⟨rfl, rfl⟩
    | false =>
      obtain ⟨m, hm, hac, hnegate⟩ := compileEntry_some hempty (hbuilds f List.mem_cons_self)
      rw [hm, Field.accepts, hempty, Bool.false_or]
      refine ⟨rfl, ?_⟩
      dsimp only
      rw [List.all_cons, hac, hnegate, AhoCorasick.isMatch]
      simp only [decide_eq_true_eq]

/-! ## What is stored -/

/-- A name of a selection, in a block whose entries have different names. -/
def IsSelection (block : SigmaDetectionBlock) (name : String) (val : Value) : Prop :=
  (block.selections.map Prod.fst).Nodup ∧ (name, val) ∈ block.selections ∧ name ≠ "condition" ∧ name ≠ "keywords"

/-- One more entry. -/
theorem getElem?_compileSelections_concat (lib : Libraries) (entries : List (String × Value)) (e : String × Value)
    (hname : name ≠ "condition" ∧ name ≠ "keywords") : (compileSelections lib (entries ++ [e])).1[name]? =
      if e.1 = name ∧ (compileSelection lib e.2).isEmpty = false then some (compileSelection lib e.2)
      else (compileSelections lib entries).1[name]? := by
  obtain ⟨key, val⟩ := e
  have hconcat : compileSelections lib (entries ++ [(key, val)]) = _ := List.foldl_concat ..
  rw [hconcat]
  show (if key = "condition" then _ else if key = "keywords" then _ else if _ then _ else _ : _ × List String).1[name]? = _
  by_cases hcondition : key = "condition"
  · rw [if_pos hcondition, if_neg fun h => hname.1 (h.1.symm.trans hcondition)]
    rfl
  rw [if_neg hcondition]
  by_cases hkeywords : key = "keywords"
  · rw [if_pos hkeywords, if_neg fun h => hname.2 (h.1.symm.trans hkeywords)]
    rfl
  rw [if_neg hkeywords]
  cases hempty : (compileSelection lib val).isEmpty with
  | true =>
    rw [if_pos rfl, if_neg fun h => by cases h.2]
    rfl
  | false =>
    rw [if_neg (by decide)]
    show ((compileSelections lib entries).1.insert key _)[name]? = _
    rw [Std.TreeMap.getElem?_insert]
    by_cases hkey : key = name
    · rw [if_pos (compare_eq_iff_eq.2 hkey), if_pos ⟨hkey, rfl⟩]
    · rw [if_neg fun h => hkey (compare_eq_iff_eq.1 h), if_neg fun h => hkey h.1]

/-- **The stored selection** has the matchers of its entry; without any it is not there. -/
theorem getElem?_compileSelections {block : SigmaDetectionBlock} {val : Value} (h : IsSelection block name val) :
    (compileSelections lib block.selections).1[name]? =
      if (compileSelection lib val).isEmpty then none else some (compileSelection lib val) := by
  obtain ⟨hnodup, hmem, hname⟩ := h
  generalize block.selections = entries at hnodup hmem
  have hnone {entries : List (String × Value)} (hnot : name ∉ entries.map Prod.fst) :
      (compileSelections lib entries).1[name]? = none := by
    induction entries using List.reverseRecOn with
    | nil => exact Std.TreeMap.getElem?_emptyc
    | append_singleton entries e ih =>
      rw [List.map_append, List.mem_append, not_or, List.map_singleton, List.mem_singleton] at hnot
      rw [getElem?_compileSelections_concat lib entries e hname, if_neg fun h => hnot.2 h.1.symm, ih hnot.1]
  induction entries using List.reverseRecOn with
  | nil => cases hmem
  | append_singleton entries e ih =>
    rw [List.map_append, List.map_singleton] at hnodup
    obtain ⟨hentries, -, hdisjoint⟩ := List.nodup_append.1 hnodup
    rw [getElem?_compileSelections_concat lib entries e hname]
    rcases List.mem_append.1 hmem with hmem | hmem
    · have hkey : e.1 ≠ name := fun h =>
        hdisjoint name (List.mem_map_of_mem hmem) e.1 (List.mem_singleton_self _) h.symm
      rw [if_neg fun h => hkey h.1, ih hentries hmem]
    · obtain rfl := List.mem_singleton.1 hmem
      have hnot : name ∉ entries.map Prod.fst := fun h => hdisjoint name h name (List.mem_singleton_self _) rfl
      rw [hnone hnot]
      cases (compileSelection lib val).isEmpty with
      | true => rw [if_pos rfl, if_neg fun h => by cases h.2]
      | false => rw [if_pos ⟨rfl, rfl⟩, if_neg (by decide)]

theorem selections_compileRule {uuid : String} {file : SigmaRuleFile} (h : compileRule lib uuid file = .ok rule) :
    rule.selections = (compileSelections lib file.detection.selections).1 := by
  unfold compileRule at h
  cases hcondition : parseCondition lib (file.detection.condition.getD "selection") with
  | error fault =>
    rw [hcondition] at h
    cases h
  | ok condition =>
    rw [hcondition] at h
    exact congrArg CompiledSigmaRule.selections (Except.ok.inj h).symm

/-- **What a stored selection accepts**: nothing if no field has a matcher. -/
theorem evalSelection_compiled (hbuilds : ∀ f ∈ fields, lib.builds f.patterns = true) {uuid : String}
    {file : SigmaRuleFile} (hrule : compileRule lib uuid file = .ok rule)
    (hselection : IsSelection file.detection name (.mapping (fields.map Field.entry))) (text : String) :
    rule.evalSelection name text = (!fields.all (·.patterns.isEmpty) && fields.all (·.accepts text)) := by
  obtain ⟨hempty, hall⟩ := compileSelection_fields hbuilds text
  unfold CompiledSigmaRule.evalSelection
  rw [selections_compileRule hrule, getElem?_compileSelections hselection, hempty]
  cases fields.all (·.patterns.isEmpty) with
  | true => rfl
  | false => exact hall

/-! ## What is meant -/

namespace Field

variable {f : Field}

theorem mem_patterns {v : String} : v ∈ f.patterns ↔ v ∈ f.values ∧ 3 ≤ byteLength v.toList := by
  rw [patterns, List.mem_filter, decide_eq_true_eq]

theorem long_iff : f.Long ↔ ∀ v ∈ f.values, v ∈ f.patterns :=
  forall₂_congr fun _ hv => ⟨fun h => mem_patterns.2 ⟨hv, h⟩, fun h => (mem_patterns.1 h).2⟩

/-- A short value is a text without long ones. -/
theorem any_eq_false_of_short {v : String} (hv : ¬ v ∈ f.patterns) (hmem : v ∈ f.values) :
    f.patterns.any (occurs · v) = false := by
  rw [List.any_eq_false]
  intro p hp hoccurs
  have hle := byteLength_le_of_occurs hoccurs
  exact hv (mem_patterns.2 ⟨hmem, (mem_patterns.1 hp).2.trans hle⟩)

theorem any_self {p : String} (hp : p ∈ f.patterns) : f.patterns.any (occurs · p) = true :=
  List.any_eq_true.2 ⟨p, hp, occurs_self p⟩

theorem any_iff_of_long (h : f.Long) (text : String) :
    f.patterns.any (occurs · text) = true ↔ ∃ v ∈ f.values, occurs v text = true := by
  rw [List.any_eq_true]
  constructor
  · rintro ⟨p, hp, hoccurs⟩
    exact ⟨p, (mem_patterns.1 hp).1, hoccurs⟩
  · rintro ⟨v, hv, hoccurs⟩
    exact ⟨v, long_iff.1 h v hv, hoccurs⟩

theorem isEmpty_iff : f.patterns.isEmpty = true ↔ f.patterns = [] := List.isEmpty_iff

/-- **With `not` at the end** a field needs long values. -/
theorem accepts_none_iff (hlast : f.modifiers.getLast? = some .not) :
    (∀ text, f.accepts text = true ↔ ∀ v ∈ f.values, occurs v text = false) ↔ f.Long := by
  simp only [accepts, hlast, if_true, Bool.or_eq_true, Bool.not_eq_true', isEmpty_iff]
  constructor
  · intro h
    refine long_iff.2 fun v hv => ?_
    by_contra hshort
    have hnone := (h v).1 (Or.inr (any_eq_false_of_short hshort hv)) v hv
    rw [occurs_self] at hnone
    cases hnone
  · intro hlong text
    have hany := (any_iff_of_long hlong text).not
    rw [Bool.not_eq_true] at hany
    rw [hany]
    push Not
    simp only [ne_eq, Bool.not_eq_true]
    refine or_iff_right_of_imp fun hnil v hv => ?_
    have hmem := long_iff.1 hlong v hv
    rw [hnil] at hmem
    cases hmem

/-- **With another modifier behind `not`** it needs to have no values. -/
theorem accepts_swapped_iff (hlast : f.modifiers.getLast? ≠ some .not) :
    (∀ text, f.accepts text = true ↔ ∀ v ∈ f.values, occurs v text = false) ↔ f.values = [] := by
  simp only [accepts, hlast, if_false, Bool.or_eq_true, isEmpty_iff]
  constructor
  · intro h
    rw [List.eq_nil_iff_forall_not_mem]
    intro v hv
    have haccepts (w : String) (hw : w ∈ f.values) (ha : f.patterns = [] ∨ f.patterns.any (occurs · w) = true) :
        False := by
      have hnone := (h w).1 ha w hw
      rw [occurs_self] at hnone
      cases hnone
    by_cases hnil : f.patterns = []
    · exact haccepts v hv (Or.inl hnil)
    · obtain ⟨p, hp⟩ := List.exists_mem_of_ne_nil _ hnil
      exact haccepts p (mem_patterns.1 hp).1 (Or.inr (any_self hp))
  · intro hnil text
    have hpatterns : f.patterns = [] := by
      rw [patterns, hnil]
      rfl
    rw [hnil]
    exact iff_of_true (Or.inl hpatterns) fun v hv => by cases hv

/-- **With `contains|all`** each long value has to have all values in it. -/
theorem accepts_every_iff (hlast : f.modifiers.getLast? ≠ some .not) :
    (∀ text, f.accepts text = true ↔ ∀ v ∈ f.values, occurs v text = true) ↔
      (f.patterns ≠ [] ∧ ∀ p ∈ f.patterns, ∀ v ∈ f.values, occurs v p = true) ∨ ∀ v ∈ f.values, v = "" := by
  simp only [accepts, hlast, if_false, Bool.or_eq_true, isEmpty_iff]
  constructor
  · intro h
    by_cases hnil : f.patterns = []
    · exact Or.inr fun v hv => eq_empty_of_occurs ((h "").1 (Or.inl hnil) v hv)
    · exact Or.inl ⟨hnil, fun p hp => (h p).1 (Or.inr (any_self hp))⟩
  · rintro (⟨hne, hall⟩ | hempty) text
    · rw [or_iff_right hne, List.any_eq_true]
      constructor
      · rintro ⟨p, hp, hoccurs⟩ v hv
        exact occurs_trans (hall p hp v hv) hoccurs
      · intro hevery
        obtain ⟨p, hp⟩ := List.exists_mem_of_ne_nil _ hne
        exact ⟨p, hp, hevery p (mem_patterns.1 hp).1⟩
    · refine iff_of_true (Or.inl ?_) fun v hv => hempty v hv ▸ occurs_empty text
      refine List.filter_eq_nil_iff.2 fun v hv => ?_
      rw [hempty v hv]
      decide

/-- **Otherwise** there have to be values, and none that is short. -/
theorem accepts_some_iff (hlast : f.modifiers.getLast? ≠ some .not) :
    (∀ text, f.accepts text = true ↔ ∃ v ∈ f.values, occurs v text = true) ↔
      (f.values ≠ [] ∧ f.Long) ∨ (f.patterns = [] ∧ "" ∈ f.values) := by
  simp only [accepts, hlast, if_false, Bool.or_eq_true, isEmpty_iff]
  constructor
  · intro h
    by_cases hnil : f.patterns = []
    · obtain ⟨v, hv, hoccurs⟩ := (h "").1 (Or.inl hnil)
      exact Or.inr ⟨hnil, eq_empty_of_occurs hoccurs ▸ hv⟩
    · refine Or.inl ⟨fun hvalues => hnil (by rw [patterns, hvalues]; rfl), long_iff.2 fun v hv => ?_⟩
      by_contra hshort
      have haccepts := ((h v).2 ⟨v, hv, occurs_self v⟩).resolve_left hnil
      rw [any_eq_false_of_short hshort hv] at haccepts
      cases haccepts
  · rintro (⟨hne, hlong⟩ | ⟨hnil, hempty⟩) text
    · obtain ⟨v, hv⟩ := List.exists_mem_of_ne_nil _ hne
      rw [or_iff_right (List.ne_nil_of_mem (long_iff.1 hlong v hv)), any_iff_of_long hlong]
    · exact iff_of_true (Or.inl hnil) ⟨"", hempty, occurs_empty text⟩

/-- **The matcher of a field accepts what is meant**, on every text, if and only if the field is faithful. -/
theorem accepts_iff : (∀ text, f.accepts text = true ↔ f.Meant text) ↔ f.Faithful := by
  unfold Meant Faithful
  by_cases hnot : Modifier.not ∈ f.modifiers
  · simp only [if_pos hnot]
    split_ifs with hlast
    · exact accepts_none_iff hlast
    · exact accepts_swapped_iff hlast
  · have hlast : f.modifiers.getLast? ≠ some .not := fun h => hnot (List.mem_of_getLast? h)
    simp only [if_neg hnot]
    split_ifs with hall
    · exact accepts_every_iff hlast
    · exact accepts_some_iff hlast

/-- What no text meets. -/
theorem unmet_iff : (∀ text, ¬ f.Meant text) ↔ f.Unmet := by
  unfold Meant Unmet
  split_ifs with hnot hall
  · constructor
    · intro h
      obtain ⟨v, hv, hoccurs⟩ := by simpa only [not_forall, exists_prop, Bool.not_eq_false] using h ""
      exact eq_empty_of_occurs hoccurs ▸ hv
    · intro hempty text h
      have hfalse := h "" hempty
      rw [occurs_empty] at hfalse
      cases hfalse
  · -- the text of all values meets the field
    refine iff_of_false (fun h => ?_) fun h => h.1 hall
    refine h (String.ofList (f.values.map String.toList).flatten) fun v hv => occurs_iff.2 ?_
    rw [String.toList_ofList]
    exact (List.infix_of_mem_flatten (List.mem_map_of_mem hv)).map _
  · rw [and_iff_right hall]
    constructor
    · intro h
      rw [List.eq_nil_iff_forall_not_mem]
      exact fun v hv => h v ⟨v, hv, occurs_self v⟩
    · rintro hnil text ⟨v, hv, -⟩
      rw [hnil] at hv
      cases hv

end Field

theorem all_isEmpty_iff : fields.all (·.patterns.isEmpty) = true ↔ ¬ ∃ f ∈ fields, f.patterns ≠ [] := by
  simp

/-- **The compiled selection accepts what is meant** if all its fields are faithful and one has a matcher, or none has one
and no text meets the selection; if it has one field, only then. -/
theorem compile_selection_faithful {uuid : String} {file : SigmaRuleFile}
    (hbuilds : ∀ f ∈ fields, lib.builds f.patterns = true) (hrule : compileRule lib uuid file = .ok rule)
    (hselection : IsSelection file.detection name (.mapping (fields.map Field.entry))) :
    (FaithfulSelection fields → ∀ text, rule.evalSelection name text = true ↔ ∀ f ∈ fields, f.Meant text) ∧
    ∀ f, fields = [f] → ((∀ text, rule.evalSelection name text = true ↔ f.Meant text) ↔ FaithfulSelection fields) := by
  have heval := evalSelection_compiled hbuilds hrule hselection
  refine ⟨fun hfaithful text => ?_, ?_⟩
  · rw [heval]
    unfold FaithfulSelection at hfaithful
    split_ifs at hfaithful with hstored
    · have hany := Bool.eq_false_iff.2 (mt all_isEmpty_iff.1 (not_not.2 hstored))
      rw [hany, Bool.not_false, Bool.true_and, List.all_eq_true]
      exact forall₂_congr fun f hf => Field.accepts_iff.2 (hfaithful f hf) text
    · rw [all_isEmpty_iff.2 hstored, Bool.not_true, Bool.false_and]
      obtain ⟨f, hf, hunmet⟩ := hfaithful
      exact iff_of_false Bool.false_ne_true fun h => Field.unmet_iff.2 hunmet text (h f hf)
  · rintro f rfl
    simp only [FaithfulSelection, heval, List.all_cons, List.all_nil, Bool.and_true, List.mem_singleton, exists_eq_left,
      forall_eq]
    split_ifs with hstored
    · rw [← Field.accepts_iff, Bool.eq_false_iff.2 (mt Field.isEmpty_iff.1 hstored)]
      simp only [Bool.not_false, Bool.true_and]
    · rw [← Field.unmet_iff, Field.isEmpty_iff.2 (not_not.1 hstored)]
      simp only [Bool.not_true, Bool.false_and, Bool.false_eq_true, false_iff]

/-- A rule file with one selection. -/
def selectionFile (fields : List Field) : SigmaRuleFile where
  title := "rule"
  id := some "1"
  detection := { selections := [("selection", .mapping (fields.map Field.entry))] }

theorem isSelection_selectionFile (fields : List Field) :
    IsSelection (selectionFile fields).detection "selection" (.mapping (fields.map Field.entry)) :=
  ⟨List.nodup_singleton _, List.mem_singleton_self _, by decide, by decide⟩

theorem exists_compiled (fields : List Field) :
    ∃ rule, compileRule asciiLibraries "" (selectionFile fields) = .ok rule := by
  have hdefault : (selectionFile fields).detection.condition.getD "selection" = "selection" := rfl
  have hcondition : parseCondition asciiLibraries "selection" = .ok (.selection "selection") := rfl
  unfold compileRule
  rw [hdefault, hcondition]
  exact ⟨_, rfl⟩

/-- `CommandLine|contains: cmd`. -/
def anyCommand : Field where
  name := "CommandLine"
  modifiers := [.contains]
  listed := .one "cmd"
  name_plain := by decide
  values_plain := by decide

/-- `User|not: admin`. -/
def notAdmin : Field where
  name := "User"
  modifiers := [.not]
  listed := .one "admin"
  name_plain := by decide
  values_plain := by decide

/-- `CommandLine|contains|all` with two values. -/
def allCommands : Field where
  name := "CommandLine"
  modifiers := [.containsAll]
  listed := .many ["curl", "bash"]
  name_plain := by decide
  values_plain := by decide

/-- A command line with `cmd` of another user is accepted as it is meant. -/
theorem compile_selection_faithful_cmd :
    ∃ rule, compileRule asciiLibraries "" (selectionFile [anyCommand, notAdmin]) = .ok rule ∧
    (rule.evalSelection "selection" "cmd /c dir" = true ↔ ∀ f ∈ [anyCommand, notAdmin], f.Meant "cmd /c dir") := by
  obtain ⟨rule, hrule⟩ := exists_compiled [anyCommand, notAdmin]
  refine ⟨rule, hrule, (compile_selection_faithful (fun _ _ => rfl) hrule (isSelection_selectionFile _)).1 ?_ _⟩
  have hstored : ∃ f ∈ [anyCommand, notAdmin], f.patterns ≠ [] := ⟨anyCommand, List.mem_cons_self, by decide⟩
  refine (if_pos hstored).mpr ?_
  rw [List.forall_mem_cons, List.forall_mem_singleton]
  exact ⟨Or.inl ⟨by decide, by decide⟩, fun v hv => by revert v; decide⟩

/-- One of all the values is enough. -/
theorem one_of_all_accepted : ¬ ∀ (file : SigmaRuleFile) (rule : CompiledSigmaRule) (name : String) (fields : List Field),
    compileRule asciiLibraries "" file = .ok rule →
    IsSelection file.detection name (.mapping (fields.map Field.entry)) →
    ∀ text, rule.evalSelection name text = true ↔ ∀ f ∈ fields, f.Meant text := by
  intro h
  obtain ⟨rule, hrule⟩ := exists_compiled [allCommands]
  have hselection := isSelection_selectionFile [allCommands]
  have haccepted : rule.evalSelection "selection" "curl" = true :=
    (@evalSelection_compiled asciiLibraries _ _ [allCommands] (fun _ _ => rfl) _ _ hrule hselection "curl").trans
      (by decide)
  have hmeant := (h _ rule _ [allCommands] hrule hselection "curl").1 haccepted _ (List.mem_singleton_self _)
  have hevery : ∀ v ∈ allCommands.values, occurs v "curl" = true := hmeant
  exact absurd (hevery "bash" (by decide)) (by decide)

end ThorFirewall.Sigma
