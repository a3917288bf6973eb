import Mathlib
import ThorFirewall.Ids.RuleParser
import ThorFirewall.Lib.TextSearch

/-!
# Any line, and printed options

What the rule parser does with a line that nobody checked, and what it reads of options that were printed. A value is
read up to a semicolon, where the scanner keeps an open quote and the number of open parentheses (`scanValue`).

- `parseRule_returns_iff`: the lines on which the parser does not panic;
- `readValue_append`, `readValue_stops`: what is read of a value and what stands behind it;
- `parseOptions_print_iff`: the options that are read back as they were printed.
-/

namespace ThorFirewall.Ids

open Text TextSearch

/-! ## Any line -/

/-- The slice between the parentheses panics if each closing one stands before each opening one. -/
theorem splitParens_panic_iff {line : List Char} : splitParens line = .error .slicePanic ↔
    '(' ∈ line ∧ ')' ∈ line ∧ ¬ ∃ a b c, line = a ++ '(' :: (b ++ ')' :: c) := by
  unfold splitParens
  have hopen := @find_first (fun c => decide (c = '(')) '(' (fun c => decide_eq_true_iff) line
  have hclose := @find_last (fun c => decide (c = ')')) ')' (fun c => decide_eq_true_iff) line
  split
  · next hnone =>
    have hmem : '(' ∉ line := fun h => by simpa using List.findIdx?_eq_none_iff.1 hnone '(' h
    exact iff_of_false nofun fun h => hmem h.1
  · next hnone =>
    have hmem : ')' ∉ line := fun h => by simpa using List.findIdx?_eq_none_iff.1 hnone ')' (List.mem_reverse.2 h)
    exact iff_of_false nofun fun h => hmem h.2.1
  · next start back hstart hback =>
    obtain ⟨a, b, hline, ha, rfl⟩ := hopen.1 hstart
    obtain ⟨x, y, hline', hy, rfl⟩ := hclose.1 hback
    have hlast : line.length - 1 - y.length = x.length := by
      rw [hline', List.length_append, List.length_cons]
      omega
    dsimp only
    rw [hlast]
    have hmem : '(' ∈ line ∧ ')' ∈ line := ⟨hline ▸ by simp, hline' ▸ by simp⟩
    split_ifs with hcross
    · refine iff_of_true rfl ⟨hmem.1, hmem.2, ?_⟩
      rintro ⟨u, v, w, hsplit⟩
      have hu : u ++ ['('] <+: line := ⟨v ++ ')' :: w, by rw [hsplit]; simp⟩
      have hw : ')' :: w <:+ line := ⟨u ++ '(' :: v, by rw [hsplit]; simp⟩
      have hfirst : a.length ≤ u.length := by
        by_contra hlt
        have hbegins := List.prefix_of_prefix_length_le hu (hline ▸ List.prefix_append a ('(' :: b)) (by simp; omega)
        exact ha (hbegins.subset (by simp))
      have htotal := congrArg List.length (hline'.symm.trans hsplit)
      simp only [List.length_append, List.length_cons] at htotal
      have hy' : y <:+ line := ⟨x ++ [')'], by rw [hline']; simp⟩
      have hsuffix := List.suffix_of_suffix_length_le hw hy' (by rw [List.length_cons]; omega)
      exact hy (hsuffix.subset List.mem_cons_self)
    · refine iff_of_false nofun fun h => h.2.2 ?_
      -- the last closing parenthesis stands behind the first opening one
      have ha' : a ++ ['('] <+: line := ⟨b, by rw [hline]; simp⟩
      have hx : x <+: line := ⟨')' :: y, hline'.symm⟩
      obtain ⟨v, rfl⟩ := List.prefix_of_prefix_length_le ha' hx (by simp; omega)
      exact ⟨a, v, y, by rw [hline']; simp⟩

/-- The parser returns, with a rule or an error. -/
def Returns {α : Type} (result : Except RuleError α) : Prop := result ≠ .error .slicePanic

/-- Every closing parenthesis of a rule line stands before its first opening one. -/
def Crossed (line : List Char) : Prop :=
  line.head? ≠ some '#' ∧ '(' ∈ line ∧ ')' ∈ line ∧ ¬ ∃ a b c, line = a ++ '(' :: (b ++ ')' :: c)

theorem parseAction_returns (s : List Char) : Returns (parseAction s) := by
  unfold Returns parseAction
  dsimp only
  split_ifs <;> exact nofun

/-- **The parser returns on a line** exactly if its parentheses are not crossed. -/
theorem parseRule_returns_iff (line : List Char) : Returns (parseRule line) ↔ ¬ Crossed (trim line) := by
  unfold Returns Crossed parseRule
  generalize trim line = line
  dsimp only
  by_cases hskip : line = [] ∨ line.head? = some '#'
  · rw [if_pos hskip]
    refine iff_of_true nofun ?_
    rintro ⟨hhead, hopen, -, -⟩
    rcases hskip with rfl | hcomment
    · exact List.not_mem_nil hopen
    · exact hhead hcomment
  · have hhead : line.head? ≠ some '#' := fun h => hskip (Or.inr h)
    rw [if_neg hskip, and_iff_right hhead, ← splitParens_panic_iff]
    cases hparens : splitParens line with
    | error e =>
      show Except.error e ≠ _ ↔ ¬ Except.error e = _
      simp
    | ok parts =>
      refine iff_of_true ?_ nofun
      intro hpanic
      simp only [bind, Except.bind, pure, Except.pure, throw, throwThe, MonadExceptOf.throw] at hpanic
      split at hpanic
      · next action _ _ _ _ _ _ _ _ =>
        cases haction : parseAction action with
        | error e =>
          rw [haction] at hpanic
          exact parseAction_returns action (haction.trans (congrArg _ (Except.error.inj hpanic)))
        | ok a =>
          rw [haction] at hpanic
          cases hpanic
      · cases hpanic

/-- A line with a closing parenthesis in front of the opening one. -/
theorem crossed_panics : ¬ ∀ line, Returns (parseRule line) :=
  fun h => h "alert ) (".toList rfl

/-! ## Reading a value -/

/-- The open quote and the number of open parentheses behind a value, none if the scanner stops inside of it. -/
def scanValue : List Char → ℕ → Option Char → Option (ℕ × Option Char)
  | [], depth, quote => some (depth, quote)
  | c :: s, depth, some quote => scanValue s depth (if c = quote then none else some quote)
  | c :: s, depth, none =>
    if c = '"' ∨ c = '\'' then scanValue s depth (some c)
    else if c = '(' then scanValue s (depth + 1) none
    else if c = ')' then (if 0 < depth then scanValue s (depth - 1) none else none)
    else if c = ';' ∧ depth = 0 then none
    else scanValue s depth none

/-- Scanning the value alone ends outside of quotes and parentheses. -/
def Closes (value : List Char) : Prop := scanValue value 0 none = some (0, none)

instance (value : List Char) : Decidable (Closes value) := inferInstanceAs (Decidable (_ = _))

variable {s rest : List Char} {depth depth' : ℕ} {quote quote' : Option Char}

/-- A scanned text is part of the value. -/
theorem readValue_append (h : scanValue s depth quote = some (depth', quote')) (rest : List Char) :
    readValue (s ++ rest) depth quote =
      (s ++ (readValue rest depth' quote').1, (readValue rest depth' quote').2) := by
  induction s generalizing depth quote with
  | nil =>
    cases h
    rfl
  | cons c s ih =>
    cases quote with
    | some q =>
      rw [scanValue] at h
      rw [List.cons_append, readValue, ih h]
      rfl
    | none =>
      rw [scanValue] at h
      rw [List.cons_append, readValue]
      split_ifs at h ⊢ <;> (rw [ih h]; rfl)

/-- The value ends where the scanner stops, at a semicolon or a closing parenthesis. -/
theorem readValue_stops (h : scanValue s depth quote = none) : ∃ a c b, s = a ++ c :: b ∧ isWhitespace c = false ∧
    ∀ rest, readValue (s ++ rest) depth quote = (a, c :: b ++ rest) := by
  induction s generalizing depth quote with
  | nil => cases h
  | cons c s ih =>
    have hmore {depth' : ℕ} {quote' : Option Char} (h : scanValue s depth' quote' = none)
        (hread : ∀ rest, readValue (c :: s ++ rest) depth quote =
          (c :: (readValue (s ++ rest) depth' quote').1, (readValue (s ++ rest) depth' quote').2)) :
        ∃ a d b, c :: s = a ++ d :: b ∧ isWhitespace d = false ∧
          ∀ rest, readValue (c :: s ++ rest) depth quote = (a, d :: b ++ rest) := by
      obtain ⟨a, d, b, rfl, hd, hstop⟩ := ih h
      refine ⟨c :: a, d, b, rfl, hd, fun rest => ?_⟩
      rw [hread, hstop]
    cases quote with
    | some q =>
      rw [scanValue] at h
      exact hmore h fun rest => rfl
    | none =>
      rw [scanValue] at h
      split_ifs at h with hquote hopen hclose hdepth hsemi
      · refine hmore h fun rest => ?_
        rw [List.cons_append, readValue, if_pos hquote]
      · refine hmore h fun rest => ?_
        rw [List.cons_append, readValue, if_neg hquote, if_pos hopen]
      · refine hmore h fun rest => ?_
        rw [List.cons_append, readValue, if_neg hquote, if_neg hopen, if_pos hclose, if_pos hdepth]
      · refine ⟨[], c, s, rfl, hclose ▸ by decide, fun rest => ?_⟩
        rw [List.cons_append, readValue, if_neg hquote, if_neg hopen, if_pos hclose, if_neg hdepth]
      · refine ⟨[], c, s, rfl, hsemi.1 ▸ by decide, fun rest => ?_⟩
        rw [List.cons_append, readValue, if_neg hquote, if_neg hopen, if_neg hclose, if_pos hsemi]
      · refine hmore h fun rest => ?_
        rw [List.cons_append, readValue, if_neg hquote, if_neg hopen, if_neg hclose, if_neg hsemi]

/-- Inside of quotes or parentheses a semicolon is part of the value. -/
theorem readValue_semicolon (hquote : quote ∈ [none, some '"', some '\'']) (h : (depth, quote) ≠ (0, none)) :
    readValue (';' :: rest) depth quote = (';' :: (readValue rest depth quote).1, (readValue rest depth quote).2) := by
  cases quote with
  | some q =>
    have hq : ';' ≠ q := by
      rintro rfl
      simp at hquote
    rw [readValue, if_neg hq]
  | none =>
    have hdepth : ¬ (';' = ';' ∧ depth = 0) := fun h' => h (by rw [h'.2])
    rw [readValue, if_neg (by decide), if_neg (by decide), if_neg (by decide), if_neg hdepth]

theorem scanValue_quote (hquote : quote ∈ [none, some '"', some '\''])
    (h : scanValue s depth quote = some (depth', quote')) : quote' ∈ [none, some '"', some '\''] := by
  induction s generalizing depth quote with
  | nil =>
    cases h
    exact hquote
  | cons c s ih =>
    cases quote with
    | some q =>
      rw [scanValue] at h
      refine ih ?_ h
      split_ifs
      · exact List.mem_cons_self
      · exact hquote
    | none =>
      rw [scanValue] at h
      split_ifs at h with hc
      · refine ih ?_ h
        rcases hc with rfl | rfl <;> simp
      all_goals exact ih hquote h

/-! ## Printed options -/

/-- A non-empty word without `:`, `;` and blanks. -/
def IsKeyword (keyword : List Char) : Prop :=
  keyword ≠ [] ∧ ∀ c ∈ keyword, c ≠ ':' ∧ c ≠ ';' ∧ isWhitespace c = false

/-- A text in which quotes, semicolons and backslashes are escaped. -/
inductive Escaped : List Char → Prop
  | nil : Escaped []
  | plain {c : Char} {s : List Char} : c ∉ ['"', ';', '\\'] → Escaped s → Escaped (c :: s)
  | escape {c : Char} {s : List Char} : c ∈ ['"', ';', '\\'] → Escaped s → Escaped ('\\' :: c :: s)

/-- A raw value: plain text, or an escaped text in quotes. -/
inductive IsValue : List Char → Prop
  | plain {s : List Char} : (∀ c ∈ s, c ∉ ['"', '\'', '(', ')', ';']) → IsValue s
  | quoted {s : List Char} : Escaped s → IsValue ('"' :: s ++ ['"'])

structure IsOption (o : RuleOption) : Prop where
  keyword : IsKeyword o.keyword
  value : ∀ v, o.value = some v → IsValue v

def printOption (o : RuleOption) : List Char :=
  match o.value with
  | none => o.keyword ++ [';']
  | some v => o.keyword ++ ':' :: v ++ [';']

def printOptions (options : List RuleOption) : List Char := [' '].intercalate (options.map printOption)

/-- What is skipped in front of an option. -/
def isGap (c : Char) : Bool := c = ';' || c = ' ' || c = '\t'

/-- The options are written one behind the other, with gaps between them. -/
inductive Printed : List RuleOption → List Char → Prop
  | nil {s : List Char} : (∀ c ∈ s, isGap c = true) → Printed [] s
  | cons {o : RuleOption} {options : List RuleOption} {l s : List Char} : (∀ c ∈ l, isGap c = true) →
      Printed options s → Printed (o :: options) (l ++ printOption o ++ s)

theorem Printed.gap {options : List RuleOption} (h : Printed options s) {c : Char} (hc : isGap c = true) :
    Printed options (c :: s) := by
  cases h with
  | nil hs => exact .nil (List.forall_mem_cons.2 ⟨hc, hs⟩)
  | cons hl hrest =>
    rw [← List.cons_append, ← List.cons_append]
    exact .cons (List.forall_mem_cons.2 ⟨hc, hl⟩) hrest

theorem printed_printOptions (options : List RuleOption) : Printed options (printOptions options) := by
  induction options with
  | nil => exact .nil nofun
  | cons o options ih =>
    cases options with
    | nil =>
      have hone : printOptions [o] = [] ++ printOption o ++ [] := by
        rw [List.nil_append, List.append_nil]
        exact List.intercalate_singleton
      rw [hone]
      exact .cons nofun (.nil nofun)
    | cons o' options =>
      have hmore : printOptions (o :: o' :: options) =
          [] ++ printOption o ++ ([' '] ++ printOptions (o' :: options)) := by
        rw [List.nil_append, ← List.append_assoc]
        exact List.intercalate_cons_cons
      rw [hmore]
      exact .cons nofun (ih.gap (by decide))

/-! ## Reading an option -/

variable {o : RuleOption} {options : List RuleOption} {l : List Char}

theorem trim_keyword {keyword : List Char} (h : IsKeyword keyword) : trim keyword = keyword := by
  have htrim := @trim_append [] keyword [] rfl rfl (fun c hc => (h.2 c (List.mem_of_mem_head? hc)).2.2)
    fun c hc => (h.2 c (List.mem_of_mem_getLast? hc)).2.2
  rwa [List.nil_append, List.append_nil] at htrim

/-- The reader skips the gap and takes the keyword. -/
theorem readOption_keyword {keyword : List Char} (h : IsKeyword keyword) (hl : ∀ c ∈ l, isGap c = true) {d : Char}
    (hd : d = ':' ∨ d = ';') (rest : List Char) : readOption (l ++ (keyword ++ d :: rest)) =
      if d = ':' then some (⟨keyword, some (trim (readValue rest 0 none).1)⟩, (readValue rest 0 none).2)
      else some (⟨keyword, none⟩, d :: rest) := by
  have hskip : (l ++ (keyword ++ d :: rest)).dropWhile (fun c => c = ';' || c = ' ' || c = '\t') =
      keyword ++ d :: rest := by
    refine List.dropWhile_run hl fun c hc => ?_
    rw [List.head?_append_of_ne_nil _ h.1] at hc
    obtain ⟨-, hsemi, hblank⟩ := h.2 c (List.mem_of_mem_head? hc)
    have hspace : c ≠ ' ' := by
      rintro rfl
      exact absurd hblank (by decide)
    have htab : c ≠ '\t' := by
      rintro rfl
      exact absurd hblank (by decide)
    simp [hsemi, hspace, htab]
  have hword : ∀ c ∈ keyword, (c ≠ ':' && c ≠ ';') = true := by
    intro c hc
    simp [(h.2 c hc).1, (h.2 c hc).2.1]
  have hend : ¬ (d ≠ ':' && d ≠ ';') = true := by
    rcases hd with rfl | rfl <;> decide
  have htake : ((d :: rest).takeWhile fun c => c ≠ ':' && c ≠ ';') = [] := List.takeWhile_cons_of_neg hend
  have hdrop : ((d :: rest).dropWhile fun c => c ≠ ':' && c ≠ ';') = d :: rest := List.dropWhile_cons_of_neg hend
  unfold readOption
  dsimp only
  rw [hskip, List.takeWhile_append_of_pos hword, List.dropWhile_append_of_pos hword, htake, hdrop, List.append_nil,
    trim_keyword h, if_neg h.1]
  rcases hd with rfl | rfl
  · rfl
  · rfl

theorem parseOptions_gap (h : ∀ c ∈ s, isGap c = true) : parseOptions s = [] := by
  have hskip : s.dropWhile (fun c => c = ';' || c = ' ' || c = '\t') = [] := List.dropWhile_eq_nil_iff.2 h
  have hread : readOption s = none := by
    unfold readOption
    dsimp only
    rw [hskip]
    rfl
  rw [parseOptions_eq, hread]

/-- An option without a value is read back. -/
theorem parseOptions_none {keyword : List Char} (h : IsKeyword keyword) (hl : ∀ c ∈ l, isGap c = true)
    (rest : List Char) : parseOptions (l ++ printOption ⟨keyword, none⟩ ++ rest) =
      ⟨keyword, none⟩ :: parseOptions (';' :: rest) := by
  have hread := readOption_keyword h hl (Or.inr rfl) rest
  rw [if_neg (by decide)] at hread
  rw [printOption, List.append_assoc, List.append_assoc, List.singleton_append, parseOptions_eq, hread]

/-- What is read of an option with a value. -/
theorem parseOptions_some {keyword : List Char} (h : IsKeyword keyword) (hl : ∀ c ∈ l, isGap c = true)
    (v rest : List Char) : parseOptions (l ++ printOption ⟨keyword, some v⟩ ++ rest) =
      ⟨keyword, some (trim (readValue (v ++ ';' :: rest) 0 none).1)⟩ ::
        parseOptions (readValue (v ++ ';' :: rest) 0 none).2 := by
  have hread := readOption_keyword h hl (Or.inl rfl) (v ++ ';' :: rest)
  rw [if_pos rfl] at hread
  have htext : l ++ printOption ⟨keyword, some v⟩ ++ rest = l ++ (keyword ++ ':' :: (v ++ ';' :: rest)) := by
    simp [printOption]
  rw [htext, parseOptions_eq, hread]

/-- A value that is left open, or that the scanner stops in, is not read back. -/
theorem trim_readValue_ne {v : List Char} (h : ¬ Closes v) (rest : List Char) :
    trim (readValue (v ++ ';' :: rest) 0 none).1 ≠ v := by
  intro htrim
  have hfilter := filter_trim (readValue (v ++ ';' :: rest) 0 none).1
  rw [htrim] at hfilter
  have hlength := congrArg List.length hfilter
  cases hscan : scanValue v 0 none with
  | none =>
    obtain ⟨a, c, b, rfl, hc, hstop⟩ := readValue_stops hscan
    have hkept : (c :: b).filter (fun d => !isWhitespace d) = c :: b.filter fun d => !isWhitespace d :=
      List.filter_cons_of_pos (by simp [hc])
    rw [hstop] at hlength
    dsimp only at hlength
    rw [List.filter_append, hkept, List.length_append, List.length_cons] at hlength
    omega
  | some state =>
    obtain ⟨depth, quote⟩ := state
    have hopen : (depth, quote) ≠ (0, none) := fun heq => h (hscan.trans (congrArg some heq))
    have hquote := scanValue_quote List.mem_cons_self hscan
    rw [readValue_append hscan, readValue_semicolon hquote hopen, List.filter_append,
      List.filter_cons_of_pos (by decide), List.length_append, List.length_cons] at hlength
    omega

/-- **Options are read back as they were printed** exactly if each value, scanned alone, ends outside of quotes and
parentheses, and has no white space at its ends. -/
theorem parseOptions_print_iff (options : List RuleOption) (hvalid : ∀ o ∈ options, IsOption o) :
    parseOptions (printOptions options) = options ↔
      ∀ o ∈ options, ∀ v, o.value = some v → trim v = v ∧ Closes v := by
  have hprinted := printed_printOptions options
  generalize printOptions options = s at hprinted
  induction options generalizing s with
  | nil =>
    cases hprinted with
    | nil hs => exact iff_of_true (parseOptions_gap hs) nofun
  | cons o options ih =>
    have hrest := ih fun o ho => hvalid o (List.mem_cons_of_mem _ ho)
    have hkeyword := (hvalid o List.mem_cons_self).keyword
    rw [List.forall_mem_cons]
    cases hprinted with
    | @cons _ _ l s hl hs =>
      obtain ⟨keyword, value⟩ := o
      cases value with
      | none =>
        have hmore : _ ↔ _ := hrest (';' :: s) (hs.gap rfl)
        rw [parseOptions_none hkeyword hl, List.cons.injEq, and_iff_right rfl, hmore]
        exact (and_iff_right nofun).symm
      | some v =>
        have hone : (∀ w, (⟨keyword, some v⟩ : RuleOption).value = some w → trim w = w ∧ Closes w) ↔
            trim v = v ∧ Closes v := by
          constructor
          · exact fun h => h v rfl
          · rintro h w hw
            cases hw
            exact h
        rw [parseOptions_some hkeyword hl, List.cons.injEq, hone]
        by_cases hcloses : Closes v
        · have hread : readValue (v ++ ';' :: s) 0 none = (v, ';' :: s) := by
            rw [readValue_append hcloses]
            simp [readValue]
          have hmore : _ ↔ _ := hrest (';' :: s) (hs.gap rfl)
          rw [hread, hmore, and_iff_left hcloses]
          simp
        · refine iff_of_false (fun h => trim_readValue_ne hcloses s ?_) fun h => hcloses h.1.2
          exact Option.some.inj (congrArg RuleOption.value h.1)

/-! ## Examples -/

theorem isKeyword_of_all {keyword : List Char} (hne : keyword ≠ [])
    (h : (keyword.all fun c => c ≠ ':' && c ≠ ';' && !isWhitespace c) = true) : IsKeyword keyword := by
  refine ⟨hne, fun c hc => ?_⟩
  have hall := List.all_eq_true.1 h c hc
  simp only [Bool.and_eq_true, decide_eq_true_eq, Bool.not_eq_true'] at hall
  exact ⟨hall.1.1, hall.1.2, hall.2⟩

theorem isValue_of_all (h : (s.all fun c => !(['"', '\'', '(', ')', ';'].contains c)) = true) : IsValue s := by
  refine .plain fun c hc hmem => ?_
  have hall := List.all_eq_true.1 h c hc
  rw [List.contains_iff_mem.2 hmem] at hall
  cases hall

theorem escaped_of_all (h : (s.all fun c => !(['"', ';', '\\'].contains c)) = true) : Escaped s := by
  induction s with
  | nil => exact .nil
  | cons c s ih =>
    rw [List.all_cons, Bool.and_eq_true] at h
    refine .plain (fun hmem => ?_) (ih h.2)
    rw [List.contains_iff_mem.2 hmem] at h
    cases h.1

/-- The options of a rule with one that has a value in quotes. -/
def ruleOptions (keyword value : List Char) : List RuleOption :=
  [⟨keyword, some ('"' :: value ++ ['"'])⟩, ⟨"nocase".toList, none⟩, ⟨"sid".toList, some ['1']⟩]

theorem isOption_ruleOptions {keyword value : List Char} (hkeyword : IsKeyword keyword) (hvalue : Escaped value) :
    ∀ o ∈ ruleOptions keyword value, IsOption o := by
  simp only [ruleOptions, List.forall_mem_cons]
  refine ⟨⟨hkeyword, ?_⟩, ⟨isKeyword_of_all (by decide) (by decide), nofun⟩,
    ⟨isKeyword_of_all (by decide) (by decide), ?_⟩, nofun⟩
  · rintro v hv
    cases hv
    exact .quoted hvalue
  · rintro v hv
    cases hv
    exact isValue_of_all (by decide)

/-- A semicolon in a message is read back. -/
theorem parseOptions_print_message : parseOptions (printOptions (ruleOptions "msg".toList "a\\;(b".toList)) =
    ruleOptions "msg".toList "a\\;(b".toList := by
  have hvalue : Escaped "a\\;(b".toList :=
    .plain (by decide) (.escape (by decide) (escaped_of_all (by decide)))
  have hkeyword : IsKeyword "msg".toList := isKeyword_of_all (by decide) (by decide)
  refine (parseOptions_print_iff _ (isOption_ruleOptions hkeyword hvalue)).2 ?_
  simp only [ruleOptions, List.forall_mem_cons]
  refine ⟨?_, nofun, ?_, nofun⟩
  · rintro v hv
    cases hv
    exact ⟨by decide, by decide⟩
  · rintro v hv
    cases hv
    exact ⟨by decide, by decide⟩

/-- The scanner takes an escaped quote for the end of the text, and reads the options behind it as part of the value. -/
theorem quote_not_read_back : ¬ ∀ options, (∀ o ∈ options, IsOption o) →
    parseOptions (printOptions options) = options := by
  intro h
  have hvalue : Escaped "a\\\"b".toList :=
    .plain (by decide) (.escape (by decide) (escaped_of_all (by decide)))
  have hkeyword : IsKeyword "content".toList := isKeyword_of_all (by decide) (by decide)
  exact absurd (h _ (isOption_ruleOptions hkeyword hvalue)) (by decide)

end ThorFirewall.Ids
