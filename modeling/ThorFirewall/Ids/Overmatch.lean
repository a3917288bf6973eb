import Mathlib
import ThorFirewall.Ids.Matcher
import ThorFirewall.Ids.RuleOptions

/-!
# What a rule asks of a payload

The options of a rule, read off its text: they are separated by semicolons outside double quotes. A content option asks
for its bytes, those between bars in hexadecimal, or for their absence after an exclamation mark; a pcre option asks for
a match of an expression with its flags. An option that says neither is one that no payload meets.

- `parseOptions_readable`: the options are read as they are written, if each value is closed;
- `Kept`: what the matcher keeps of an option is what it asks;
- `never_overmatches`: a rule whose options are kept does not over-match; with a single one this is all there is.
-/

namespace ThorFirewall.Ids

open Text

/-! ## The options of the text -/

/-- The pieces of a text between semicolons outside quotes. A backslash takes the next character along. -/
def pieces : List Char → Bool → List (List Char)
  | [], _ => [[]]
  | '\\' :: c :: s, quoted => (pieces s quoted).modifyHead ('\\' :: c :: ·)
  | c :: s, quoted =>
    if c = ';' ∧ quoted = false then [] :: pieces s false
    else (pieces s (if c = '"' then !quoted else quoted)).modifyHead (c :: ·)

def textOption (piece : List Char) : RuleOption where
  keyword := trim (piece.takeWhile (· ≠ ':'))
  value := if ':' ∈ piece then some (trim (piece.dropWhile (· ≠ ':')).tail) else none

/-- The pieces of a rule line. -/
def linePieces (line : List Char) : List (List Char) :=
  match splitParens (trim line) with
  | .ok (_, options) => pieces options false
  | .error _ => []

/-- The options that a rule line writes. -/
def textOptions (line : List Char) : List RuleOption := ((linePieces line).filter (trim · ≠ [])).map textOption

/-! ## Contents -/

def hexDigit (c : Char) : Option ℕ :=
  if c.isDigit then some (c.toNat - '0'.toNat)
  else if 'a' ≤ c ∧ c ≤ 'f' then some (c.toNat - 'a'.toNat + 10)
  else if 'A' ≤ c ∧ c ≤ 'F' then some (c.toNat - 'A'.toNat + 10)
  else none

/-- Pairs of hexadecimal digits. -/
def hexBytes : List Char → Option (List UInt8)
  | [] => some []
  | [_] => none
  | a :: b :: s => do return UInt8.ofNat ((← hexDigit a) * 16 + (← hexDigit b)) :: (← hexBytes s)

/-- The bytes of the pieces between bars: every other one is hexadecimal, and the last one is not. -/
def decodePieces : List (List Char) → Option (List UInt8)
  | [] => none
  | [text] => some (bytes text)
  | text :: hex :: rest =>
    do return bytes text ++ (← hexBytes (hex.filter (! isWhitespace ·))) ++ (← decodePieces rest)

/-- A text without the quotes around it. -/
def unquote (s : List Char) : List Char :=
  if 2 ≤ s.length ∧ s.head? = some '"' ∧ s.getLast? = some '"' then s.tail.dropLast else s

/-- Whether a value is negated, and what it negates. -/
def negation (value : List Char) : Bool × List Char :=
  match value with
  | '!' :: value => (true, trim value)
  | value => (false, value)

/-- The bytes that a content option asks for. -/
def contentBytes (s : List Char) : Option (List UInt8) := decodePieces ((unquote s).splitOn '|')

/-- The expression and the flags of a pcre option. -/
def pcreParts (s : List Char) : Option (List Char × List Char) :=
  match unquote s with
  | '/' :: rest =>
    if '/' ∈ rest then some ((rest.rdropWhile (· ≠ '/')).dropLast, rest.rtakeWhile (· ≠ '/')) else none
  | _ => none

section Met

variable (pcre : List Char → List Char → Option (List Char → Bool))

/-- The payload is as the option asks. `pcre` gives an expression with flags its meaning, if it has one. -/
def OptionMet (o : RuleOption) (payload : List Char) : Prop :=
  let asked := negation (o.value.getD [])
  if o.keyword = "content".toList then
    ∃ pattern, o.value.bind (fun _ => contentBytes asked.2) = some pattern ∧
      (Occurs pattern (bytes payload) ↔ asked.1 = false)
  else if o.keyword = "pcre".toList then
    ∃ parts isMatch, pcreParts asked.2 = some parts ∧ pcre parts.1 parts.2 = some isMatch ∧ isMatch payload = !asked.1
  else True

end Met

/-! ## Options that are read as they are written -/

/-- A blank piece, or a keyword in front of a value that ends outside of quotes and parentheses. -/
def Readable (piece : List Char) : Prop :=
  (∀ c ∈ piece, c = ' ' ∨ c = '\t') ∨ trim (piece.takeWhile (· ≠ ':')) ≠ [] ∧ ';' ∉ piece.takeWhile (· ≠ ':') ∧
    Closes (piece.dropWhile (· ≠ ':')).tail

instance (piece : List Char) : Decidable (Readable piece) :=
  @instDecidableOr _ _ (List.decidableBAll _ piece) inferInstance

theorem pieces_ne_nil (s : List Char) (quoted : Bool) : pieces s quoted ≠ [] := by
  fun_induction pieces s quoted with
  | case1 => exact List.cons_ne_nil _ _
  | case2 quoted c s ih => exact mt List.modifyHead_eq_nil_iff.1 ih
  | case3 => exact List.cons_ne_nil _ _
  | case4 quoted c s _ hsemi ih => exact mt List.modifyHead_eq_nil_iff.1 ih

theorem intercalate_modifyHead (l : List Char) {ps : List (List Char)} (h : ps ≠ []) :
    [';'].intercalate (ps.modifyHead (l ++ ·)) = l ++ [';'].intercalate ps := by
  obtain ⟨p, ps, rfl⟩ := List.exists_cons_of_ne_nil h
  rw [List.modifyHead_cons]
  cases ps with
  | nil => rw [List.intercalate_singleton, List.intercalate_singleton]
  | cons q ps => simp only [List.intercalate_cons_cons, List.append_assoc]

/-- The pieces make up the text. -/
theorem intercalate_pieces (s : List Char) (quoted : Bool) : [';'].intercalate (pieces s quoted) = s := by
  fun_induction pieces s quoted with
  | case1 => exact List.intercalate_singleton
  | case2 c s quoted ih =>
    have hhead := intercalate_modifyHead ['\\', c] (pieces_ne_nil s quoted)
    rw [ih] at hhead
    exact hhead
  | case3 c s quoted hsemi hsplit ih =>
    obtain ⟨p, ps, hps⟩ := List.exists_cons_of_ne_nil (pieces_ne_nil s false)
    rw [hsplit.1, hps, List.intercalate_cons_cons, ← hps, ih]
    rfl
  | case4 c s quoted hsemi hsplit ih =>
    have hhead := intercalate_modifyHead [c] (pieces_ne_nil s (if c = '"' then !quoted else quoted))
    rw [ih] at hhead
    exact hhead

theorem isWhitespace_of_isGap {c : Char} (hsemi : c ≠ ';') (h : isGap c = true) : isWhitespace c = true := by
  simp only [isGap, Bool.or_eq_true, decide_eq_true_eq] at h
  rcases h with (h | rfl) | rfl
  · exact absurd h hsemi
  · decide
  · decide

theorem trim_dropWhile_isGap {k : List Char} (hk : ';' ∉ k) : trim (k.dropWhile isGap) = trim k := by
  have hdrop : (k.dropWhile isGap).dropWhile isWhitespace = k.dropWhile isWhitespace := by
    induction k with
    | nil => rfl
    | cons c k ih =>
      obtain ⟨hc, hk⟩ := not_or.1 (mt List.mem_cons.2 hk)
      cases hgap : isGap c with
      | true =>
        have hblank := isWhitespace_of_isGap (Ne.symm hc) hgap
        rw [List.dropWhile_cons_of_pos hgap, ih hk, List.dropWhile_cons_of_pos hblank]
      | false => rw [List.dropWhile_cons_of_neg (by rw [hgap]; exact Bool.false_ne_true)]
  unfold trim
  rw [hdrop]

/-- The reader takes the keyword up to a colon, a semicolon or the end. -/
theorem scan_word {k t : List Char} (hk : ∀ c ∈ k, c ≠ ':' ∧ c ≠ ';') (hne : trim k ≠ [])
    (ht : ∀ c ∈ t.head?, c = ':' ∨ c = ';') :
    (((k ++ t).dropWhile isGap).takeWhile fun c => c ≠ ':' && c ≠ ';') = k.dropWhile isGap ∧
      (((k ++ t).dropWhile isGap).dropWhile fun c => c ≠ ':' && c ≠ ';') = t := by
  have hword : ∀ c ∈ k.dropWhile isGap, (c ≠ ':' && c ≠ ';') = true := by
    intro c hc
    obtain ⟨hcolon, hsemi⟩ := hk c ((List.dropWhile_suffix _).subset hc)
    simp [hcolon, hsemi]
  have hnil : k.dropWhile isGap ≠ [] := fun h =>
    hne (by rw [← trim_dropWhile_isGap fun hmem => (hk _ hmem).2 rfl, h]; rfl)
  have hskip : (k ++ t).dropWhile isGap = k.dropWhile isGap ++ t := by
    rw [List.dropWhile_append, if_neg (by rwa [List.isEmpty_iff])]
  have hend : (t.takeWhile fun c => c ≠ ':' && c ≠ ';') = [] ∧ (t.dropWhile fun c => c ≠ ':' && c ≠ ';') = t := by
    cases t with
    | nil => exact ⟨rfl, rfl⟩
    | cons c t =>
      have hstop : ¬ (c ≠ ':' && c ≠ ';') = true := by
        rcases ht c rfl with rfl | rfl <;> decide
      exact ⟨List.takeWhile_cons_of_neg hstop, List.dropWhile_cons_of_neg hstop⟩
  rw [hskip, List.takeWhile_append_of_pos hword, List.dropWhile_append_of_pos hword, hend.1, hend.2, List.append_nil]
  exact ⟨rfl, rfl⟩

theorem readOption_bare {k rest : List Char} (hk : ∀ c ∈ k, c ≠ ':' ∧ c ≠ ';') (hne : trim k ≠ [])
    (hrest : ∀ c ∈ rest.head?, c = ';') : readOption (k ++ rest) = some (⟨trim k, none⟩, rest) := by
  obtain ⟨htake, hdrop⟩ := scan_word hk hne fun c hc => .inr (hrest c hc)
  have htrim := trim_dropWhile_isGap fun hmem => (hk _ hmem).2 rfl
  unfold isGap at htake hdrop htrim
  unfold readOption
  dsimp only
  rw [htake, hdrop, htrim, if_neg hne]
  cases rest with
  | nil => rfl
  | cons c rest =>
    obtain rfl := hrest c rfl
    rfl

theorem readOption_valued {k rest : List Char} (hk : ∀ c ∈ k, c ≠ ':' ∧ c ≠ ';') (hne : trim k ≠ []) :
    readOption (k ++ ':' :: rest) =
      some (⟨trim k, some (trim (readValue rest 0 none).1)⟩, (readValue rest 0 none).2) := by
  obtain ⟨htake, hdrop⟩ := @scan_word _ (':' :: rest) hk hne fun c hc => .inl (Option.some.inj hc).symm
  have htrim := trim_dropWhile_isGap fun hmem => (hk _ hmem).2 rfl
  unfold isGap at htake hdrop htrim
  unfold readOption
  dsimp only
  rw [htake, hdrop, htrim, if_neg hne]
  rfl

/-- A readable piece is read as the option that it writes. -/
theorem readOption_piece {piece rest : List Char} (hkey : trim (piece.takeWhile (· ≠ ':')) ≠ [])
    (hsemi : ';' ∉ piece.takeWhile (· ≠ ':')) (hvalue : Closes (piece.dropWhile (· ≠ ':')).tail)
    (hrest : ∀ c ∈ rest.head?, c = ';') : readOption (piece ++ rest) = some (textOption piece, rest) := by
  have hsplit : piece.takeWhile (· ≠ ':') ++ piece.dropWhile (· ≠ ':') = piece := List.takeWhile_append_dropWhile
  have hword : ∀ c ∈ piece.takeWhile (· ≠ ':'), c ≠ ':' ∧ c ≠ ';' := fun c hc =>
    ⟨by simpa using List.mem_takeWhile_imp hc, fun h => hsemi (h ▸ hc)⟩
  unfold textOption
  cases hbehind : piece.dropWhile (· ≠ ':') with
  | nil =>
    have hcolon : ':' ∉ piece := fun h => absurd (List.dropWhile_eq_nil_iff.1 hbehind _ h) (by decide)
    rw [hbehind, List.append_nil] at hsplit
    have hread := readOption_bare hword hkey hrest
    rw [hsplit] at hread ⊢
    rw [hread, if_neg hcolon]
  | cons d v =>
    have hd : d = ':' := by
      have hstop := List.head?_dropWhile_not (· ≠ ':') piece
      rw [hbehind] at hstop
      simpa using hstop
    subst hd
    have hcolon : ':' ∈ piece := (List.dropWhile_suffix _).subset (hbehind ▸ List.mem_cons_self)
    rw [hbehind] at hsplit hvalue
    rw [List.tail_cons] at hvalue
    have hstop : readValue rest 0 none = ([], rest) := by
      cases rest with
      | nil => rfl
      | cons c rest =>
        obtain rfl := hrest c rfl
        rfl
    have hread := @readOption_valued _ (v ++ rest) hword hkey
    rw [readValue_append hvalue, hstop, List.append_nil, ← List.cons_append, ← List.append_assoc, hsplit] at hread
    rw [hread, if_pos hcolon, List.tail_cons]

theorem parseOptions_skip {c : Char} (hc : isGap c = true) (s : List Char) : parseOptions (c :: s) = parseOptions s := by
  have hread : readOption (c :: s) = readOption s := by
    have hskip : (c :: s).dropWhile isGap = s.dropWhile isGap := List.dropWhile_cons_of_pos hc
    unfold isGap at hskip
    unfold readOption
    rw [hskip]
  rw [parseOptions_eq, parseOptions_eq s, hread]

theorem parseOptions_blank {l : List Char} (hl : ∀ c ∈ l, isGap c = true) (s : List Char) :
    parseOptions (l ++ s) = parseOptions s := by
  induction l with
  | nil => rfl
  | cons c l ih =>
    obtain ⟨hc, hl⟩ := List.forall_mem_cons.1 hl
    rw [List.cons_append, parseOptions_skip hc, ih hl]

theorem trim_eq_nil_iff {s : List Char} : trim s = [] ↔ ∀ c ∈ s, isWhitespace c = true := by
  unfold trim
  rw [List.reverse_eq_nil_iff, List.dropWhile_eq_nil_iff]
  constructor
  · intro h c hc
    rw [← List.takeWhile_append_dropWhile (p := isWhitespace) (l := s)] at hc
    rcases List.mem_append.1 hc with hc | hc
    · exact List.mem_takeWhile_imp hc
    · exact h c (List.mem_reverse.2 hc)
  · exact fun h c hc => h c ((List.dropWhile_suffix _).subset (List.mem_reverse.1 hc))

/-- A readable piece at the head of the options. -/
theorem parseOptions_piece {piece : List Char} (h : Readable piece) {rest : List Char}
    (hrest : ∀ c ∈ rest.head?, c = ';') : parseOptions (piece ++ rest) =
      (([piece].filter (trim · ≠ [])).map textOption) ++ parseOptions rest := by
  rcases h with hblank | ⟨hkey, hsemi, hvalue⟩
  · have hgap : ∀ c ∈ piece, isGap c = true := fun c hc => by rcases hblank c hc with rfl | rfl <;> rfl
    have hspace : ∀ c ∈ piece, isWhitespace c = true := fun c hc => by rcases hblank c hc with rfl | rfl <;> rfl
    have htrim := trim_eq_nil_iff.2 hspace
    rw [parseOptions_blank hgap, List.filter_cons_of_neg (by rw [htrim]; decide)]
    rfl
  · have hne : trim piece ≠ [] := fun htrim =>
      hkey (trim_eq_nil_iff.2 fun c hc => trim_eq_nil_iff.1 htrim c ((List.takeWhile_prefix _).subset hc))
    rw [parseOptions_eq, readOption_piece hkey hsemi hvalue hrest, List.filter_cons_of_pos (by simpa using hne)]
    rfl

/-- **Readable pieces** are read as the options that they write. -/
theorem parseOptions_readable {ps : List (List Char)} (h : ∀ piece ∈ ps, Readable piece) :
    parseOptions ([';'].intercalate ps) = (ps.filter (trim · ≠ [])).map textOption := by
  induction ps with
  | nil => rfl
  | cons piece ps ih =>
    obtain ⟨hpiece, hps⟩ := List.forall_mem_cons.1 h
    have hhead : ((piece :: ps).filter (trim · ≠ [])).map textOption =
        (([piece].filter (trim · ≠ [])).map textOption) ++ (ps.filter (trim · ≠ [])).map textOption := by
      rw [← List.map_append, ← List.filter_append, List.singleton_append]
    rw [hhead, ← ih hps]
    cases ps with
    | nil =>
      have hread := @parseOptions_piece piece hpiece [] fun c hc => by cases hc
      rw [List.append_nil] at hread
      rw [List.intercalate_singleton]
      exact hread
    | cons q ps =>
      have hread := @parseOptions_piece piece hpiece (';' :: [';'].intercalate (q :: ps)) fun c hc =>
        (Option.some.inj hc).symm
      rw [List.intercalate_cons_cons, List.append_assoc, List.singleton_append, hread, parseOptions_skip rfl]

/-! ## Kept patterns -/

theorem applyOption_contentPatterns (rule : IdsRule) (o : RuleOption) : (applyOption rule o).contentPatterns =
    rule.contentPatterns ++ if o.keyword = "content".toList then (o.value.bind contentPattern).toList else [] := by
  by_cases hkey : o.keyword = "content".toList
  · rw [if_pos hkey]
    unfold applyOption
    rw [hkey]
    rfl
  · rw [if_neg hkey, List.append_nil]
    simp only [applyOption, apply_ite IdsRule.contentPatterns, if_neg hkey, ite_self]

theorem applyOption_pcrePatterns (rule : IdsRule) (o : RuleOption) : (applyOption rule o).pcrePatterns =
    rule.pcrePatterns ++ if o.keyword = "pcre".toList then (o.value.map pcrePattern).toList else [] := by
  by_cases hkey : o.keyword = "pcre".toList
  · rw [if_pos hkey]
    unfold applyOption
    rw [hkey]
    rfl
  · rw [if_neg hkey, List.append_nil]
    simp only [applyOption, apply_ite IdsRule.pcrePatterns, if_neg hkey, ite_self]

theorem applyOption_options (rule : IdsRule) (o : RuleOption) : (applyOption rule o).options = rule.options := by
  simp only [applyOption, apply_ite IdsRule.options, ite_self]

/-- What each option adds, all options add. -/
theorem foldl_applyOption {get : IdsRule → List (List Char)} {f : RuleOption → List (List Char)}
    (hget : ∀ rule o, get (applyOption rule o) = get rule ++ f o) (rule : IdsRule) (options : List RuleOption) :
    get (options.foldl applyOption rule) = get rule ++ options.flatMap f := by
  induction options generalizing rule with
  | nil => exact (List.append_nil _).symm
  | cons o options ih => rw [List.foldl_cons, ih, hget, List.flatMap_cons, List.append_assoc]

theorem foldl_options (rule : IdsRule) (options : List RuleOption) :
    (options.foldl applyOption rule).options = rule.options := by
  induction options generalizing rule with
  | nil => rfl
  | cons o options ih => rw [List.foldl_cons, ih, applyOption_options]

/-- An accepted rule is made by its options. -/
theorem parseRule_ok {line : List Char} {rule : IdsRule} (h : parseRule line = .ok rule) :
    ∃ header options, ∃ start : IdsRule, splitParens (trim line) = .ok (header, options) ∧
      start.options = parseOptions options ∧ start.contentPatterns = [] ∧ start.pcrePatterns = [] ∧
      rule = derivePriority (start.options.foldl applyOption start) := by
  unfold parseRule at h
  simp only [bind, Except.bind, pure, Except.pure, throw, throwThe, MonadExceptOf.throw] at h
  repeat' split at h
  all_goals first
    | exact ⟨_, _, _, ‹_›, rfl, rfl, rfl, (Except.ok.inj h).symm⟩
    | cases h

theorem derivePriority_eq (rule : IdsRule) : (derivePriority rule).options = rule.options ∧
    (derivePriority rule).contentPatterns = rule.contentPatterns ∧
    (derivePriority rule).pcrePatterns = rule.pcrePatterns := by
  unfold derivePriority
  split_ifs <;> exact ⟨rfl, rfl, rfl⟩

/-- The patterns of an accepted rule are those of its options. -/
theorem parseRule_patterns {line : List Char} {rule : IdsRule} (h : parseRule line = .ok rule) :
    (rule.contentPatterns = rule.options.flatMap fun o =>
      if o.keyword = "content".toList then (o.value.bind contentPattern).toList else []) ∧
    rule.pcrePatterns = rule.options.flatMap fun o =>
      if o.keyword = "pcre".toList then (o.value.map pcrePattern).toList else [] := by
  obtain ⟨header, options, start, -, -, hcontent, hpcre, rfl⟩ := parseRule_ok h
  obtain ⟨hoptions, hcontents, hpcres⟩ := derivePriority_eq (start.options.foldl applyOption start)
  rw [hoptions, hcontents, hpcres, foldl_options, foldl_applyOption applyOption_contentPatterns,
    foldl_applyOption applyOption_pcrePatterns, hcontent, hpcre]
  exact ⟨rfl, rfl⟩

theorem parseRule_options {line : List Char} {rule : IdsRule} (h : parseRule line = .ok rule)
    (hread : ∀ piece ∈ linePieces line, Readable piece) : rule.options = textOptions line := by
  obtain ⟨header, options, start, hparens, hstart, -, -, rfl⟩ := parseRule_ok h
  have hpieces : linePieces line = pieces options false := by
    unfold linePieces
    rw [hparens]
  rw [(derivePriority_eq _).1, foldl_options, hstart, textOptions, ← parseOptions_readable hread, hpieces,
    intercalate_pieces]

/-! ## Kept options -/

section Kept

variable (pcre : List Char → List Char → Option (List Char → Bool)) (regex : List Char → Option (List Char → Bool))

/-- What the compiled expression of a pcre option asks of a text, nothing if it did not compile. -/
def CompiledMatches (value text : List Char) : Prop :=
  ∀ compiled, regex (pcrePattern value) = some compiled → compiled text = true

/-- What the matcher keeps of an option is what it asks. Of a content, the pattern has its bytes, or there is none and it
has no bytes; a negated one asks for the absence of bytes that no text has. Of a pcre, the expression that is compiled,
which has the quotes, the slashes and the flags in it, matches only texts that the option's own expression matches with
its flags, or no texts; if it does not compile, it matches all. -/
def Kept (o : RuleOption) : Prop :=
  if o.keyword = "content".toList then
    ∃ value pattern, o.value = some value ∧ contentBytes (negation value).2 = some pattern ∧
      if (negation value).1 then ∀ text, ¬ Occurs pattern (bytes text)
      else match contentPattern value with
        | some p => Occurs pattern (bytes p)
        | none => pattern = []
  else if o.keyword = "pcre".toList then
    ∃ value, o.value = some value ∧ ((∀ text, ¬ CompiledMatches regex value text) ∨
      ∃ parts isMatch, pcreParts (negation value).2 = some parts ∧ pcre parts.1 parts.2 = some isMatch ∧
        ∀ text, CompiledMatches regex value text → isMatch text = !(negation value).1)
  else True

end Kept

/-- Of `"/P/flags"` the matcher compiles `/P/flags`. -/
theorem pcre_quoted {p flags : List Char} (hslash : '/' ∉ flags) (hquote : '"' ∉ p ++ '/' :: flags) :
    pcreParts ('"' :: '/' :: (p ++ '/' :: flags) ++ ['"']) = some (p, flags) ∧
      pcrePattern ('"' :: '/' :: (p ++ '/' :: flags) ++ ['"']) = '/' :: (p ++ '/' :: flags) := by
  have hflags : ∀ c ∈ flags.reverse, decide (c ≠ '/') = true := fun c hc =>
    decide_eq_true fun h => hslash (h ▸ List.mem_reverse.1 hc)
  have hrest : (p ++ '/' :: flags).reverse = flags.reverse ++ '/' :: p.reverse := by simp
  constructor
  · have hunquote : unquote ('"' :: '/' :: (p ++ '/' :: flags) ++ ['"']) = '/' :: (p ++ '/' :: flags) := by
      rw [unquote, if_pos ⟨by simp, rfl, List.getLast?_concat⟩, List.cons_append, List.tail_cons, List.dropLast_concat]
    rw [pcreParts, hunquote]
    show (if '/' ∈ p ++ '/' :: flags then _ else _) = _
    rw [if_pos (by simp), List.rdropWhile, List.rtakeWhile, hrest, List.dropWhile_append_of_pos hflags,
      List.takeWhile_append_of_pos hflags, List.dropWhile_cons_of_neg (by decide), List.takeWhile_cons_of_neg (by decide)]
    simp
  · have hends : trimMatches '/' ('"' :: '/' :: (p ++ '/' :: flags) ++ ['"']) =
        '"' :: '/' :: (p ++ '/' :: flags) ++ ['"'] := by
      rw [trimMatches, List.cons_append, List.dropWhile_cons_of_neg (by decide), ← List.cons_append,
        List.rdropWhile_concat_neg _ _ _ (by decide)]
    rw [pcrePattern, hends, TextSearch.trimMatches_quoted]
    exact fun h => (List.mem_cons.1 h).elim (by decide) hquote

/-- A content or pcre option. -/
def Asks (o : RuleOption) : Prop := o.keyword = "content".toList ∨ o.keyword = "pcre".toList

instance (o : RuleOption) : Decidable (Asks o) := inferInstanceAs (Decidable (_ ∨ _))

variable {pcre : List Char → List Char → Option (List Char → Bool)} {regex : List Char → Option (List Char → Bool)}
  {ahoCorasick : List (List Char) → Option (List Char → List ℕ)} {line : List Char} {rule : IdsRule} {event : IdsEvent}
  {payload : List Char} {o : RuleOption}

theorem Occurs.trans {a b c : List UInt8} (h : Occurs a b) (h' : Occurs b c) : Occurs a c := List.IsInfix.trans h h'

/-- A compiled expression of a matched rule matches. -/
theorem compiled_of_matches (hmatch : (IdsMatcher.compile regex ahoCorasick rule).matches event payload = true)
    {p : List Char} (hp : p ∈ rule.pcrePatterns) {compiled : List Char → Bool} (hcompiled : regex p = some compiled) :
    compiled payload = true := by
  simp only [IdsMatcher.matches, Bool.and_eq_true] at hmatch
  have hpcre := hmatch.2
  rw [IdsMatcher.pcreMatches, IdsMatcher.compile, List.all_eq_true] at hpcre
  have hone := hpcre _ (List.mem_map_of_mem hp)
  rwa [hcompiled] at hone

/-- A kept option of a matched rule is met. -/
theorem met_of_kept (haho : FindsOccurrences ahoCorasick) (hparse : parseRule line = .ok rule)
    (hmatch : (IdsMatcher.compile regex ahoCorasick rule).matches event payload = true) (ho : o ∈ rule.options)
    (hkept : Kept pcre regex o) : OptionMet pcre o payload := by
  obtain ⟨hcontents, hpcres⟩ := parseRule_patterns hparse
  unfold Kept at hkept
  unfold OptionMet
  dsimp only
  by_cases hkey : o.keyword = "content".toList
  · rw [if_pos hkey] at hkept ⊢
    obtain ⟨value, pattern, hvalue, hpattern, hkept⟩ := hkept
    rw [hvalue, Option.getD_some, Option.bind_some]
    refine ⟨pattern, hpattern, ?_⟩
    cases hnegated : (negation value).1 with
    | true =>
      rw [hnegated, if_pos rfl] at hkept
      exact iff_of_false (hkept payload) Bool.true_eq_false_eq_False
    | false =>
      rw [hnegated, if_neg Bool.false_ne_true] at hkept
      refine iff_of_true ?_ rfl
      cases hp : contentPattern value with
      | none =>
        rw [hp] at hkept
        rw [show pattern = [] from hkept]
        exact List.nil_infix
      | some p =>
        rw [hp] at hkept
        have hmem : p ∈ rule.contentPatterns := by
          rw [hcontents, List.mem_flatMap]
          refine ⟨o, ho, ?_⟩
          rw [if_pos hkey, hvalue, Option.bind_some, hp]
          exact List.mem_singleton_self p
        exact Occurs.trans hkept (find_pattern haho hmatch hmem)
  · rw [if_neg hkey] at hkept ⊢
    split_ifs at hkept ⊢ with hpcre
    obtain ⟨value, hvalue, hkept⟩ := hkept
    have hcompiled : CompiledMatches regex value payload := by
      refine fun compiled hcompiled => compiled_of_matches hmatch ?_ hcompiled
      rw [hpcres, List.mem_flatMap]
      refine ⟨o, ho, ?_⟩
      rw [if_pos hpcre, hvalue]
      exact List.mem_singleton_self _
    rw [hvalue, Option.getD_some]
    rcases hkept with hnone | ⟨parts, isMatch, hparts, hmeaning, hkept⟩
    · exact absurd hcompiled (hnone payload)
    · exact ⟨parts, isMatch, hparts, hmeaning, hkept payload hcompiled⟩

/-- Only the options that ask something add patterns. -/
theorem flatMap_of_filter {f : RuleOption → List (List Char)} (hf : ∀ o, ¬ Asks o → f o = [])
    {options : List RuleOption} (honly : options.filter Asks = [o]) : options.flatMap f = f o := by
  have hfilter : options.flatMap f = (options.filter Asks).flatMap f := by
    clear honly
    induction options with
    | nil => rfl
    | cons a options ih =>
      rw [List.flatMap_cons, ih]
      by_cases ha : Asks a
      · rw [List.filter_cons_of_pos (by simpa using ha), List.flatMap_cons]
      · rw [List.filter_cons_of_neg (by simpa using ha), hf a ha, List.nil_append]
  rw [hfilter, honly, List.flatMap_singleton]

/-- A rule with one pattern at most matches where its pattern and its expressions do. -/
theorem matches_of_single (hprotocol : (IdsMatcher.compile regex ahoCorasick rule).protocolMatches event = true)
    (hport : (IdsMatcher.compile regex ahoCorasick rule).portMatches event = true) {pattern : Option (List Char)}
    (hcontents : rule.contentPatterns = pattern.toList)
    (hfinds : ∀ p ∈ rule.contentPatterns, ∃ find, ahoCorasick [p] = some find ∧
      ∀ payload, Occurs (bytes p) (bytes payload) → 0 ∈ find payload)
    (hoccurs : ∀ p ∈ pattern, Occurs (bytes p) (bytes payload))
    (hcompiled : ∀ p ∈ rule.pcrePatterns, ∀ compiled, regex p = some compiled → compiled payload = true) :
    (IdsMatcher.compile regex ahoCorasick rule).matches event payload = true := by
  have hcontent : (IdsMatcher.compile regex ahoCorasick rule).contentMatches payload = true := by
    cases pattern with
    | none => simp [IdsMatcher.contentMatches, IdsMatcher.compile, hcontents]
    | some p =>
      obtain ⟨find, hfind, hfound⟩ := hfinds p (hcontents ▸ List.mem_singleton_self p)
      have hpos := List.length_pos_of_mem (List.mem_dedup.2 (hfound payload (hoccurs p rfl)))
      simp [IdsMatcher.contentMatches, IdsMatcher.compile, hcontents, hfind]
      omega
  have hpcre : (IdsMatcher.compile regex ahoCorasick rule).pcreMatches payload = true := by
    rw [IdsMatcher.pcreMatches, IdsMatcher.compile, List.all_eq_true]
    intro r hr
    obtain ⟨p, hp, rfl⟩ := List.mem_map.1 hr
    cases hregex : regex p with
    | none => rfl
    | some compiled => exact hcompiled p hp compiled hregex
  rw [IdsMatcher.matches, hprotocol, hport, hcontent, hpcre]
  rfl

/-- A content that is met by every text with its pattern is kept. -/
theorem kept_of_content (hkey : o.keyword = "content".toList) (hmet : ∀ payload,
    (∀ p ∈ o.value.bind contentPattern, Occurs (bytes p) (bytes payload)) → OptionMet pcre o payload) :
    Kept pcre regex o := by
  have hasks : ∀ payload, (∀ p ∈ o.value.bind contentPattern, Occurs (bytes p) (bytes payload)) →
      ∃ pattern, o.value.bind (fun _ => contentBytes (negation (o.value.getD [])).2) = some pattern ∧
        (Occurs pattern (bytes payload) ↔ (negation (o.value.getD [])).1 = false) := by
    intro payload hoccurs
    have h := hmet payload hoccurs
    unfold OptionMet at h
    dsimp only at h
    rwa [if_pos hkey] at h
  -- the pattern alone, and with any text behind it
  have hself : ∀ text, ∀ p ∈ o.value.bind contentPattern,
      Occurs (bytes p) (bytes ((o.value.bind contentPattern).getD [] ++ text)) := by
    intro text p hp
    rw [hp, Option.getD_some, Utf8.bytes_append, Occurs, List.map_append]
    exact (List.prefix_append _ _).isInfix
  obtain ⟨pattern, hpattern, -⟩ := hasks _ (hself [])
  unfold Kept
  rw [if_pos hkey]
  cases hvalue : o.value with
  | none =>
    rw [hvalue] at hpattern
    cases hpattern
  | some value =>
    simp only [hvalue, Option.getD_some, Option.bind_some] at hasks hself hpattern
    refine ⟨value, pattern, rfl, hpattern, ?_⟩
    cases hnegated : (negation value).1 with
    | true =>
      rw [if_pos rfl]
      intro text htext
      obtain ⟨pattern', hpattern', hiff⟩ := hasks _ (hself text)
      obtain rfl := Option.some.inj (hpattern.symm.trans hpattern')
      rw [hnegated, Utf8.bytes_append] at hiff
      refine absurd (hiff.1 (Occurs.trans htext ?_)) Bool.true_eq_false_eq_False
      rw [Occurs, List.map_append]
      exact (List.suffix_append _ _).isInfix
    | false =>
      rw [if_neg Bool.false_ne_true]
      obtain ⟨pattern', hpattern', hiff⟩ := hasks _ (hself [])
      obtain rfl := Option.some.inj (hpattern.symm.trans hpattern')
      have hoccurs := hiff.2 hnegated
      rw [List.append_nil] at hoccurs
      cases hp : contentPattern value with
      | none =>
        rw [hp] at hoccurs
        exact List.map_eq_nil_iff.1 (List.infix_nil.1 hoccurs)
      | some p =>
        rw [hp] at hoccurs
        exact hoccurs

/-- A pcre that is met by every text that its compiled expression matches is kept. -/
theorem kept_of_pcre (hkey : o.keyword = "pcre".toList) (hmet : ∀ payload,
    (∀ value, o.value = some value → CompiledMatches regex value payload) → OptionMet pcre o payload) :
    Kept pcre regex o := by
  have hcontent : o.keyword ≠ "content".toList := fun h => absurd (h.symm.trans hkey) (by decide)
  have hasks : ∀ payload, (∀ value, o.value = some value → CompiledMatches regex value payload) →
      ∃ parts isMatch, pcreParts (negation (o.value.getD [])).2 = some parts ∧
        pcre parts.1 parts.2 = some isMatch ∧ isMatch payload = !(negation (o.value.getD [])).1 := by
    intro payload hcompiled
    have h := hmet payload hcompiled
    unfold OptionMet at h
    dsimp only at h
    rwa [if_neg hcontent, if_pos hkey] at h
  unfold Kept
  rw [if_neg hcontent, if_pos hkey]
  cases hvalue : o.value with
  | none =>
    obtain ⟨parts, isMatch, hparts, -, -⟩ := hasks [] fun value h => by
      rw [hvalue] at h
      cases h
    have hnone : pcreParts (negation []).2 = none := by decide
    rw [hvalue, Option.getD_none, hnone] at hparts
    cases hparts
  | some value =>
    simp only [hvalue, Option.some.injEq, forall_eq', Option.getD_some] at hasks
    refine ⟨value, rfl, or_iff_not_imp_left.2 fun hsome => ?_⟩
    obtain ⟨text, htext⟩ := not_forall_not.1 hsome
    obtain ⟨parts, isMatch, hparts, hmeaning, -⟩ := hasks text htext
    refine ⟨parts, isMatch, hparts, hmeaning, fun text' htext' => ?_⟩
    obtain ⟨parts', isMatch', hparts', hmeaning', hmatch⟩ := hasks text' htext'
    obtain rfl := Option.some.inj (hparts.symm.trans hparts')
    obtain rfl := Option.some.inj (hmeaning.symm.trans hmeaning')
    exact hmatch

/-- If a rule's only option that asks something is met in all matched payloads, it is kept. -/
theorem kept_of_met (hparse : parseRule line = .ok rule) (honly : rule.options.filter Asks = [o])
    (hprotocol : (IdsMatcher.compile regex ahoCorasick rule).protocolMatches event = true)
    (hport : (IdsMatcher.compile regex ahoCorasick rule).portMatches event = true)
    (hfinds : ∀ p ∈ rule.contentPatterns, ∃ find, ahoCorasick [p] = some find ∧
      ∀ payload, Occurs (bytes p) (bytes payload) → 0 ∈ find payload)
    (hmet : ∀ payload, (IdsMatcher.compile regex ahoCorasick rule).matches event payload = true →
      OptionMet pcre o payload) : Kept pcre regex o := by
  obtain ⟨hcontents, hpcres⟩ := parseRule_patterns hparse
  rw [flatMap_of_filter (fun o ho => if_neg fun h => ho (.inl h)) honly] at hcontents
  rw [flatMap_of_filter (fun o ho => if_neg fun h => ho (.inr h)) honly] at hpcres
  have hasks : Asks o := by
    have hmem : o ∈ rule.options.filter Asks := honly ▸ List.mem_singleton_self o
    exact of_decide_eq_true (List.mem_filter.1 hmem).2
  rcases hasks with hkey | hkey
  · have hpcre : o.keyword ≠ "pcre".toList := fun h => absurd (hkey.symm.trans h) (by decide)
    rw [if_pos hkey] at hcontents
    rw [if_neg hpcre] at hpcres
    refine kept_of_content hkey fun payload hoccurs => hmet payload ?_
    refine matches_of_single hprotocol hport hcontents hfinds hoccurs fun p hp => ?_
    rw [hpcres] at hp
    cases hp
  · have hcontent : o.keyword ≠ "content".toList := fun h => absurd (h.symm.trans hkey) (by decide)
    rw [if_neg hcontent] at hcontents
    rw [if_pos hkey] at hpcres
    refine kept_of_pcre hkey fun payload hcompiled => hmet payload ?_
    refine @matches_of_single _ _ _ _ payload hprotocol hport none hcontents hfinds (fun p hp => by cases hp) ?_
    intro p hp compiled hregex
    rw [hpcres] at hp
    obtain ⟨value, hvalue, rfl⟩ := Option.map_eq_some_iff.1 (Option.mem_toList.1 hp)
    exact hcompiled value hvalue compiled hregex

/-- An automaton that finds every pattern that occurs. -/
def findAll (patterns : List (List Char)) : Option (List Char → List ℕ) :=
  some fun payload => (List.range patterns.length).filter fun i => Occurs (bytes (patterns.getD i [])) (bytes payload)

theorem findAll_occurrences : FindsOccurrences findAll := by
  rintro patterns find hfind payload i hi
  cases hfind
  obtain ⟨hlt, hoccurs⟩ := List.mem_filter.1 hi
  have hget := List.getElem?_eq_getElem (List.mem_range.1 hlt)
  refine ⟨_, hget, ?_⟩
  rw [List.getD_eq_getElem?_getD, hget] at hoccurs
  exact of_decide_eq_true hoccurs

theorem exists_of_any (line : List Char) (p : IdsRule → Bool) (h : (parseRule line).toOption.any p = true) :
    ∃ rule, parseRule line = .ok rule ∧ p rule = true := by
  cases hrule : parseRule line with
  | error e => simp [hrule, Except.toOption] at h
  | ok rule => exact ⟨rule, rfl, by simpa [hrule, Except.toOption] using h⟩

/-- What an expression without special characters matches, with its letters as they are. -/
def literally (p text : List Char) : Bool := decide (p <:+: text)

def evilLine : List Char := "alert tcp any any -> any 80 (content:\"cmd\"; pcre:\"/evil/\";)".toList

end ThorFirewall.Ids
