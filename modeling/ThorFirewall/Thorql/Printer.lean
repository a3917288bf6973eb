import Mathlib
import ThorFirewall.Thorql.Exactness

/-!
# Printing a statement of ThorQL

Strings are printed with a backslash before quotes and backslashes, and expressions with parentheses only where an
operator binds less than the one around it.

- `Spells`: a text is lexed as some tokens, before whatever does not go on with its last word or number;
- `parse_print`: a printed statement is parsed to the statement.
-/

namespace ThorFirewall.Thorql

open Text

variable {F : Type*}

/-! ## Names -/

def keywords : List (List Char) :=
  ["SELECT", "FROM", "JOIN", "ON", "WHERE", "AND", "OR", "NOT", "LIKE"].map String.toList

def nameStart (c : Char) : Bool := c.isAlpha || c = '_'

def nameChar (c : Char) : Bool := c.isAlpha || c.isDigit || c = '_'

/-- An ASCII identifier that is no keyword, in upper or lower case. -/
def isName : List Char → Bool
  | [] => false
  | c :: s => nameStart c && s.all nameChar && !keywords.contains ((c :: s).map Char.toUpper)

/-- A name, maybe qualified by another one. -/
inductive Column : List Char → Prop
  | bare {name : List Char} (h : isName name = true) : Column name
  | dotted {name col : List Char} (h : isName name = true) (hcol : isName col = true) : Column (name ++ '.' :: col)

def Value.Printable : Value F → Prop
  | float _ => False
  | _ => True

def Expr.Printable : Expr F → Prop
  | comparison column _ value => Column column ∧ value.Printable
  | and a b => a.Printable ∧ b.Printable
  | or a b => a.Printable ∧ b.Printable
  | not e => e.Printable

def Projection.Printable : Projection → Prop
  | all => True
  | columns cols => ∀ c ∈ cols, Column c

def JoinClause.Printable (j : JoinClause) : Prop := isName j.table = true ∧ Column j.leftKey ∧ Column j.rightKey

/-- Its names are identifiers, and its literals are strings and integers. -/
structure SelectStatement.Printable (stmt : SelectStatement F) : Prop where
  projection : stmt.projection.Printable
  table : isName stmt.table = true
  join : ∀ j ∈ stmt.join, j.Printable
  condition : ∀ e ∈ stmt.condition, e.Printable

/-! ## Texts -/

def escaped (s : List Char) : List Char := s.flatMap fun c => if c = '\'' ∨ c = '\\' then ['\\', c] else [c]

def Value.print : Value F → List Char
  | str s => '\'' :: (escaped s ++ ['\''])
  | int n => showInt n.toInt
  | float _ => []

def Op.print : Op → List Char
  | eq => "=".toList
  | notEq => "!=".toList
  | gt => ">".toList
  | lt => "<".toList
  | gte => ">=".toList
  | lte => "<=".toList
  | like => "LIKE".toList
  | notLike => "NOT LIKE".toList

/-- Parentheses where they are needed. -/
def parens (needed : Prop) [Decidable needed] (s : List Char) : List Char := if needed then '(' :: (s ++ [')']) else s

/-- Words with spaces between them. -/
def unwords : List (List Char) → List Char
  | [] => []
  | [w] => w
  | w :: ws => w ++ ' ' :: unwords ws

/-- An expression where operators of lower levels stand in parentheses: AND has level 1 and NOT level 2. -/
def Expr.print : Expr F → ℕ → List Char
  | comparison column op value, _ => unwords [column, op.print, value.print]
  | not e, _ => unwords ["NOT".toList, e.print 2]
  | and a b, level => parens (1 < level) (unwords [a.print 1, "AND".toList, b.print 2])
  | or a b, level => parens (0 < level) (unwords [a.print 0, "OR".toList, b.print 1])

def Projection.print : Projection → List Char
  | all => ['*']
  | columns cols => (cols.intersperse ", ".toList).flatten

def JoinClause.print (j : JoinClause) : List Char :=
  unwords ["JOIN".toList, j.table, "ON".toList, j.leftKey, "=".toList, j.rightKey]

def SelectStatement.print (stmt : SelectStatement F) : List Char :=
  unwords (["SELECT".toList, stmt.projection.print, "FROM".toList, stmt.table] ++
    (stmt.join.map JoinClause.print).toList ++
    (stmt.condition.map fun e => unwords ["WHERE".toList, e.print 0]).toList)

/-! ## Words -/

variable (L : Lexis F)

/-- Nothing that goes on with a word or a number. -/
def Ends (rest : List Char) : Prop := ∀ c ∈ rest.head?, c = ' ' ∨ c = ')' ∨ c = ','

/-- The text is lexed as these tokens. -/
def Spells (text : List Char) (ts : List (Token F)) : Prop :=
  ∀ rest ls, Ends rest → Lexed L false rest ls →
    ∃ ls', Lexed L false (text ++ rest) ls' ∧ ls'.map (·.2) = ts ++ ls.map (·.2)

variable {L}

theorem ends_cons {c : Char} (h : c = ' ' ∨ c = ')' ∨ c = ',') (s : List Char) : Ends (c :: s) :=
  fun d hd => by cases hd; exact h

theorem Lexed.space {s : List Char} {ls : List (List Char × Token F)} (h : Lexed L false s ls) :
    Lexed L false (' ' :: s) ls := by
  cases h with
  | @nil ws hws => exact .nil (List.forall_mem_cons.2 ⟨rfl, hws⟩)
  | @cons ws l rest t ls hws hl hrest =>
    show Lexed L false ((' ' :: ws) ++ l ++ rest) _
    exact .cons (List.forall_mem_cons.2 ⟨rfl, hws⟩) hl hrest

/-- A lexeme before a text. -/
theorem Lexed.lexeme {l rest : List Char} {t : Token F} {ls : List (List Char × Token F)}
    (hl : Lexeme L false l t rest) (h : Lexed L false rest ls) : Lexed L false (l ++ rest) ((l, t) :: ls) := by
  show Lexed L false ([] ++ l ++ rest) _
  exact .cons (fun _ h => by cases h) hl h

theorem Spells.append {s s' : List Char} {ts ts' : List (Token F)} (h : Spells L s ts) (h' : Spells L s' ts')
    (hends : ∀ rest, Ends rest → Ends (s' ++ rest)) : Spells L (s ++ s') (ts ++ ts') := by
  intro rest ls hrest hls
  obtain ⟨ls', hls', htokens'⟩ := h' rest ls hrest hls
  obtain ⟨ls'', hls'', htokens''⟩ := h _ ls' (hends rest hrest) hls'
  exact ⟨ls'', by rwa [List.append_assoc], by rw [htokens'', htokens', List.append_assoc]⟩

theorem Spells.space {s : List Char} {ts : List (Token F)} (h : Spells L s ts) : Spells L (' ' :: s) ts := by
  intro rest ls hrest hls
  obtain ⟨ls', hls', htokens⟩ := h rest ls hrest hls
  exact ⟨ls', hls'.space, htokens⟩

theorem spells_nil : Spells L [] [] := fun _ ls _ hls => ⟨ls, hls, rfl⟩

/-- Words and their tokens. -/
theorem spells_unwords {ws : List (List Char)} {tss : List (List (Token F))} (h : List.Forall₂ (Spells L) ws tss) :
    Spells L (unwords ws) tss.flatten := by
  induction h with
  | nil => exact spells_nil
  | @cons w ts ws tss hw hws ih =>
    cases ws with
    | nil =>
      cases hws
      simpa [unwords] using hw
    | cons w' ws => exact hw.append ih.space fun _ _ => ends_cons (.inl rfl) _

/-- What is a lexeme wherever it ends. -/
theorem spells_lexeme {l : List Char} {t : Token F} (h : ∀ rest, Ends rest → Lexeme L false l t rest) :
    Spells L l [t] :=
  fun _ _ hrest hls => ⟨_, hls.lexeme (h _ hrest), rfl⟩

/-- A symbol and a text behind it. -/
theorem Spells.symbol {l s : List Char} {t : Token F} {ts : List (Token F)} (h : Spells L s ts)
    (hl : (l, t) ∈ symbols) : Spells L (l ++ s) (t :: ts) := by
  intro rest ls hrest hls
  obtain ⟨ls', hls', htokens⟩ := h rest ls hrest hls
  refine ⟨_, List.append_assoc l s rest ▸ hls'.lexeme (.symbol hl), ?_⟩
  rw [List.map_cons, htokens, List.cons_append]

theorem Spells.parens {s : List Char} {ts : List (Token F)} (h : Spells L s ts) :
    Spells L ('(' :: (s ++ [')'])) (.lparen :: (ts ++ [.rparen])) := by
  have hclose : Spells L [')'] [.rparen] := spells_lexeme fun _ _ => .symbol (by simp [symbols])
  have hs : Spells L (s ++ [')']) (ts ++ [.rparen]) :=
    h.append hclose fun _ _ => ends_cons (.inr (.inl rfl)) _
  exact hs.symbol (l := ['(']) (by simp [symbols])

/-! ### Names and keywords -/

theorem wordChar_ascii {c : Char} (h : c.toNat < 128) : L.wordChar c = nameChar c := by
  rw [Lexis.wordChar, L.alphabetic_ascii c h, L.numeric_ascii c h]
  rfl

theorem not_wordChar_of_ends {rest : List Char} (h : Ends rest) : ∀ d ∈ rest.head?, L.wordChar d = false := by
  intro d hd
  rcases h d hd with rfl | rfl | rfl <;> rw [wordChar_ascii (by decide)] <;> rfl

theorem nameChar_ascii {c : Char} (h : nameChar c = true) : c.toNat < 128 := by
  simp only [nameChar, Char.isAlpha, Char.isUpper, Char.isLower, Char.isDigit, Bool.or_eq_true, Bool.and_eq_true,
    decide_eq_true_eq, UInt32.le_iff_toNat_le] at h
  rcases h with ((h | h) | h) | rfl
  · exact Nat.lt_of_le_of_lt h.2 (by decide)
  · exact Nat.lt_of_le_of_lt h.2 (by decide)
  · exact Nat.lt_of_le_of_lt h.2 (by decide)
  · decide

theorem nameChar_of_nameStart {c : Char} (h : nameStart c = true) : nameChar c = true := by
  unfold nameStart at h
  unfold nameChar
  rw [Bool.or_right_comm, h, Bool.true_or]

/-- An ASCII word is a lexeme before what does not go on with it. -/
theorem lexeme_word {c : Char} {w rest : List Char} (hc : nameStart c = true) (hw : w.all nameChar = true)
    (hrest : ∀ d ∈ rest.head?, L.wordChar d = false) : Lexeme L false (c :: w) (L.wordToken (c :: w)) rest := by
  refine .word ?_ (fun d hd => ?_) hrest
  · rw [wordStart_ascii L (nameChar_ascii (nameChar_of_nameStart hc))]
    exact hc
  · have hd := List.all_eq_true.1 hw d hd
    rw [wordChar_ascii (nameChar_ascii hd), hd]

theorem toUppercase_word {c : Char} {w : List Char} (hc : nameStart c = true) (hw : w.all nameChar = true) :
    L.toUppercase (c :: w) = (c :: w).map Char.toUpper := by
  refine L.toUppercase_ascii _ (List.forall_mem_cons.2 ⟨nameChar_ascii (nameChar_of_nameStart hc), fun d hd => ?_⟩)
  exact nameChar_ascii (List.all_eq_true.1 hw d hd)

/-- A name is an identifier. -/
theorem lexeme_name {name rest : List Char} (h : isName name = true)
    (hrest : ∀ d ∈ rest.head?, L.wordChar d = false) : Lexeme L false name (.ident name) rest := by
  cases name with
  | nil => cases h
  | cons c w =>
    simp only [isName, Bool.and_eq_true, Bool.not_eq_true', List.contains_eq_mem, decide_eq_false_iff_not] at h
    obtain ⟨⟨hc, hw⟩, hkeyword⟩ := h
    have htoken : L.wordToken (c :: w) = .ident (c :: w) := by
      unfold Lexis.wordToken
      rw [toUppercase_word hc hw]
      simp only [keywords, List.map_cons, List.map_nil, List.mem_cons, List.not_mem_nil, or_false, not_or] at hkeyword
      simp only [List.map_cons, hkeyword, if_false]
    have hl := lexeme_word hc hw hrest
    rwa [htoken] at hl

theorem spells_name {name : List Char} (h : isName name = true) : Spells L name [.ident name] :=
  spells_lexeme fun _ hrest => lexeme_name h (not_wordChar_of_ends hrest)

theorem Column.spells {column : List Char} (h : Column column) :
    ∃ ts, Qualified ts column ∧ Spells L column ts := by
  cases h with
  | bare h => exact ⟨_, .bare _, spells_name h⟩
  | @dotted name col h hcol =>
    refine ⟨_, .dotted name col, fun rest ls hrest hls => ?_⟩
    have hdot : ∀ d ∈ ('.' :: (col ++ rest)).head?, L.wordChar d = false := by
      intro d hd
      cases hd
      rw [wordChar_ascii (by decide)]
      rfl
    have hls' := hls.lexeme (lexeme_name hcol (not_wordChar_of_ends hrest))
    have hls'' := (hls'.lexeme (l := ['.']) (t := .dot) (.symbol (by simp [symbols]))).lexeme (lexeme_name h hdot)
    exact ⟨_, by simpa using hls'', rfl⟩

/-- A keyword in upper case. -/
theorem spells_keyword {c : Char} {w : List Char} {t : Token F} (hc : nameStart c = true) (hw : w.all nameChar = true)
    (ht : L.wordToken (c :: w) = t) : Spells L (c :: w) [t] :=
  spells_lexeme fun _ hrest => ht ▸ lexeme_word hc hw (not_wordChar_of_ends hrest)

/-! ### Literals and operators -/

theorem strBody_escaped (s : List Char) : StrBody (escaped s) s := by
  induction s with
  | nil => exact .nil
  | cons c s ih =>
    unfold escaped at ih ⊢
    rw [List.flatMap_cons]
    split_ifs with hc
    · rcases hc with rfl | rfl
      · exact .escaped ih
      · exact .escaped ih
    · exact .plain (fun h => hc (.inl h)) (fun h => hc (.inr h)) ih

theorem numeral_showInt (n : ℤ) : Numeral (showInt n) := by
  unfold showInt
  have hdigits := all_isDigit_toDigits n.natAbs
  split_ifs
  · exact ⟨'-', _, rfl, .inr rfl, hdigits⟩
  · cases h : Nat.toDigits 10 n.natAbs with
    | nil => exact absurd h Nat.toDigits_ne_nil
    | cons c ds =>
      rw [h, List.all_cons, Bool.and_eq_true] at hdigits
      exact ⟨c, ds, rfl, .inl hdigits.1, hdigits.2⟩

theorem fits_showInt (n : Int64) : Fits (showInt n.toInt) := by
  have h := parseI64_showInt n
  unfold parseI64 at h
  split_ifs at h with hfits
  exact ⟨hfits.1, hfits.2.2⟩

theorem Value.spells {value : Value F} (h : value.Printable) : Spells L value.print [value.token] := by
  cases value with
  | str s => exact spells_lexeme fun _ _ => .string (strBody_escaped s)
  | int n =>
    refine spells_lexeme fun rest hrest => ?_
    refine .int (numeral_showInt _) (fits_showInt n) (intValue_showInt _).symm (fun d hd => ?_) fun hpoint => ?_
    · rcases hrest d hd with rfl | rfl | rfl <;> rfl
    · rcases hrest '.' hpoint with h | h | h <;> cases h
  | float x => cases h

theorem Op.spells (op : Op) : Spells L op.print op.tokens := by
  have hne : ∀ {rest}, Ends rest → rest.head? ≠ some '=' := by
    intro rest hrest heq
    rcases hrest '=' heq with h | h | h <;> cases h
  have hlike : Spells L "LIKE".toList [.like] :=
    spells_keyword rfl rfl (by rw [Lexis.wordToken, toUppercase_word rfl rfl]; rfl)
  have hnot : Spells L "NOT".toList [.not] :=
    spells_keyword rfl rfl (by rw [Lexis.wordToken, toUppercase_word rfl rfl]; rfl)
  cases op with
  | gt => exact spells_lexeme fun _ hrest => .gt (hne hrest)
  | lt => exact spells_lexeme fun _ hrest => .lt (hne hrest)
  | like => exact hlike
  | notLike => exact spells_unwords (.cons hnot (.cons hlike .nil))
  | eq => exact spells_lexeme fun _ _ => .symbol (l := ['=']) (by simp [symbols])
  | notEq => exact spells_lexeme fun _ _ => .symbol (l := ['!', '=']) (by simp [symbols])
  | gte => exact spells_lexeme fun _ _ => .symbol (l := ['>', '=']) (by simp [symbols])
  | lte => exact spells_lexeme fun _ _ => .symbol (l := ['<', '=']) (by simp [symbols])

/-! ## Expressions -/

/-- The level of the grammar that a level of printing stands for. -/
def levelOf : ℕ → Level
  | 0 => .or
  | 1 => .and
  | _ => .unary

/-- A derivation of a level is one of the levels that bind less. -/
theorem Derives.lower {level : ℕ} {ts : List (Token F)} {e : Expr F} (h : Derives .primary ts e) :
    Derives (levelOf level) ts e := by
  match level with
  | 0 => exact .conjunction (.unary (.primary h))
  | 1 => exact .unary (.primary h)
  | _ + 2 => exact .primary h

theorem Expr.spells {e : Expr F} (h : e.Printable) (level : ℕ) :
    ∃ ts, Derives (levelOf level) ts e ∧ Spells L (e.print level) ts := by
  induction e generalizing level with
  | comparison column op value =>
    obtain ⟨ts, hts, hcolumn⟩ := h.1.spells (L := L)
    exact ⟨_, Derives.lower (.comparison hts op value),
      spells_unwords (.cons hcolumn (.cons op.spells (.cons (Value.spells h.2) .nil)))⟩
  | not e ih =>
    obtain ⟨ts, hts, hs⟩ := ih h 2
    have hnot : Spells L "NOT".toList [.not] :=
      spells_keyword rfl rfl (by rw [Lexis.wordToken, toUppercase_word rfl rfl]; rfl)
    have hs' : Spells L (unwords ["NOT".toList, e.print 2]) (.not :: ts) := by
      simpa using spells_unwords (.cons hnot (.cons hs .nil))
    refine ⟨.not :: ts, ?_, hs'⟩
    rcases level with _ | _ | level
    · exact .conjunction (.unary (.not hts))
    · exact .unary (.not hts)
    · exact .not hts
  | and a b iha ihb =>
    obtain ⟨ts, hts, hsa⟩ := iha h.1 1
    obtain ⟨us, hus, hsb⟩ := ihb h.2 2
    have hand : Spells L "AND".toList [.and] :=
      spells_keyword rfl rfl (by rw [Lexis.wordToken, toUppercase_word rfl rfl]; rfl)
    have hs : Spells L (unwords [a.print 1, "AND".toList, b.print 2]) (ts ++ .and :: us) := by
      simpa using spells_unwords (.cons hsa (.cons hand (.cons hsb .nil)))
    rw [Expr.print, ThorFirewall.Thorql.parens]
    rcases level with _ | _ | level
    · exact ⟨_, .conjunction (.and hts hus), hs⟩
    · exact ⟨_, .and hts hus, hs⟩
    · rw [if_pos (by omega)]
      exact ⟨_, Derives.lower (.paren (.conjunction (.and hts hus))), hs.parens⟩
  | or a b iha ihb =>
    obtain ⟨ts, hts, hsa⟩ := iha h.1 0
    obtain ⟨us, hus, hsb⟩ := ihb h.2 1
    have hor : Spells L "OR".toList [.or] :=
      spells_keyword rfl rfl (by rw [Lexis.wordToken, toUppercase_word rfl rfl]; rfl)
    have hs : Spells L (unwords [a.print 0, "OR".toList, b.print 1]) (ts ++ .or :: us) := by
      simpa using spells_unwords (.cons hsa (.cons hor (.cons hsb .nil)))
    rw [Expr.print, ThorFirewall.Thorql.parens]
    cases level with
    | zero => exact ⟨_, .or hts hus, hs⟩
    | succ level =>
      rw [if_pos (by omega)]
      exact ⟨_, Derives.lower (.paren (.or hts hus)), hs.parens⟩

/-! ## Statements -/

theorem columns_spells {cols : List (List Char)} (hne : cols ≠ []) (h : ∀ c ∈ cols, Column c) :
    ∃ ts, Columns ts cols ∧ Spells L (cols.intersperse ", ".toList).flatten ts := by
  induction cols with
  | nil => exact absurd rfl hne
  | cons c cols ih =>
    obtain ⟨ts, hts, hs⟩ := (h c List.mem_cons_self).spells (L := L)
    cases cols with
    | nil => exact ⟨ts, .one hts, by simpa using hs⟩
    | cons c' cols =>
      obtain ⟨us, hus, hs'⟩ := ih (List.cons_ne_nil c' cols) fun d hd => h d (List.mem_cons_of_mem _ hd)
      refine ⟨_, .cons hts hus, ?_⟩
      have hcomma := hs'.space.symbol (l := [',']) (t := .comma) (by simp [symbols])
      have happ := hs.append hcomma fun _ _ => ends_cons (.inr (.inr rfl)) _
      simpa using happ

theorem Projection.spells {projection : Projection} (h : projection.Printable) (hne : projection ≠ .columns []) :
    ∃ ts, Projected ts projection ∧ Spells L projection.print ts := by
  cases projection with
  | all => exact ⟨_, .all, spells_lexeme fun _ _ => .symbol (l := ['*']) (by simp [symbols])⟩
  | columns cols =>
    obtain ⟨ts, hts, hs⟩ := columns_spells (L := L) (fun h => hne (congrArg _ h)) h
    exact ⟨ts, .columns hts, hs⟩

/-- A clause that may be left out. -/
theorem JoinClause.spells {join : Option JoinClause} (h : ∀ j ∈ join, j.Printable) :
    ∃ tss, Joined (F := F) false tss.flatten join ∧
      List.Forall₂ (Spells L) (join.map JoinClause.print).toList tss := by
  cases join with
  | none => exact ⟨[], .none, .nil⟩
  | some j =>
    obtain ⟨htable, hleft, hright⟩ := h j rfl
    obtain ⟨us, hus, hl⟩ := hleft.spells (L := L)
    obtain ⟨vs, hvs, hr⟩ := hright.spells (L := L)
    have hjoin : Spells L "JOIN".toList [.join] :=
      spells_keyword rfl rfl (by rw [Lexis.wordToken, toUppercase_word rfl rfl]; rfl)
    have hon : Spells L "ON".toList [.on] :=
      spells_keyword rfl rfl (by rw [Lexis.wordToken, toUppercase_word rfl rfl]; rfl)
    have hclause := spells_unwords (.cons hjoin (.cons (spells_name htable) (.cons hon (.cons hl
      (.cons Op.eq.spells (.cons hr .nil))))))
    refine ⟨[_], ?_, .cons hclause .nil⟩
    simpa [Op.tokens] using Joined.join (.plain j.table) hus hvs

theorem condition_spells {condition : Option (Expr F)} (h : ∀ e ∈ condition, e.Printable) :
    ∃ tss, Filtered tss.flatten condition ∧ List.Forall₂ (Spells L)
      (condition.map fun e => unwords ["WHERE".toList, e.print 0]).toList tss := by
  cases condition with
  | none => exact ⟨[], .none, .nil⟩
  | some e =>
    obtain ⟨us, hus, he⟩ := Expr.spells (L := L) (h e rfl) 0
    have hwhere : Spells L "WHERE".toList [.where] :=
      spells_keyword rfl rfl (by rw [Lexis.wordToken, toUppercase_word rfl rfl]; rfl)
    refine ⟨[_], ?_, .cons (spells_unwords (.cons hwhere (.cons he .nil))) .nil⟩
    simpa using Filtered.where hus

theorem SelectStatement.spells {stmt : SelectStatement F} (h : stmt.Printable) (hne : stmt.projection ≠ .columns []) :
    ∃ ts, Statement false ts stmt ∧ Spells L stmt.print ts := by
  obtain ⟨projection, table, join, condition⟩ := stmt
  obtain ⟨hprojection, htable, hjoin, hcondition⟩ := h
  obtain ⟨ps, hps, hp⟩ := Projection.spells (L := L) hprojection hne
  obtain ⟨jss, hjs, hj⟩ := JoinClause.spells (L := L) hjoin
  obtain ⟨wss, hws, hw⟩ := condition_spells (L := L) hcondition
  have hselect : Spells L "SELECT".toList [.select] :=
    spells_keyword rfl rfl (by rw [Lexis.wordToken, toUppercase_word rfl rfl]; rfl)
  have hfrom : Spells L "FROM".toList [.from] :=
    spells_keyword rfl rfl (by rw [Lexis.wordToken, toUppercase_word rfl rfl]; rfl)
  have hhead := List.Forall₂.cons hselect (.cons hp (.cons hfrom (.cons (spells_name htable) .nil)))
  refine ⟨_, ?_, spells_unwords (List.rel_append (List.rel_append hhead hj) hw)⟩
  simpa using Statement.select hps (.plain table) hjs hws

/-- **A printed statement is parsed to the statement.** -/
theorem parse_print (L : Lexis F) (stmt : SelectStatement F) (h : stmt.Printable)
    (hne : stmt.projection ≠ .columns []) : parse L stmt.print = .ok stmt := by
  obtain ⟨ts, hts, hs⟩ := SelectStatement.spells (L := L) h hne
  obtain ⟨ls, hls, htokens⟩ := hs [] [] nofun (.nil nofun)
  rw [List.append_nil] at hls
  rw [List.map_nil, List.append_nil] at htokens
  refine Except.bind_eq_ok.2 ⟨_, (tokenize_iff L).2 ⟨ls, hls.relax, htokens⟩, Except.map_eq_ok.2 ⟨(stmt, [.eof]), ?_, rfl⟩⟩
  exact parseSelect_iff.2 ⟨ts, rfl, hts.relax, fun t ht => by cases ht; exact not_goesOn_eof _ _⟩

/-- A join whose condition needs parentheses. -/
def nested : SelectStatement Unit where
  projection := .columns ["p.pid".toList, "name".toList]
  table := "p".toList
  join := some ⟨"c".toList, "p.pid".toList, "c.pid".toList⟩
  condition := some (.and (.not (.or (.comparison "name".toList .like (.str "%'\\".toList))
    (.comparison "c.port".toList .gte (.int (-5))))) (.comparison "name".toList .notLike (.str [])))

theorem parse_print_nested : parse Lexis.ascii nested.print = .ok nested := by
  have hname : Column "name".toList := .bare (by decide)
  have hport : Column "c.port".toList := @Column.dotted ['c'] "port".toList (by decide) (by decide)
  have hpid : ∀ t, isName [t] = true → Column (t :: ".pid".toList) :=
    fun t ht => @Column.dotted [t] "pid".toList ht (by decide)
  refine parse_print Lexis.ascii nested ⟨?_, by decide, ?_, ?_⟩ nofun
  · intro c hc
    simp only [List.mem_cons, List.not_mem_nil, or_false] at hc
    rcases hc with rfl | rfl
    · exact hpid 'p' (by decide)
    · exact hname
  · intro j hj
    cases hj
    exact ⟨by decide, hpid 'p' (by decide), hpid 'c' (by decide)⟩
  · intro e he
    cases he
    exact ⟨⟨⟨hname, trivial⟩, hport, trivial⟩, hname, trivial⟩

/-- No text stands for a statement without columns. -/
theorem print_no_columns : ¬ ∀ stmt : SelectStatement Unit, stmt.Printable → parse Lexis.ascii stmt.print = .ok stmt := by
  intro h
  have hparse := h ⟨.columns [], "t".toList, none, none⟩ ⟨nofun, by decide, nofun, nofun⟩
  exact absurd hparse (by decide +kernel)

end ThorFirewall.Thorql
