import Mathlib
import ThorFirewall.Thorql.Grammar

/-!
# When an accepted query is a statement of the grammar

A query that is accepted may have tokens behind its statement, tokens in the argument of a table that leave no trace,
and numerals that are no numbers of 64 bits. It is a statement, with the tree that is returned, exactly if there are
none of these (`written_iff`).
-/

namespace ThorFirewall.Thorql

open Text

variable {F : Type*} {L : Lexis F}

/-- The query as a whole is a statement of the grammar, with this tree and the integers that are written. -/
def Written (L : Lexis F) (query : List Char) (stmt : SelectStatement F) : Prop :=
  ∃ ls, Lexed L false query ls ∧ Statement false (ls.map (·.2)) stmt

/-- A statement has a token behind it that does not go on with it. -/
def Trailing (ts : List (Token F)) : Prop :=
  ∃ p t q stmt, ts = p ++ t :: q ∧ Statement true p stmt ∧ ¬ GoesOn stmt p t

/-- A token of another kind is in the argument of a table. -/
def Dropped (ts : List (Token F)) : Prop :=
  ∃ a k us name b, ts = a ++ k :: (us ++ b) ∧ (k = .from ∨ k = .join) ∧ Table true us name ∧ ∃ t ∈ us, t.inArg = false

/-- The query has nothing that the parser takes without a place for it in the tree. -/
def Exact (L : Lexis F) (query : List Char) : Prop :=
  ∀ ls, Lexed L true query ls →
    ¬ Trailing (ls.map (·.2)) ∧ ¬ Dropped (ls.map (·.2)) ∧ ∀ p ∈ ls, Numeral p.1 → Fits p.1

/-! ## Lexemes -/

theorem Lexeme.relax {l rest : List Char} {t : Token F} (h : Lexeme L false l t rest) : Lexeme L true l t rest := by
  cases h with
  | symbol h => exact .symbol h
  | gt h => exact .gt h
  | lt h => exact .lt h
  | word hstart hw hrest => exact .word hstart hw hrest
  | string h => exact .string h
  | int hl hfits hn hrest hpoint => exact .int hl hfits hn hrest hpoint
  | overflow hlax => cases hlax
  | float hl hd hds hrest => exact .float hl hd hds hrest

theorem Lexeme.strict {l rest : List Char} {t : Token F} (h : Lexeme L true l t rest) (hfits : Numeral l → Fits l) :
    Lexeme L false l t rest := by
  cases h with
  | symbol h => exact .symbol h
  | gt h => exact .gt h
  | lt h => exact .lt h
  | word hstart hw hrest => exact .word hstart hw hrest
  | string h => exact .string h
  | int hl hfits hn hrest hpoint => exact .int hl hfits hn hrest hpoint
  | overflow _ hl hnot => exact absurd (hfits hl) hnot
  | float hl hd hds hrest => exact .float hl hd hds hrest

/-- Only a number is a numeral. -/
theorem Lexeme.fits {l rest : List Char} {t : Token F} (h : Lexeme L false l t rest) (hl : Numeral l) : Fits l := by
  obtain ⟨c, ds, rfl, hc, hds⟩ := hl
  have hsymbol := numeralStart_not_symbol hc
  generalize hw : c :: ds = w at h
  cases h with
  | symbol h =>
    simp only [symbols, List.mem_cons, Prod.mk.injEq, List.not_mem_nil, or_false] at h
    rcases h with ⟨rfl, rfl⟩ | ⟨rfl, rfl⟩ | ⟨rfl, rfl⟩ | ⟨rfl, rfl⟩ | ⟨rfl, rfl⟩ | ⟨rfl, rfl⟩ | ⟨rfl, rfl⟩ |
      ⟨rfl, rfl⟩ | ⟨rfl, rfl⟩ <;> cases hw <;> cases hsymbol
  | gt => cases hw; cases hsymbol
  | lt => cases hw; cases hsymbol
  | word hstart =>
    cases hw
    rw [wordStart_numeral L hc] at hstart
    cases hstart
  | string => cases hw; cases hsymbol
  | int _ hfits => exact hfits
  | overflow hlax => cases hlax
  | float hl =>
    obtain ⟨c', cs, rfl, -, -⟩ := hl
    cases hw
    simp at hds

theorem Lexed.relax {s : List Char} {ls : List (List Char × Token F)} (h : Lexed L false s ls) : Lexed L true s ls := by
  induction h with
  | nil hws => exact .nil hws
  | cons hws hl _ ih => exact .cons hws hl.relax ih

theorem Lexed.strict {s : List Char} {ls : List (List Char × Token F)} (h : Lexed L true s ls)
    (hfits : ∀ p ∈ ls, Numeral p.1 → Fits p.1) : Lexed L false s ls := by
  induction h with
  | nil hws => exact .nil hws
  | cons hws hl _ ih =>
    exact .cons hws (hl.strict (hfits _ List.mem_cons_self)) (ih fun p hp => hfits p (List.mem_cons_of_mem _ hp))

theorem Lexed.fits {s : List Char} {ls : List (List Char × Token F)} (h : Lexed L false s ls) :
    ∀ p ∈ ls, Numeral p.1 → Fits p.1 := by
  induction h with
  | nil => exact nofun
  | cons _ hl _ ih =>
    intro p hp
    rcases List.mem_cons.1 hp with rfl | hp
    · exact hl.fits
    · exact ih p hp

/-- A text before a character that is no white space. -/
theorem append_visible {ws ws' l l' : List Char} {c c' : Char} (hws : ∀ c ∈ ws, isWhitespace c = true)
    (hws' : ∀ c ∈ ws', isWhitespace c = true) (hc : isWhitespace c = false) (hc' : isWhitespace c' = false)
    (h : ws ++ c :: l = ws' ++ c' :: l') : ws = ws' ∧ c :: l = c' :: l' := by
  have hdrop : ∀ {ws l c}, (∀ c ∈ ws, isWhitespace c = true) → isWhitespace c = false →
      (ws ++ c :: l).dropWhile isWhitespace = c :: l :=
    fun hws hc => List.dropWhile_run hws fun d hd => by cases hd; exact hc
  have hl := hdrop (l := l) hws hc
  rw [h, hdrop hws' hc'] at hl
  rw [← hl] at h
  exact ⟨List.append_cancel_right h, hl.symm⟩

/-- **A text has one sequence of lexemes.** -/
theorem Lexed.unique {s : List Char} {ls ls' : List (List Char × Token F)} (h : Lexed L true s ls)
    (h' : Lexed L true s ls') : ls = ls' := by
  have hblank : ∀ {ws ws' l rest : List Char} {t : Token F}, (∀ c ∈ ws, isWhitespace c = true) →
      Lexeme L true l t rest → ws ≠ ws' ++ l ++ rest := by
    rintro ws ws' l rest t hws hl rfl
    obtain ⟨⟨c, l, rfl, hc⟩, -⟩ := hl.visible L
    rw [hws c (by simp)] at hc
    cases hc
  induction h generalizing ls' with
  | @nil ws hws =>
    generalize hs : ws = s at h'
    cases h' with
    | nil => rfl
    | cons _ hl _ => exact absurd hs (hblank hws hl)
  | @cons ws l rest t ls hws hl _ ih =>
    generalize hs : ws ++ l ++ rest = s at h'
    cases h' with
    | nil hws' => exact absurd hs.symm (hblank hws' hl)
    | @cons ws' l' rest' t' ls' hws' hl' hrest' =>
      have hround := round_of_lexeme L 0 hws hl
      rw [hs, round_of_lexeme L 0 hws' hl'] at hround
      cases hround
      obtain ⟨⟨c, w, rfl, hc⟩, -⟩ := hl.visible L
      obtain ⟨⟨c', w', rfl, hc'⟩, -⟩ := hl'.visible L
      obtain ⟨-, hw⟩ := append_visible hws hws' hc hc' (List.append_cancel_right hs)
      rw [hw, ih hrest']

/-! ## Tables -/

theorem Arg.strict {d : ℕ} {ts : List (Token F)} {a : List Char} (h : Arg true d ts a)
    (hts : ∀ t ∈ ts, t.inArg = true) : Arg false d ts a := by
  induction h with
  | close => exact .close
  | «open» _ ih => exact .open (ih fun t ht => hts t (List.mem_cons_of_mem _ ht))
  | shut hd _ ih => exact .shut hd (ih fun t ht => hts t (List.mem_cons_of_mem _ ht))
  | str s _ ih => exact .str s (ih fun t ht => hts t (List.mem_cons_of_mem _ ht))
  | ident s _ ih => exact .ident s (ih fun t ht => hts t (List.mem_cons_of_mem _ ht))
  | dot _ ih => exact .dot (ih fun t ht => hts t (List.mem_cons_of_mem _ ht))
  | other _ ht =>
    rw [hts _ List.mem_cons_self] at ht
    cases ht

theorem Arg.relax {d : ℕ} {ts : List (Token F)} {a : List Char} (h : Arg false d ts a) :
    Arg true d ts a ∧ ∀ t ∈ ts, t.inArg = true := by
  induction h with
  | close => exact ⟨.close, by simp [Token.inArg]⟩
  | «open» _ ih => exact ⟨.open ih.1, List.forall_mem_cons.2 ⟨rfl, ih.2⟩⟩
  | shut hd _ ih => exact ⟨.shut hd ih.1, List.forall_mem_cons.2 ⟨rfl, ih.2⟩⟩
  | str s _ ih => exact ⟨.str s ih.1, List.forall_mem_cons.2 ⟨rfl, ih.2⟩⟩
  | ident s _ ih => exact ⟨.ident s ih.1, List.forall_mem_cons.2 ⟨rfl, ih.2⟩⟩
  | dot _ ih => exact ⟨.dot ih.1, List.forall_mem_cons.2 ⟨rfl, ih.2⟩⟩
  | other hlax => cases hlax

theorem Table.strict {us : List (Token F)} {name : List Char} (h : Table true us name)
    (hus : ∀ t ∈ us, t.inArg = true) : Table false us name := by
  cases h with
  | plain => exact .plain _
  | param name h =>
    exact .param name (h.strict fun t ht => hus t (List.mem_cons_of_mem _ (List.mem_cons_of_mem _ ht)))

theorem Table.relax {us : List (Token F)} {name : List Char} (h : Table false us name) :
    Table true us name ∧ ∀ t ∈ us, t.inArg = true := by
  cases h with
  | plain => exact ⟨.plain _, by simp [Token.inArg]⟩
  | param name h =>
    exact ⟨.param name h.relax.1, List.forall_mem_cons.2 ⟨rfl, List.forall_mem_cons.2 ⟨rfl, h.relax.2⟩⟩⟩

/-- A table with a token of another kind is no table without one. -/
theorem Table.not_dropped {us vs b rest : List (Token F)} {name name' : List Char} (h : Table true us name)
    (hus : ∃ t ∈ us, t.inArg = false) (h' : Table false vs name') (hrest : rest.head? ≠ some .lparen) :
    us ++ b ≠ vs ++ rest := by
  obtain ⟨t, ht, hin⟩ := hus
  intro heq
  have hlen : us.length ≠ 1 := by
    cases h with
    | plain name =>
      cases List.mem_singleton.1 ht
      cases hin
    | param name h => simp
  have hread : parseTableName (us ++ b) = .ok (name, b) :=
    parseTableName_iff.2 ⟨us, rfl, h, fun hone => absurd hone hlen⟩
  have hread' : parseTableName (us ++ b) = .ok (name', rest) :=
    parseTableName_iff.2 ⟨vs, heq, h'.relax.1, fun _ => hrest⟩
  rw [hread] at hread'
  cases hread'
  rw [h'.relax.2 t (List.append_cancel_right heq ▸ ht)] at hin
  cases hin

/-! ## Tokens of a clause -/

/-- The token begins no table and does not end the text. -/
def Token.Inner (t : Token F) : Prop := t ≠ .from ∧ t ≠ .join ∧ t ≠ .eof

theorem Token.inner_of_inArg {t : Token F} (h : t.inArg = true) : t.Inner := by
  cases t <;> simp_all [Token.Inner, Token.inArg]

theorem not_mem_of_inner {ts : List (Token F)} (h : ∀ t ∈ ts, t.Inner) : .from ∉ ts ∧ .join ∉ ts ∧ .eof ∉ ts :=
  ⟨fun ht => (h _ ht).1 rfl, fun ht => (h _ ht).2.1 rfl, fun ht => (h _ ht).2.2 rfl⟩

theorem Qualified.inner {ts : List (Token F)} {c : List Char} (h : Qualified ts c) : ∀ t ∈ ts, t.Inner := by
  cases h <;> simp [Token.Inner]

theorem Columns.inner {ts : List (Token F)} {cols : List (List Char)} (h : Columns ts cols) : ∀ t ∈ ts, t.Inner := by
  induction h with
  | one h => exact h.inner
  | cons h _ ih =>
    refine List.forall_mem_append.2 ⟨h.inner, List.forall_mem_cons.2 ⟨?_, ih⟩⟩
    simp [Token.Inner]

theorem Projected.inner {ts : List (Token F)} {projection : Projection} (h : Projected ts projection) :
    ∀ t ∈ ts, t.Inner := by
  cases h with
  | all => simp [Token.Inner]
  | columns h => exact h.inner

theorem Derives.inner {level : Level} {ts : List (Token F)} {e : Expr F} (h : Derives level ts e) :
    ∀ t ∈ ts, t.Inner := by
  induction h with
  | comparison h op value =>
    refine List.forall_mem_append.2 ⟨h.inner, ?_⟩
    cases op <;> cases value <;> simp [Op.tokens, Value.token, Token.Inner]
  | paren _ ih =>
    refine List.forall_mem_cons.2 ⟨?_, List.forall_mem_append.2 ⟨ih, ?_⟩⟩ <;> simp [Token.Inner]
  | not _ ih => exact List.forall_mem_cons.2 ⟨by simp [Token.Inner], ih⟩
  | primary _ ih => exact ih
  | and _ _ iha ihb =>
    refine List.forall_mem_append.2 ⟨iha, List.forall_mem_cons.2 ⟨?_, ihb⟩⟩
    simp [Token.Inner]
  | unary _ ih => exact ih
  | or _ _ iha ihb =>
    refine List.forall_mem_append.2 ⟨iha, List.forall_mem_cons.2 ⟨?_, ihb⟩⟩
    simp [Token.Inner]
  | conjunction _ ih => exact ih

theorem Filtered.inner {ts : List (Token F)} {condition : Option (Expr F)} (h : Filtered ts condition) :
    ∀ t ∈ ts, t.Inner := by
  cases h with
  | none => exact nofun
  | «where» h => exact List.forall_mem_cons.2 ⟨by simp [Token.Inner], h.inner⟩

theorem Arg.no_eof {lax : Bool} {d : ℕ} {ts : List (Token F)} {a : List Char} (h : Arg lax d ts a) : .eof ∉ ts := by
  induction h with
  | other _ _ heof _ ih => simp [ih, heof.symm]
  | _ => simp_all

theorem Table.no_eof {lax : Bool} {ts : List (Token F)} {name : List Char} (h : Table lax ts name) : .eof ∉ ts := by
  cases h with
  | plain => simp
  | param name h => simpa using h.no_eof

theorem Statement.no_eof {lax : Bool} {p : List (Token F)} {stmt : SelectStatement F} (h : Statement lax p stmt) :
    .eof ∉ p := by
  obtain ⟨hp, ht, hj, hw⟩ := h
  have hps := (not_mem_of_inner hp.inner).2.2
  have hws := (not_mem_of_inner hw.inner).2.2
  cases hj with
  | none => simp [hps, hws, ht.no_eof]
  | join ht' hl hr =>
    have hus := (not_mem_of_inner hl.inner).2.2
    have hvs := (not_mem_of_inner hr.inner).2.2
    simp [hps, hws, ht.no_eof, ht'.no_eof, hus, hvs]

/-! ## Statements -/

theorem Statement.relax {p : List (Token F)} {stmt : SelectStatement F} (h : Statement false p stmt) :
    Statement true p stmt := by
  obtain ⟨hp, ht, hj, hw⟩ := h
  refine .select hp ht.relax.1 ?_ hw
  cases hj with
  | none => exact .none
  | join ht hl hr => exact .join ht.relax.1 hl hr

theorem Statement.strict {p : List (Token F)} {stmt : SelectStatement F} (h : Statement true p stmt)
    (hdrop : ¬ Dropped p) : Statement false p stmt := by
  have hin : ∀ a k us name b, p = a ++ k :: (us ++ b) → (k = .from ∨ k = .join) → Table true us name →
      ∀ t ∈ us, t.inArg = true := by
    intro a k us name b hp hk hus t ht
    by_contra hnot
    exact hdrop ⟨a, k, us, name, b, hp, hk, hus, t, ht, Bool.eq_false_iff.2 hnot⟩
  obtain @⟨ps, ts, js, ws, projection, table, join, condition, hp, ht, hj, hw⟩ := h
  have hts := hin (.select :: ps) .from ts table (js ++ ws) (List.cons_append ..).symm (.inl rfl) ht
  refine .select hp (ht.strict hts) ?_ hw
  cases hj with
  | none => exact .none
  | @join us vs xs table' leftKey rightKey ht' hl hr =>
    have hus := hin (.select :: (ps ++ .from :: ts)) .join us table' (.on :: (vs ++ .eq :: xs) ++ ws)
      (by simp only [List.cons_append, List.append_assoc]) (.inr rfl) ht'
    exact .join (ht'.strict hus) hl hr

/-- A statement of the grammar has no table with a token of another kind. -/
theorem Statement.not_dropped {p : List (Token F)} {stmt : SelectStatement F} (h : Statement false p stmt) :
    ¬ Dropped p := by
  rintro ⟨a, k, us, name, b, hp, hk, hus, hdrop⟩
  obtain @⟨ps, ts, js, ws, projection, table, join, condition, hps, ht, hj, hw⟩ := h
  obtain ⟨hpsFrom, hpsJoin, -⟩ := not_mem_of_inner hps.inner
  obtain ⟨hwsFrom, hwsJoin, -⟩ := not_mem_of_inner hw.inner
  obtain ⟨htsFrom, htsJoin, -⟩ := not_mem_of_inner fun t h => Token.inner_of_inArg (ht.relax.2 t h)
  have hparen : ws.head? ≠ some .lparen := by cases hw <;> simp
  cases hj with
  | none =>
    rcases hk with rfl | rfl
    · have hsplit : Token.select :: ps ++ .from :: (ts ++ ws) = a ++ .from :: (us ++ b) := hp
      obtain ⟨-, -, heq⟩ := (List.append_cons_inj_of_notMem (by simp [hpsFrom])
        (by simp [htsFrom, hwsFrom])).1 hsplit
      exact hus.not_dropped hdrop ht hparen heq.symm
    · have hmem : Token.join ∈ a ++ .join :: (us ++ b) := by simp
      rw [← hp] at hmem
      simp [hpsJoin, htsJoin, hwsJoin] at hmem
  | @join us' vs xs table' leftKey rightKey ht' hl hr =>
    obtain ⟨husFrom, husJoin, -⟩ := not_mem_of_inner fun t h => Token.inner_of_inArg (ht'.relax.2 t h)
    obtain ⟨hvsFrom, hvsJoin, -⟩ := not_mem_of_inner hl.inner
    obtain ⟨hxsFrom, hxsJoin, -⟩ := not_mem_of_inner hr.inner
    rcases hk with rfl | rfl
    · have hsplit : Token.select :: ps ++ .from :: (ts ++ (.join :: (us' ++ .on :: (vs ++ .eq :: xs)) ++ ws)) =
          a ++ .from :: (us ++ b) := hp
      obtain ⟨-, -, heq⟩ := (List.append_cons_inj_of_notMem (by simp [hpsFrom])
        (by simp [htsFrom, hwsFrom, husFrom, hvsFrom, hxsFrom])).1 hsplit
      exact hus.not_dropped hdrop ht (by simp) heq.symm
    · have hsplit : Token.select :: (ps ++ .from :: ts) ++ .join :: (us' ++ (.on :: (vs ++ .eq :: xs) ++ ws)) =
          a ++ .join :: (us ++ b) := by
        rw [← hp]
        simp only [List.cons_append, List.append_assoc]
      obtain ⟨-, -, heq⟩ := (List.append_cons_inj_of_notMem (by simp [hpsJoin, htsJoin])
        (by simp [husJoin, hvsJoin, hxsJoin, hwsJoin])).1 hsplit
      exact hus.not_dropped hdrop ht' (by simp) heq.symm

/-! ## Queries -/

theorem Lexed.no_eof {lax : Bool} {s : List Char} {ls : List (List Char × Token F)} (h : Lexed L lax s ls) :
    .eof ∉ ls.map (·.2) := by
  induction h with
  | nil => exact nofun
  | cons _ hl _ ih => simp [(hl.visible L).2.symm, ih]

/-- An accepted query is a statement and tokens that do not go on with it. -/
theorem parse_eq_ok {query : List Char} {stmt : SelectStatement F} (h : parse L query = .ok stmt) :
    ∃ ls p r, Lexed L true query ls ∧ ls.map (·.2) = p ++ r ∧ Statement true p stmt ∧
      ∀ t ∈ (r ++ [Token.eof]).head?, ¬ GoesOn stmt p t := by
  obtain ⟨tokens, htokens, hparse⟩ := Except.bind_eq_ok.1 h
  obtain ⟨ts, -, rfl⟩ := Except.map_eq_ok.1 htokens
  obtain ⟨⟨stmt', rest⟩, hselect, rfl⟩ := Except.map_eq_ok.1 hparse
  obtain ⟨ls, hls, rfl⟩ := (tokenize_iff L).1 htokens
  obtain ⟨p, hp, hstmt, hstop⟩ := parseSelect_iff.1 hselect
  rcases List.eq_nil_or_concat rest with rfl | ⟨r, t, rfl⟩
  · -- the statement would have the end of the text in it
    rw [List.append_nil] at hp
    have hmem : Token.eof ∈ p := by
      rw [← hp]
      exact List.mem_append_right _ (List.mem_singleton_self _)
    exact absurd hmem hstmt.no_eof
  · rw [List.concat_eq_append, ← List.append_assoc] at hp
    obtain ⟨hsplit, ht⟩ := List.append_inj' hp rfl
    cases ht
    exact ⟨ls, p, r, hls, hsplit, hstmt, List.concat_eq_append ▸ hstop⟩

theorem written_of_exact {query : List Char} {stmt : SelectStatement F} (h : parse L query = .ok stmt)
    (hexact : Exact L query) : Written L query stmt := by
  obtain ⟨ls, p, r, hls, hp, hstmt, hstop⟩ := parse_eq_ok h
  obtain ⟨htrailing, hdropped, hfits⟩ := hexact ls hls
  have hr : r = [] := by
    cases r with
    | nil => rfl
    | cons t q => exact absurd ⟨p, t, q, stmt, hp, hstmt, hstop t rfl⟩ htrailing
  rw [hr, List.append_nil] at hp
  refine ⟨ls, hls.strict hfits, ?_⟩
  rw [hp] at hdropped ⊢
  exact hstmt.strict hdropped

theorem not_goesOn_eof (stmt : SelectStatement F) (p : List (Token F)) : ¬ GoesOn stmt p .eof := by
  unfold GoesOn
  split <;> simp

/-- The tokens of a statement do not begin with another one that stops before them. -/
theorem Statement.not_trailing {ts : List (Token F)} {stmt : SelectStatement F} (h : Statement true ts stmt) :
    ¬ Trailing ts := by
  rintro ⟨p, t, q, stmt', rfl, h', hstop⟩
  have hwhole : parseSelect (p ++ t :: q ++ [.eof]) = .ok (stmt, [.eof]) :=
    parseSelect_iff.2 ⟨_, rfl, h, fun t ht => by cases ht; exact not_goesOn_eof _ _⟩
  have hpart : parseSelect (p ++ t :: q ++ [.eof]) = .ok (stmt', t :: q ++ [.eof]) :=
    parseSelect_iff.2 ⟨p, List.append_assoc .., h', fun t ht => by cases ht; exact hstop⟩
  rw [hwhole] at hpart
  have hlen := congrArg (fun r => r.toOption.map fun p => p.2.length) hpart
  simp [Except.toOption] at hlen

theorem exact_of_written {query : List Char} {stmt : SelectStatement F} (h : Written L query stmt) : Exact L query := by
  obtain ⟨ls, hls, hstmt⟩ := h
  intro ls' hls'
  obtain rfl := hls.relax.unique hls'
  exact ⟨hstmt.relax.not_trailing, hstmt.not_dropped, hls.fits⟩

/-- **An accepted query is a statement of the grammar, with the tree that is returned, exactly if no token stands behind
its statement, none is dropped from the argument of a table, and every numeral is a number of 64 bits.** -/
theorem written_iff (L : Lexis F) (query : List Char) (stmt : SelectStatement F) (h : parse L query = .ok stmt) :
    Written L query stmt ↔ Exact L query :=
  ⟨exact_of_written, written_of_exact h⟩

/-- The tables on ASCII texts, with no floating-point numbers. -/
def Lexis.ascii : Lexis Unit where
  isAlphabetic := Char.isAlpha
  isNumeric := Char.isDigit
  toUppercase := List.map Char.toUpper
  parseFloat _ := ()
  alphabetic_ascii _ _ := rfl
  numeric_ascii _ _ := rfl
  toUppercase_ascii _ _ := rfl
  alphabetic_visible c hc := by
    simp only [Char.isAlpha, Char.isUpper, Char.isLower, Bool.or_eq_true, Bool.and_eq_true, decide_eq_true_eq,
      UInt32.le_iff_toNat_le] at hc
    simp [isWhitespace] at hc ⊢
    omega

theorem written_plain : Written Lexis.ascii "SELECT a FROM t".toList ⟨.columns [['a']], ['t'], none, none⟩ ↔
    Exact Lexis.ascii "SELECT a FROM t".toList :=
  written_iff Lexis.ascii "SELECT a FROM t".toList ⟨.columns [['a']], ['t'], none, none⟩ (by decide +kernel)

/-- A word behind the statement is passed over, and a numeral that is too long becomes zero. -/
theorem trailing_accepted :
    (¬ ∀ (query : List Char) (stmt : SelectStatement Unit), parse Lexis.ascii query = .ok stmt →
      Written Lexis.ascii query stmt) ∧
    parse Lexis.ascii "SELECT a FROM t WHERE a = 99999999999999999999".toList =
      .ok ⟨.columns [['a']], ['t'], none, some (.comparison ['a'] .eq (.int 0))⟩ := by
  refine ⟨fun h => ?_, by decide +kernel⟩
  have hwritten := h "SELECT a FROM t u".toList ⟨.columns [['a']], ['t'], none, none⟩ (by decide +kernel)
  obtain ⟨ls, hls, hstmt⟩ := hwritten
  obtain ⟨ls', hls', htokens⟩ := (tokenize_iff Lexis.ascii).1 (show Lexis.ascii.tokenize "SELECT a FROM t u".toList =
    .ok ([.select, .ident ['a'], .from, .ident ['t'], .ident ['u']] ++ [.eof]) by decide +kernel)
  obtain rfl := hls.relax.unique hls'
  rw [htokens] at hstmt
  refine hstmt.relax.not_trailing ⟨[.select, .ident ['a'], .from, .ident ['t']], .ident ['u'], [],
    ⟨.columns [['a']], ['t'], none, none⟩, rfl, ?_, ?_⟩
  · exact .select (.columns (.one (.bare _))) (.plain _) .none .none
  · simp [GoesOn]

end ThorFirewall.Thorql
