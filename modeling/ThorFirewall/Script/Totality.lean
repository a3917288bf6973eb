import ThorFirewall.Script.Parser

/-!
# Parsing a script comes to an end

The parser does not go beyond the token at the end, so that to advance does not always leave fewer tokens. Each loop
stops at that token, and each of its rounds takes one in front of it (`Consumes`).

- `Cursor`: the tokens and the position of the source, and `advance` on them (`Cursor.advance_rest`);
- `Returns`: a parser that returns, and leaves fewer tokens than it was given;
- `parseScript_returns`: every text is parsed or rejected.
-/

namespace ThorFirewall.Script

/-! ## The position of the parser -/

/-- The fields of `Parser`. -/
structure Cursor where
  tokens : List ScriptToken
  pos : ℕ

namespace Cursor

/-- `advance`, which reads a token at its index. Nothing is an index out of bounds. -/
def advance (c : Cursor) : Option (ScriptToken × Cursor) :=
  c.tokens[c.pos]?.map fun t => (t, if c.pos + 1 < c.tokens.length then { c with pos := c.pos + 1 } else c)

def rest (c : Cursor) : List ScriptToken := c.tokens.drop c.pos

/-- So many calls of `advance`. -/
def advances : ℕ → Cursor → Option Cursor
  | 0, c => some c
  | n + 1, c => c.advance.bind fun p => advances n p.2

variable {c : Cursor}

/-- A position among the tokens advances like the tokens behind it, and stays among them. -/
theorem advance_rest (h : c.pos < c.tokens.length) :
    ∃ d, c.advance = some ((Script.advance c.rest).1, d) ∧ d.rest = (Script.advance c.rest).2 ∧
      d.pos < d.tokens.length := by
  have hdrop : c.rest = c.tokens[c.pos] :: c.tokens.drop (c.pos + 1) := List.drop_eq_getElem_cons h
  have hread : c.tokens[c.pos]? = some c.tokens[c.pos] := List.getElem?_eq_getElem h
  by_cases hnext : c.pos + 1 < c.tokens.length
  · have hbehind : c.tokens.drop (c.pos + 1) = c.tokens[c.pos + 1] :: c.tokens.drop (c.pos + 1 + 1) :=
      List.drop_eq_getElem_cons hnext
    refine ⟨{ c with pos := c.pos + 1 }, ?_, ?_, hnext⟩
    · rw [advance, hread, if_pos hnext, hdrop, hbehind]
      rfl
    · rw [hdrop, hbehind]
      exact hbehind
  · have hbehind : c.tokens.drop (c.pos + 1) = [] := List.drop_eq_nil_of_le (Nat.le_of_not_lt hnext)
    refine ⟨c, ?_, ?_, h⟩
    · rw [advance, hread, if_neg hnext, hdrop, hbehind]
      rfl
    · rw [hdrop, hbehind]
      rfl

/-- However often the parser advances, its index stays in bounds. -/
theorem advances_isSome (n : ℕ) (h : c.pos < c.tokens.length) :
    ∃ d, c.advances n = some d ∧ d.rest = (fun ts => (Script.advance ts).2)^[n] c.rest ∧ d.pos < d.tokens.length := by
  induction n generalizing c with
  | zero => exact ⟨c, rfl, rfl, h⟩
  | succ n ih =>
    obtain ⟨d, hadvance, hrest, hpos⟩ := advance_rest h
    obtain ⟨e, hruns, hruns_rest, hbound⟩ := ih hpos
    refine ⟨e, ?_, ?_, hbound⟩
    · rw [advances, hadvance]
      exact hruns
    · rw [hruns_rest, hrest]
      rfl

end Cursor

/-! ## The end of the tokens -/

/-- The end of the script is the last token, and no other. -/
def Ends (ts : List ScriptToken) : Prop := ∃ body, ts = body ++ [.eof] ∧ .eof ∉ body

section Ends

variable {ts : List ScriptToken}

theorem Ends.length_pos (h : Ends ts) : 0 < ts.length := by
  obtain ⟨body, rfl, _⟩ := h
  rw [List.length_append]
  exact Nat.succ_pos _

/-- Either only the end is left, or another token in front of it. -/
theorem Ends.cases (h : Ends ts) : ts = [.eof] ∨ ∃ t rest, ts = t :: rest ∧ t ≠ .eof ∧ Ends rest := by
  obtain ⟨body, rfl, hbody⟩ := h
  cases body with
  | nil => exact .inl rfl
  | cons t body =>
    rw [List.mem_cons, not_or] at hbody
    exact .inr ⟨t, body ++ [.eof], rfl, Ne.symm hbody.1, body, rfl, hbody.2⟩

theorem Ends.advance (h : Ends ts) : Ends (advance ts).2 := by
  obtain rfl | ⟨t, rest, rfl, _, hrest⟩ := h.cases
  · exact h
  · obtain ⟨u, us, rfl⟩ := List.exists_cons_of_length_pos hrest.length_pos
    exact hrest

theorem length_advance_le (ts : List ScriptToken) : (advance ts).2.length ≤ ts.length := by
  match ts with
  | [] => exact Nat.le_refl _
  | [_] => exact Nat.le_refl _
  | t :: u :: us => exact Nat.le_succ _

/-- A token that is not the end is taken. -/
theorem Ends.length_advance_lt (h : Ends ts) (hne : (Script.advance ts).1 ≠ .eof) :
    (Script.advance ts).2.length < ts.length := by
  obtain rfl | ⟨t, rest, rfl, _, hrest⟩ := h.cases
  · exact absurd rfl hne
  · obtain ⟨u, us, rfl⟩ := List.exists_cons_of_length_pos hrest.length_pos
    exact Nat.lt_succ_self _

theorem peek_eq_advance (ts : List ScriptToken) : peek ts = (advance ts).1 := by
  match ts with
  | [] => rfl
  | [_] => rfl
  | t :: u :: us => rfl

theorem Ends.skip (h : Ends ts) (t : ScriptToken) : Ends (skip t ts) := by
  unfold Script.skip
  split
  · exact h.advance
  · exact h

theorem length_skip_le (t : ScriptToken) (ts : List ScriptToken) : (skip t ts).length ≤ ts.length := by
  unfold skip
  split
  · exact length_advance_le ts
  · exact Nat.le_refl _

end Ends

/-! ## Parsers that return -/

/-- A parser gives an error of the source, or leaves less than so many tokens. -/
def Returns {β : Type} (left : β → List ScriptToken) (n : ℕ) : Except ParseError β → Prop
  | .ok b => Ends (left b) ∧ (left b).length < n
  | .error e => e ≠ .outOfFuel

section Returns

variable {β γ : Type} {left : β → List ScriptToken} {behind : γ → List ScriptToken} {n m : ℕ}
  {x : Except ParseError β}

theorem Returns.mono (h : Returns left n x) (hnm : n ≤ m) : Returns left m x := by
  cases x with
  | ok b => exact ⟨h.1, h.2.trans_le hnm⟩
  | error e => exact h

theorem Returns.bind {f : β → Except ParseError γ} (h : Returns left n x)
    (hf : ∀ b, Ends (left b) → (left b).length < n → Returns behind m (f b)) : Returns behind m (x.bind f) := by
  cases x with
  | ok b => exact hf b h.1 h.2
  | error e => exact h

theorem Returns.map {f : β → γ} (h : Returns left n x)
    (hf : ∀ b, Ends (left b) → (left b).length < n → Ends (behind (f b)) ∧ (behind (f b)).length < m) :
    Returns behind m (x.map f) := by
  cases x with
  | ok b => exact hf b h.1 h.2
  | error e => exact h

theorem Returns.ne_outOfFuel (h : Returns left n x) : x ≠ .error .outOfFuel := by
  cases x with
  | ok b => exact nofun
  | error e => exact fun heq => h (Except.error.inj heq)

theorem Returns.of_ok {b : β} (h : Returns left n x) (hx : x = .ok b) : Ends (left b) ∧ (left b).length < n := by
  rw [hx] at h
  exact h

end Returns

/-! ## One token -/

section Tokens

variable {ts : List ScriptToken}

/-- A single token that is not the end gives a value. -/
theorem returns_token {β : Type} (hts : Ends ts) {f : ScriptToken → Except ParseError β} (hend : ∀ b, f .eof ≠ .ok b)
    (hf : ∀ t, f t ≠ .error .outOfFuel) :
    Returns Prod.snd ts.length ((f (advance ts).1).map (·, (advance ts).2)) := by
  cases hx : f (advance ts).1 with
  | error e => exact fun heq => hf _ (hx.trans (congrArg Except.error heq))
  | ok b => exact ⟨hts.advance, hts.length_advance_lt fun heq => hend b (heq ▸ hx)⟩

theorem returns_expect (hts : Ends ts) (t : ScriptToken) (e : ParseError) (ht : t ≠ .eof) (he : e ≠ .outOfFuel) :
    Returns id ts.length (if peek ts = t then .ok (advance ts).2 else .error e) := by
  split
  · next hpeek => exact ⟨hts.advance, hts.length_advance_lt (peek_eq_advance ts ▸ hpeek ▸ ht)⟩
  · exact he

theorem returns_expectKeyword (kw : String) (hts : Ends ts) : Returns id ts.length (expectKeyword kw ts) := by
  unfold expectKeyword
  exact returns_expect hts _ _ nofun nofun

theorem returns_expectLBrace (hts : Ends ts) : Returns id ts.length (expectLBrace ts) := by
  unfold expectLBrace
  exact returns_expect hts _ _ nofun nofun

theorem returns_expectRBrace (hts : Ends ts) : Returns id ts.length (expectRBrace ts) := by
  unfold expectRBrace
  exact returns_expect hts _ _ nofun nofun

theorem returns_parseName (hts : Ends ts) : Returns Prod.snd ts.length (parseName ts) := by
  unfold parseName
  split
  · next s htoken => exact ⟨hts.advance, hts.length_advance_lt (htoken ▸ nofun)⟩
  · next s htoken => exact ⟨hts.advance, hts.length_advance_lt (htoken ▸ nofun)⟩
  · exact nofun

theorem returns_parseField (hts : Ends ts) : Returns Prod.snd ts.length (parseField ts) := by
  unfold parseField
  split
  · next s htoken => exact ⟨hts.advance, hts.length_advance_lt (htoken ▸ nofun)⟩
  · next s htoken => exact ⟨hts.advance, hts.length_advance_lt (htoken ▸ nofun)⟩
  · exact nofun

theorem fromStr_ne_outOfFuel (s : String) : EventType.fromStr s ≠ .error .outOfFuel := by
  simp only [EventType.fromStr, ne_eq, apply_ite (· = Except.error ParseError.outOfFuel), reduceCtorEq, ite_self,
    Except.error.injEq, not_false_eq_true]

theorem returns_parseEventType (hts : Ends ts) : Returns Prod.snd ts.length (parseEventType ts) := by
  have hword : ∀ s, (advance ts).1 ≠ .eof →
      Returns Prod.snd ts.length ((EventType.fromStr s).map (·, (advance ts).2)) := by
    intro s hne
    cases hs : EventType.fromStr s with
    | error e => exact fun heq => fromStr_ne_outOfFuel s (hs.trans (congrArg Except.error heq))
    | ok e => exact ⟨hts.advance, hts.length_advance_lt hne⟩
  unfold parseEventType
  split
  · next s htoken => exact hword s (htoken ▸ nofun)
  · next s htoken => exact hword s (htoken ▸ nofun)
  · exact nofun

/-- The operator of a single token. -/
def tokenOperator : ScriptToken → Except ParseError Operator
  | .opEq => .ok .eq
  | .opNe => .ok .ne
  | .opLt => .ok .lt
  | .opGt => .ok .gt
  | .opLe => .ok .le
  | .opGe => .ok .ge
  | .keyword k =>
    if k = "in" then .ok .in_
    else if k = "match" then .ok .match_
    else .error (.expectedOperator (.keyword k))
  | other => .error (.expectedOperator other)

theorem parseOperator_eq (ts : List ScriptToken) :
    parseOperator ts = (tokenOperator (advance ts).1).map (·, (advance ts).2) := by
  unfold parseOperator
  cases (advance ts).1 <;> try rfl
  simp only [tokenOperator]
  split_ifs <;> rfl

theorem returns_parseOperator (hts : Ends ts) : Returns Prod.snd ts.length (parseOperator ts) := by
  rw [parseOperator_eq]
  apply returns_token hts
  · exact nofun
  · intro t h
    unfold tokenOperator at h
    split at h <;> try cases h
    split_ifs at h
    cases h

theorem tokenValue_ne_outOfFuel (t : ScriptToken) : tokenValue t ≠ .error .outOfFuel := by
  intro h
  unfold tokenValue at h
  split at h <;> try cases h
  split_ifs at h
  cases h

end Tokens

/-! ## Values -/

/-- A value takes a token at least, and a list of values ends with the tokens. -/
theorem returns_parseValue (fuel : ℕ) :
    (∀ ts, Ends ts → 2 * ts.length ≤ fuel → Returns Prod.snd ts.length (parseValue fuel ts)) ∧
      ∀ ts, Ends ts → 2 * ts.length + 1 ≤ fuel → Returns Prod.snd (ts.length + 1) (parseItems fuel ts) := by
  induction fuel with
  | zero =>
    refine ⟨fun ts hts hfuel => ?_, fun ts hts hfuel => ?_⟩ <;> have := hts.length_pos <;> omega
  | succ fuel ih =>
    refine ⟨fun ts hts hfuel => ?_, fun ts hts hfuel => ?_⟩
    · rw [parseValue]
      split
      · next hbracket =>
        have hlt := hts.length_advance_lt (by rw [hbracket]; exact fun h => by cases h)
        apply (ih.2 _ hts.advance (by omega)).map
        intro p hp hlen
        have hskip := length_skip_le .rbracket p.2
        exact ⟨hp.skip _, by simp only; omega⟩
      · exact returns_token hts (fun _ h => by cases h) tokenValue_ne_outOfFuel
    · rw [parseItems]
      split
      · exact ⟨hts, Nat.lt_succ_self _⟩
      · apply (ih.1 ts hts (by omega)).bind
        intro p hp hlen
        have hskip := length_skip_le .comma p.2
        apply (ih.2 _ (hp.skip _) (by omega)).map
        intro q hq hlenq
        exact ⟨hq, by simp only; omega⟩

/-! ## Conditions -/

section Conditions

variable {ts : List ScriptToken}

theorem returns_parsePayload (hts : Ends ts) : Returns Prod.snd ts.length (parsePayload ts) := by
  unfold parsePayload
  split
  · have hlen := length_advance_le ts
    simp only
    split
    · next pat flags htoken =>
      have hlt := hts.advance.length_advance_lt (htoken ▸ nofun)
      exact ⟨hts.advance.advance, by simp only; omega⟩
    · exact nofun
  · exact nofun

theorem returns_parseSingleCondition {fuel : ℕ} (hts : Ends ts) (hfuel : ts.length ≤ fuel) :
    Returns Prod.snd ts.length (parseSingleCondition fuel ts) := by
  induction fuel generalizing ts with
  | zero => exact absurd hts.length_pos (by omega)
  | succ fuel ih =>
    rw [parseSingleCondition]
    split
    · next hnot =>
      have hlt := hts.length_advance_lt (peek_eq_advance ts ▸ hnot ▸ nofun)
      apply (ih hts.advance (by omega)).map
      intro p hp hlen
      exact ⟨hp, by simp only; omega⟩
    split
    · exact (returns_parsePayload hts.advance).mono (length_advance_le ts)
    · apply (returns_parseField hts).bind
      intro field hfield hlen
      apply (returns_parseOperator hfield).bind
      intro op hop hlen_op
      apply ((returns_parseValue (room op.2)).1 op.2 hop (Nat.le_add_right _ 2)).map
      intro value hvalue hlen_value
      exact ⟨hvalue, by simp only; omega⟩

/-- Each round of the chain takes its `and` or `or`. -/
theorem returns_link {kw : String} (hts : Ends ts) (hpeek : peek ts = .keyword kw) :
    Returns Prod.snd ts.length (parseSingleCondition (room ts) (advance ts).2) := by
  have hlt := hts.length_advance_lt (peek_eq_advance ts ▸ hpeek ▸ nofun)
  exact (returns_parseSingleCondition hts.advance (by unfold room; omega)).mono hlt.le

theorem returns_conditionLoop {fuel : ℕ} (cond : Condition) (hts : Ends ts) (hfuel : ts.length ≤ fuel) :
    Returns Prod.snd (ts.length + 1) (conditionLoop fuel cond ts) := by
  induction fuel generalizing ts cond with
  | zero => exact absurd hts.length_pos (by omega)
  | succ fuel ih =>
    rw [conditionLoop]
    split
    · next hand =>
      apply (returns_link hts hand).bind
      intro p hp hlen
      exact (ih _ hp (by omega)).mono (by omega)
    split
    · next hor =>
      apply (returns_link hts hor).bind
      intro p hp hlen
      exact (ih _ hp (by omega)).mono (by omega)
    · exact ⟨hts, Nat.lt_succ_self _⟩

theorem returns_parseConditions (hts : Ends ts) : Returns Prod.snd ts.length (parseConditions ts) := by
  apply (returns_parseSingleCondition hts (by unfold room; omega)).bind
  intro p hp hlen
  exact (returns_conditionLoop p.1 hp (by unfold room; omega)).mono (by omega)

end Conditions

/-! ## Actions -/

section Actions

variable {ts : List ScriptToken}

/-- What is behind the value of an argument. -/
def behindArgument (ts : List ScriptToken) : List ScriptToken := skip .comma (advance (skip .colon ts)).2

theorem Ends.behindArgument (h : Ends ts) : Ends (behindArgument ts) := (h.skip _).advance.skip _

theorem length_behindArgument_le (ts : List ScriptToken) : (behindArgument ts).length ≤ ts.length :=
  (length_skip_le _ _).trans ((length_advance_le _).trans (length_skip_le _ _))

theorem returns_alertLoop {fuel : ℕ} (severity msg : String) (hts : Ends ts) (hfuel : ts.length ≤ fuel) :
    Returns Prod.snd (ts.length + 1) (alertLoop fuel severity msg ts) := by
  induction fuel generalizing ts severity msg with
  | zero => exact absurd hts.length_pos (by omega)
  | succ fuel ih =>
    rw [alertLoop]
    split
    · exact ⟨hts, Nat.lt_succ_self _⟩
    · have hfield := returns_parseField hts
      cases hkey : parseField ts with
      | error e => exact ⟨hts.advance, Nat.lt_succ_of_le (length_advance_le ts)⟩
      | ok key =>
        obtain ⟨key, rest⟩ := key
        obtain ⟨hrest, hlen⟩ := hfield.of_ok hkey
        have hbehind := length_behindArgument_le rest
        simp only at hrest hlen
        have hround : ∀ severity msg, Returns Prod.snd (ts.length + 1)
            (alertLoop fuel severity msg (Script.behindArgument rest)) := fun severity msg =>
          (ih severity msg hrest.behindArgument (by omega)).mono (by omega)
        simp only
        split
        · exact hround _ msg
        split
        · exact hround severity _
        · exact hround severity msg

theorem returns_parseAction (hts : Ends ts) : Returns Prod.snd ts.length (parseAction ts) := by
  have hadvance := hts.advance
  unfold parseAction
  simp only
  split
  · next halert =>
    have hlt := hts.length_advance_lt (halert ▸ nofun)
    have hparen := length_skip_le .lparen (advance ts).2
    apply (returns_alertLoop "medium" "" (hadvance.skip .lparen) (by unfold room; omega)).map
    intro p hp hlen
    have hclose := length_skip_le .rparen p.2
    exact ⟨hp.skip _, by simp only; omega⟩
  split
  · next hlog =>
    have hlt := hts.length_advance_lt (hlog ▸ nofun)
    have hclose := length_skip_le .rparen (advance (skip .lparen (advance ts).2)).2
    have htext := length_advance_le (skip .lparen (advance ts).2)
    have hparen := length_skip_le .lparen (advance ts).2
    exact ⟨(hadvance.skip _).advance.skip _, by simp only; omega⟩
  split
  · next hdrop =>
    have hlt := hts.length_advance_lt (hdrop ▸ nofun)
    have hclose := length_skip_le .rparen (skip .lparen (advance ts).2)
    have hparen := length_skip_le .lparen (advance ts).2
    exact ⟨(hadvance.skip _).skip _, by simp only; omega⟩
  · exact nofun

theorem returns_parseActions {fuel : ℕ} (hts : Ends ts) (hfuel : ts.length ≤ fuel) :
    Returns Prod.snd (ts.length + 1) (parseActions fuel ts) := by
  induction fuel generalizing ts with
  | zero => exact absurd hts.length_pos (by omega)
  | succ fuel ih =>
    rw [parseActions]
    split
    · exact ⟨hts, Nat.lt_succ_self _⟩
    · apply (returns_parseAction hts).bind
      intro p hp hlen
      apply (ih hp (by omega)).map
      intro q hq hlen_q
      exact ⟨hq, by simp only; omega⟩

end Actions

/-! ## Rules -/

section Rules

variable {ts : List ScriptToken}

theorem returns_parseRule (hts : Ends ts) : Returns Prod.snd ts.length (parseRule ts) := by
  unfold parseRule
  refine (returns_expectKeyword "rule" hts).bind fun ts₁ h₁ hlen₁ => ?_
  refine (returns_parseName h₁).bind fun name hname hlen₂ => ?_
  refine (returns_expectLBrace hname).bind fun ts₃ h₃ hlen₃ => ?_
  refine (returns_expectKeyword "on" h₃).bind fun ts₄ h₄ hlen₄ => ?_
  refine (returns_parseEventType h₄).bind fun eventType h₅ hlen₅ => ?_
  refine (returns_expectKeyword "if" h₅).bind fun ts₆ h₆ hlen₆ => ?_
  refine (returns_expectLBrace h₆).bind fun ts₇ h₇ hlen₇ => ?_
  refine (returns_parseConditions h₇).bind fun condition h₈ hlen₈ => ?_
  refine (returns_expectRBrace h₈).bind fun ts₉ h₉ hlen₉ => ?_
  refine (returns_expectKeyword "then" h₉).bind fun ts₁₀ h₁₀ hlen₁₀ => ?_
  refine (returns_expectLBrace h₁₀).bind fun ts₁₁ h₁₁ hlen₁₁ => ?_
  refine (returns_parseActions h₁₁ (by simp only [id, room]; omega)).bind fun actions h₁₂ hlen₁₂ => ?_
  refine (returns_expectRBrace h₁₂).bind fun ts₁₃ h₁₃ hlen₁₃ => ?_
  refine (returns_expectRBrace h₁₃).bind fun ts₁₄ h₁₄ hlen₁₄ => ?_
  exact ⟨h₁₄, by simp only [id] at *; omega⟩

theorem parseAll_ne_outOfFuel {fuel : ℕ} (hts : Ends ts) (hfuel : ts.length ≤ fuel) :
    parseAll fuel ts ≠ .error .outOfFuel := by
  induction fuel generalizing ts with
  | zero => exact absurd hts.length_pos (by omega)
  | succ fuel ih =>
    rw [parseAll]
    split
    · exact nofun
    · next hne =>
      split
      · apply Except.bind_ne_error (returns_parseRule hts).ne_outOfFuel
        intro p hp
        obtain ⟨hrest, hlen⟩ := (returns_parseRule hts).of_ok hp
        exact Except.map_ne_error (ih hrest (by omega))
      · have hlt := hts.length_advance_lt (peek_eq_advance ts ▸ hne)
        exact ih hts.advance (by omega)

end Rules

/-! ## The tokens of a text -/

theorem wordToken_ne_eof (word : List Char) : wordToken word ≠ .eof := by
  unfold wordToken
  split <;> exact nofun

theorem punctuation_ne_eof (c : Char) : punctuation c ≠ some .eof := by
  unfold punctuation
  split <;> exact nofun

theorem operator_ne_eof (c : Char) (pair : Bool) : operator c pair ≠ some .eof := by
  unfold operator
  split_ifs <;> exact nofun

theorem readLexeme_ne_eof (c : Char) (s : List Char) : (readLexeme c s).1 ≠ some .eof := by
  unfold readLexeme
  split_ifs
  · exact nofun
  · exact nofun
  · exact fun h => wordToken_ne_eof _ (Option.some.inj h)
  · exact punctuation_ne_eof c

/-- No round gives the token at the end. -/
theorem round_ne_eof (s : List Char) : (round s).1 ≠ some .eof := by
  cases s with
  | nil =>
    intro h
    cases h
  | cons c s =>
    rw [round]
    split_ifs
    · intro h
      cases h
    · intro h
      cases h
    · unfold readComment
      split_ifs <;> exact fun h => by cases h
    · intro h
      cases h
    · exact operator_ne_eof c _
    · exact readLexeme_ne_eof c s

theorem eof_notMem_rounds {src : List Char} {ts : List ScriptToken}
    (h : Scanner.Rounds (fun s => (.ok (round s) : Except ParseError _)) src ts) : .eof ∉ ts := by
  induction h with
  | nil => exact List.not_mem_nil
  | @cons s rest t ts _ hround _ ih =>
    have ht : (round s).1 = t := congrArg Prod.fst (Except.ok.inj hround)
    rw [List.mem_append, not_or, Option.mem_toList, ← ht]
    exact ⟨round_ne_eof s, ih⟩

/-- **Every text has tokens**, and they end with the end of the script. -/
theorem tokenize_ends (src : List Char) : ∃ ts, tokenize src = .ok ts ∧ Ends ts := by
  cases hts : tokenize src with
  | error e =>
    refine absurd hts (Except.map_ne_error ?_)
    exact Scanner.tokens_ne_error (fun s h => by cases h) src
  | ok ts =>
    obtain ⟨body, hbody, rfl⟩ := Except.map_eq_ok.1 hts
    have hrounds := (Scanner.tokens_eq_ok_iff round_shrinks).1 hbody
    exact ⟨_, rfl, body, rfl, eof_notMem_rounds hrounds⟩

/-! ## Every script is parsed or rejected -/

/-- A round of each loop of the parser leaves fewer tokens. -/
structure Consumes (ts : List ScriptToken) : Prop where
  /-- `parse_all`: a rule, or a token that is skipped. -/
  rules : peek ts ≠ .eof →
    (∀ p, parseRule ts = .ok p → p.2.length < ts.length) ∧ (advance ts).2.length < ts.length
  /-- `parse_conditions`. -/
  conditions : peek ts = .keyword "and" ∨ peek ts = .keyword "or" →
    ∀ p, parseSingleCondition (room ts) (advance ts).2 = .ok p → p.2.length < ts.length
  /-- The values of a list. -/
  items : ∀ fuel p, 2 * ts.length ≤ fuel → parseValue fuel ts = .ok p → (skip .comma p.2).length < ts.length
  /-- `parse_actions`. -/
  actions : ∀ p, parseAction ts = .ok p → p.2.length < ts.length
  /-- The arguments of an alert. -/
  arguments : ∀ key, parseField ts = .ok key → (behindArgument key.2).length < ts.length

theorem Ends.consumes {ts : List ScriptToken} (h : Ends ts) : Consumes ts where
  rules hne := ⟨fun _ hp => ((returns_parseRule h).of_ok hp).2, h.length_advance_lt (peek_eq_advance ts ▸ hne)⟩
  conditions hpeek _ hp := by
    cases hpeek with
    | inl hand => exact ((returns_link h hand).of_ok hp).2
    | inr hor => exact ((returns_link h hor).of_ok hp).2
  items _ p hfuel hp := (length_skip_le _ p.2).trans_lt (((returns_parseValue _).1 ts h hfuel).of_ok hp).2
  actions _ hp := ((returns_parseAction h).of_ok hp).2
  arguments key hkey := (length_behindArgument_le key.2).trans_lt ((returns_parseField h).of_ok hkey).2

/-- **Parsing a script always ends**, with rules or an error of the source. A round of the tokenizer takes a character,
the tokens end where the script does, a round of each loop over such tokens takes one, and the parser's index stays in
bounds however often it advances. -/
theorem parseScript_returns (src : List Char) :
    parseScript src ≠ .error .outOfFuel ∧
      (∀ c s, (round (c :: s)).2.length < (c :: s).length) ∧
      (∃ ts, tokenize src = .ok ts ∧ Ends ts ∧ ∀ n, ∃ d, (Cursor.mk ts 0).advances n = some d ∧
        d.rest = (fun ts => (advance ts).2)^[n] ts) ∧
      ∀ ts, Ends ts → Consumes ts ∧ Ends (advance ts).2 := by
  obtain ⟨ts, hts, hends⟩ := tokenize_ends src
  refine ⟨?_, fun c s => ?_, ⟨ts, hts, hends, fun n => ?_⟩, fun us hus => ⟨hus.consumes, hus.advance⟩⟩
  · rw [parseScript, hts]
    exact parseAll_ne_outOfFuel hends (by unfold room; omega)
  · exact round_shrinks (c :: s) _ _ (List.cons_ne_nil c s) rfl
  · obtain ⟨d, hruns, hrest, _⟩ := Cursor.advances_isSome (c := ⟨ts, 0⟩) n hends.length_pos
    exact ⟨d, hruns, hrest⟩

end ThorFirewall.Script
