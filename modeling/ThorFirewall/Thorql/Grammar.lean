import Mathlib
import ThorFirewall.Thorql.Parser

/-!
# The grammar of ThorQL

What the tokens of a statement are, and its syntax tree: a column list or a star, a table with at most one join, and an
expression in which NOT binds more than AND, AND more than OR, and both associate to the left. With `lax`, the argument
of a table may have tokens of any kind, which leave no trace in the tree.

- `parseSelect_iff`: what is read is a statement, up to a token that does not go on with it;
- `parse_ne_outOfFuel`: there is always enough fuel.
-/

namespace ThorFirewall.Thorql

variable {F : Type*}

/-! ## Derivations -/

/-- A column, maybe qualified by a table. -/
inductive Qualified : List (Token F) → List Char → Prop
  | bare (name : List Char) : Qualified [.ident name] name
  | dotted (name col : List Char) : Qualified [.ident name, .dot, .ident col] (name ++ '.' :: col)

/-- The kinds of tokens that an argument is made of. -/
def Token.inArg : Token F → Bool
  | lparen => true
  | rparen => true
  | dot => true
  | ident _ => true
  | strLit _ => true
  | _ => false

/-- The rest of an argument at a depth of parentheses, with its closing one, and its text. -/
inductive Arg (lax : Bool) : ℕ → List (Token F) → List Char → Prop
  | close : Arg lax 1 [.rparen] []
  | open {d : ℕ} {ts : List (Token F)} {a : List Char} (h : Arg lax (d + 1) ts a) :
      Arg lax d (.lparen :: ts) ('(' :: a)
  | shut {d : ℕ} {ts : List (Token F)} {a : List Char} (hd : 0 < d) (h : Arg lax d ts a) :
      Arg lax (d + 1) (.rparen :: ts) (')' :: a)
  | str {d : ℕ} {ts : List (Token F)} {a : List Char} (s : List Char) (h : Arg lax d ts a) :
      Arg lax d (.strLit s :: ts) ('\'' :: s ++ '\'' :: a)
  | ident {d : ℕ} {ts : List (Token F)} {a : List Char} (s : List Char) (h : Arg lax d ts a) :
      Arg lax d (.ident s :: ts) (s ++ a)
  | dot {d : ℕ} {ts : List (Token F)} {a : List Char} (h : Arg lax d ts a) : Arg lax d (.dot :: ts) ('.' :: a)
  | other {d : ℕ} {ts : List (Token F)} {a : List Char} {t : Token F} (hlax : lax = true) (ht : t.inArg = false)
      (heof : t ≠ .eof) (h : Arg lax d ts a) : Arg lax d (t :: ts) a

/-- A table name, maybe with an argument. -/
inductive Table (lax : Bool) : List (Token F) → List Char → Prop
  | plain (name : List Char) : Table lax [.ident name] name
  | param (name : List Char) {ts : List (Token F)} {a : List Char} (h : Arg lax 1 ts a) :
      Table lax (.ident name :: .lparen :: ts) (name ++ '(' :: a ++ [')'])

/-- The tokens of an operator. -/
def Op.tokens : Op → List (Token F)
  | eq => [.eq]
  | notEq => [.notEq]
  | gt => [.gt]
  | lt => [.lt]
  | gte => [.gte]
  | lte => [.lte]
  | like => [.like]
  | notLike => [.not, .like]

def Value.token : Value F → Token F
  | str s => .strLit s
  | int n => .intLit n
  | float x => .floatLit x

inductive Level
  | primary
  | unary
  | and
  | or

/-- An expression of a level, and its tree. -/
inductive Derives : Level → List (Token F) → Expr F → Prop
  | comparison {ts : List (Token F)} {column : List Char} (h : Qualified ts column) (op : Op) (value : Value F) :
      Derives .primary (ts ++ (op.tokens ++ [value.token])) (.comparison column op value)
  | paren {ts : List (Token F)} {e : Expr F} (h : Derives .or ts e) :
      Derives .primary (.lparen :: (ts ++ [.rparen])) e
  | not {ts : List (Token F)} {e : Expr F} (h : Derives .unary ts e) : Derives .unary (.not :: ts) (.not e)
  | primary {ts : List (Token F)} {e : Expr F} (h : Derives .primary ts e) : Derives .unary ts e
  | and {ts us : List (Token F)} {a b : Expr F} (ha : Derives .and ts a) (hb : Derives .unary us b) :
      Derives .and (ts ++ .and :: us) (.and a b)
  | unary {ts : List (Token F)} {e : Expr F} (h : Derives .unary ts e) : Derives .and ts e
  | or {ts us : List (Token F)} {a b : Expr F} (ha : Derives .or ts a) (hb : Derives .and us b) :
      Derives .or (ts ++ .or :: us) (.or a b)
  | conjunction {ts : List (Token F)} {e : Expr F} (h : Derives .and ts e) : Derives .or ts e

/-- A list of columns. -/
inductive Columns : List (Token F) → List (List Char) → Prop
  | one {ts : List (Token F)} {col : List Char} (h : Qualified ts col) : Columns ts [col]
  | cons {ts us : List (Token F)} {col : List Char} {cols : List (List Char)} (h : Qualified ts col)
      (hs : Columns us cols) : Columns (ts ++ .comma :: us) (col :: cols)

inductive Projected : List (Token F) → Projection → Prop
  | all : Projected [.star] .all
  | columns {ts : List (Token F)} {cols : List (List Char)} (h : Columns ts cols) : Projected ts (.columns cols)

inductive Joined (lax : Bool) : List (Token F) → Option JoinClause → Prop
  | none : Joined lax [] none
  | join {ts us vs : List (Token F)} {table leftKey rightKey : List Char} (ht : Table lax ts table)
      (hl : Qualified us leftKey) (hr : Qualified vs rightKey) :
      Joined lax (.join :: (ts ++ .on :: (us ++ .eq :: vs))) (some ⟨table, leftKey, rightKey⟩)

inductive Filtered : List (Token F) → Option (Expr F) → Prop
  | none : Filtered [] none
  | where {ts : List (Token F)} {e : Expr F} (h : Derives .or ts e) : Filtered (.where :: ts) (some e)

/-- The tokens of a statement. -/
inductive Statement (lax : Bool) : List (Token F) → SelectStatement F → Prop
  | select {ps ts js ws : List (Token F)} {projection : Projection} {table : List Char} {join : Option JoinClause}
      {condition : Option (Expr F)} (hp : Projected ps projection) (ht : Table lax ts table) (hj : Joined lax js join)
      (hw : Filtered ws condition) :
      Statement lax (.select :: (ps ++ .from :: (ts ++ (js ++ ws)))) ⟨projection, table, join, condition⟩

/-! ## Words -/

theorem expect_self (t : Token F) (ts : List (Token F)) : expect t (t :: ts) = .ok ts := if_pos rfl

/-- A token without contents is the only one of its kind. -/
theorem eq_of_ctorIdx {t u : Token F} (ht : t ∈ [.select, .from, .on, .eq, .rparen]) (h : u.ctorIdx = t.ctorIdx) :
    u = t := by
  simp only [List.mem_cons, List.not_mem_nil, or_false] at ht
  obtain rfl | rfl | rfl | rfl | rfl := ht <;> cases u <;> first | rfl | cases h

theorem eq_cons_of_expect {t : Token F} {ts rest : List (Token F)} (ht : t ∈ [.select, .from, .on, .eq, .rparen])
    (h : expect t ts = .ok rest) : ts = t :: rest := by
  unfold expect at h
  split_ifs at h with hidx
  cases h
  have hpeek := eq_of_ctorIdx ht hidx
  cases ts with
  | nil =>
    cases hpeek
    exact absurd ht (by simp [peek])
  | cons u ts => exact congrArg (· :: ts) hpeek

/-- A column is read unless a point goes on with it. -/
theorem readQualifiedIdent_iff {ts rest : List (Token F)} {c : List Char} :
    readQualifiedIdent ts = .ok (c, rest) ↔
      ∃ p, ts = p ++ rest ∧ Qualified p c ∧ (p.length = 1 → rest.head? ≠ some .dot) := by
  constructor
  · intro h
    unfold readQualifiedIdent at h
    split at h
    · cases h
      exact ⟨_, rfl, .dotted _ _, fun h => by cases h⟩
    · cases h
    · next hdot =>
      cases h
      refine ⟨_, rfl, .bare _, fun _ hhead => ?_⟩
      obtain ⟨rest, rfl⟩ := List.head?_eq_some_iff.1 hhead
      exact hdot _ rfl
    · cases h
  · rintro ⟨p, rfl, h, hdot⟩
    cases h with
    | bare name =>
      cases rest with
      | nil => rfl
      | cons t rest => cases t <;> first | rfl | exact absurd rfl (hdot rfl)
    | dotted name col => rfl

theorem readArg_iff {d : ℕ} {ts rest : List (Token F)} {a : List Char} (hd : 0 < d) :
    readArg d ts = .ok (a, rest) ↔ ∃ p, ts = p ++ rest ∧ Arg true d p a := by
  constructor
  · intro h
    induction ts generalizing d a with
    | nil => cases h
    | cons t ts ih =>
      cases t with
      | eof => cases h
      | lparen =>
        obtain ⟨q, hq, heq⟩ := Except.map_eq_ok.1 h
        cases heq
        obtain ⟨p, rfl, hp⟩ := ih (Nat.succ_pos d) hq
        exact ⟨_, rfl, .open hp⟩
      | rparen =>
        unfold readArg at h
        split_ifs at h with hone
        · cases h
          subst hone
          exact ⟨[.rparen], rfl, .close⟩
        · obtain ⟨q, hq, heq⟩ := Except.map_eq_ok.1 h
          cases heq
          obtain ⟨p, rfl, hp⟩ := ih (by omega) hq
          obtain ⟨d, rfl⟩ := Nat.exists_eq_add_of_le' hd
          exact ⟨.rparen :: p, rfl, .shut (by omega) hp⟩
      | strLit s =>
        obtain ⟨q, hq, heq⟩ := Except.map_eq_ok.1 h
        cases heq
        obtain ⟨p, rfl, hp⟩ := ih hd hq
        exact ⟨_, rfl, .str s hp⟩
      | ident s =>
        obtain ⟨q, hq, heq⟩ := Except.map_eq_ok.1 h
        cases heq
        obtain ⟨p, rfl, hp⟩ := ih hd hq
        exact ⟨_, rfl, .ident s hp⟩
      | dot =>
        obtain ⟨q, hq, heq⟩ := Except.map_eq_ok.1 h
        cases heq
        obtain ⟨p, rfl, hp⟩ := ih hd hq
        exact ⟨_, rfl, .dot hp⟩
      | _ =>
        obtain ⟨p, rfl, hp⟩ := ih hd h
        exact ⟨_, rfl, .other rfl rfl nofun hp⟩
  · rintro ⟨p, rfl, h⟩
    induction h with
    | close => rfl
    | «open» _ ih => exact Except.map_eq_ok.2 ⟨_, ih (Nat.succ_pos _), rfl⟩
    | shut hd' _ ih =>
      rw [List.cons_append, readArg, if_neg (by omega)]
      exact Except.map_eq_ok.2 ⟨_, ih hd', rfl⟩
    | str s _ ih => exact Except.map_eq_ok.2 ⟨_, ih hd, rfl⟩
    | ident s _ ih => exact Except.map_eq_ok.2 ⟨_, ih hd, rfl⟩
    | dot _ ih => exact Except.map_eq_ok.2 ⟨_, ih hd, rfl⟩
    | @other _ _ _ t hlax ht heof _ ih =>
      cases t <;> first | exact ih hd | exact absurd rfl heof | nomatch ht

/-- A table is read unless a parenthesis goes on with it. -/
theorem parseTableName_iff {ts rest : List (Token F)} {c : List Char} :
    parseTableName ts = .ok (c, rest) ↔
      ∃ p, ts = p ++ rest ∧ Table true p c ∧ (p.length = 1 → rest.head? ≠ some .lparen) := by
  constructor
  · intro h
    unfold parseTableName at h
    split at h
    · obtain ⟨q, hq, heq⟩ := Except.map_eq_ok.1 h
      cases heq
      obtain ⟨p, rfl, hp⟩ := (readArg_iff Nat.one_pos).1 hq
      exact ⟨_, rfl, .param _ hp, fun h => by cases h⟩
    · next hparen =>
      cases h
      refine ⟨_, rfl, .plain _, fun _ hhead => ?_⟩
      obtain ⟨rest, rfl⟩ := List.head?_eq_some_iff.1 hhead
      exact hparen _ rfl
    · cases h
  · rintro ⟨p, rfl, h, hparen⟩
    cases h with
    | plain name =>
      cases rest with
      | nil => rfl
      | cons t rest => cases t <;> first | rfl | exact absurd rfl (hparen rfl)
    | param name h => exact Except.map_eq_ok.2 ⟨_, (readArg_iff Nat.one_pos).2 ⟨_, rfl, h⟩, rfl⟩

theorem readOp_iff {ts rest : List (Token F)} {op : Op} : readOp ts = .ok (op, rest) ↔ ts = op.tokens ++ rest := by
  constructor
  · intro h
    unfold readOp at h
    split at h <;> cases h <;> rfl
  · rintro rfl
    cases op <;> rfl

theorem readValue_iff {ts rest : List (Token F)} {value : Value F} :
    readValue ts = .ok (value, rest) ↔ ts = value.token :: rest := by
  constructor
  · intro h
    unfold readValue at h
    split at h <;> cases h <;> rfl
  · rintro rfl
    cases value <;> rfl

/-! ## Expressions -/

/-- What is left does not go on with a conjunction. -/
def StopsAnd (rest : List (Token F)) : Prop := rest.head? ≠ some .and

/-- What is left does not go on with an expression. -/
def StopsOr (rest : List (Token F)) : Prop := rest.head? ≠ some .and ∧ rest.head? ≠ some .or

theorem orLoop_stop {left : Expr F} {rest : List (Token F)} (h : rest.head? ≠ some .or) (fuel : ℕ) :
    orLoop (fuel + 1) left rest = .ok (left, rest) := by
  cases rest with
  | nil => rfl
  | cons t rest => cases t <;> first | rfl | exact absurd rfl h

theorem andLoop_stop {left : Expr F} {rest : List (Token F)} (h : rest.head? ≠ some .and) (fuel : ℕ) :
    andLoop (fuel + 1) left rest = .ok (left, rest) := by
  cases rest with
  | nil => rfl
  | cons t rest => cases t <;> first | rfl | exact absurd rfl h

theorem parseUnary_of_ne {ts : List (Token F)} (h : ts.head? ≠ some .not) (fuel : ℕ) :
    parseUnary (fuel + 1) ts = parsePrimary fuel ts := by
  cases ts with
  | nil => rfl
  | cons t ts => cases t <;> first | rfl | exact absurd rfl h

theorem parsePrimary_of_ne {ts : List (Token F)} (h : ts.head? ≠ some .lparen) (fuel : ℕ) :
    parsePrimary (fuel + 1) ts =
      (readQualifiedIdent ts).bind fun (column, ts) =>
      (readOp ts).bind fun (op, ts) =>
      (readValue ts).map fun (value, ts) => (.comparison column op value, ts) := by
  cases ts with
  | nil => rfl
  | cons t ts => cases t <;> first | rfl | exact absurd rfl h

/-- What the functions read with so much fuel. -/
structure Sound (F : Type*) (fuel : ℕ) : Prop where
  or : ∀ {ts rest : List (Token F)} {e}, parseOrExpr fuel ts = .ok (e, rest) →
    ∃ p, ts = p ++ rest ∧ Derives .or p e ∧ StopsOr rest
  orLoop : ∀ {ts rest q : List (Token F)} {left e}, Derives .or q left → StopsAnd ts →
    orLoop fuel left ts = .ok (e, rest) → ∃ p, ts = p ++ rest ∧ Derives .or (q ++ p) e ∧ StopsOr rest
  and : ∀ {ts rest : List (Token F)} {e}, parseAndExpr fuel ts = .ok (e, rest) →
    ∃ p, ts = p ++ rest ∧ Derives .and p e ∧ StopsAnd rest
  andLoop : ∀ {ts rest q : List (Token F)} {left e}, Derives .and q left →
    andLoop fuel left ts = .ok (e, rest) → ∃ p, ts = p ++ rest ∧ Derives .and (q ++ p) e ∧ StopsAnd rest
  unary : ∀ {ts rest : List (Token F)} {e}, parseUnary fuel ts = .ok (e, rest) →
    ∃ p, ts = p ++ rest ∧ Derives .unary p e
  primary : ∀ {ts rest : List (Token F)} {e}, parsePrimary fuel ts = .ok (e, rest) →
    ∃ p, ts = p ++ rest ∧ Derives .primary p e

theorem sound (F : Type*) (fuel : ℕ) : Sound F fuel := by
  induction fuel with
  | zero => constructor <;> intros <;> simp_all [parseOrExpr, orLoop, parseAndExpr, andLoop, parseUnary, parsePrimary]
  | succ fuel ih =>
    constructor
    case or =>
      intro ts rest e h
      obtain ⟨⟨left, ts'⟩, hleft, hloop⟩ := Except.bind_eq_ok.1 h
      obtain ⟨p, rfl, hp, hstop⟩ := ih.and hleft
      obtain ⟨p', rfl, hp', hstop'⟩ := ih.orLoop (.conjunction hp) hstop hloop
      exact ⟨p ++ p', (List.append_assoc ..).symm, hp', hstop'⟩
    case orLoop =>
      intro ts rest q left e hq hts h
      by_cases hor : ts.head? = some .or
      · obtain ⟨ts, rfl⟩ := List.head?_eq_some_iff.1 hor
        obtain ⟨⟨right, ts'⟩, hright, hloop⟩ := Except.bind_eq_ok.1 h
        obtain ⟨p, rfl, hp, hstop⟩ := ih.and hright
        obtain ⟨p', rfl, hp', hstop'⟩ := ih.orLoop (.or hq hp) hstop hloop
        refine ⟨.or :: (p ++ p'), by simp, ?_, hstop'⟩
        rwa [List.append_assoc, List.cons_append] at hp'
      · rw [orLoop_stop hor] at h
        cases h
        exact ⟨[], rfl, by rwa [List.append_nil], hts, hor⟩
    case and =>
      intro ts rest e h
      obtain ⟨⟨left, ts'⟩, hleft, hloop⟩ := Except.bind_eq_ok.1 h
      obtain ⟨p, rfl, hp⟩ := ih.unary hleft
      obtain ⟨p', rfl, hp', hstop'⟩ := ih.andLoop (.unary hp) hloop
      exact ⟨p ++ p', (List.append_assoc ..).symm, hp', hstop'⟩
    case andLoop =>
      intro ts rest q left e hq h
      by_cases hand : ts.head? = some .and
      · obtain ⟨ts, rfl⟩ := List.head?_eq_some_iff.1 hand
        obtain ⟨⟨right, ts'⟩, hright, hloop⟩ := Except.bind_eq_ok.1 h
        obtain ⟨p, rfl, hp⟩ := ih.unary hright
        obtain ⟨p', rfl, hp', hstop'⟩ := ih.andLoop (.and hq hp) hloop
        refine ⟨.and :: (p ++ p'), by simp, ?_, hstop'⟩
        rwa [List.append_assoc, List.cons_append] at hp'
      · rw [andLoop_stop hand] at h
        cases h
        exact ⟨[], rfl, by rwa [List.append_nil], hand⟩
    case unary =>
      intro ts rest e h
      by_cases hnot : ts.head? = some .not
      · obtain ⟨ts, rfl⟩ := List.head?_eq_some_iff.1 hnot
        obtain ⟨⟨e', ts'⟩, he, heq⟩ := Except.map_eq_ok.1 h
        cases heq
        obtain ⟨p, rfl, hp⟩ := ih.unary he
        exact ⟨.not :: p, rfl, .not hp⟩
      · rw [parseUnary_of_ne hnot] at h
        obtain ⟨p, rfl, hp⟩ := ih.primary h
        exact ⟨p, rfl, .primary hp⟩
    case primary =>
      intro ts rest e h
      by_cases hparen : ts.head? = some .lparen
      · obtain ⟨ts, rfl⟩ := List.head?_eq_some_iff.1 hparen
        obtain ⟨⟨e', ts'⟩, he, h⟩ := Except.bind_eq_ok.1 h
        obtain ⟨ts'', hclose, heq⟩ := Except.map_eq_ok.1 h
        cases heq
        obtain ⟨p, rfl, hp, -⟩ := ih.or he
        cases eq_cons_of_expect (by simp) hclose
        exact ⟨.lparen :: (p ++ [.rparen]), by simp, .paren hp⟩
      · rw [parsePrimary_of_ne hparen] at h
        obtain ⟨⟨column, ts'⟩, hcolumn, h⟩ := Except.bind_eq_ok.1 h
        obtain ⟨⟨op, ts''⟩, hop, h⟩ := Except.bind_eq_ok.1 h
        obtain ⟨⟨value, ts'''⟩, hvalue, heq⟩ := Except.map_eq_ok.1 h
        cases heq
        obtain ⟨p, rfl, hp, -⟩ := readQualifiedIdent_iff.1 hcolumn
        cases readOp_iff.1 hop
        cases readValue_iff.1 hvalue
        exact ⟨p ++ (op.tokens ++ [value.token]), by simp, .comparison hp op value⟩

/-! ## Derivations are read -/

theorem Qualified.head {ts : List (Token F)} {c : List Char} (h : Qualified ts c) :
    ∃ name ts', ts = .ident name :: ts' := by
  cases h with
  | bare => exact ⟨_, _, rfl⟩
  | dotted => exact ⟨_, _, rfl⟩

theorem Op.tokens_head (op : Op) : ∃ (t : Token F) (ts : List (Token F)), op.tokens = t :: ts ∧ t ≠ .dot := by
  cases op <;> exact ⟨_, _, rfl, nofun⟩

/-- What the functions read, given the derivation of a level. A loop that goes on behind it is followed. -/
def Read (p : List (Token F)) (e : Expr F) : Level → Prop
  | .primary => ∀ rest n, 6 * p.length ≤ n → parsePrimary n (p ++ rest) = .ok (e, rest)
  | .unary => ∀ rest n, 6 * p.length + 1 ≤ n → parseUnary n (p ++ rest) = .ok (e, rest)
  | .and => ∀ rest r m, (∀ n ≥ m, andLoop n e rest = r) →
      ∀ n, m + 6 * p.length + 2 ≤ n → parseAndExpr n (p ++ rest) = r
  | .or => ∀ rest r m, StopsAnd rest → (∀ n ≥ m, orLoop n e rest = r) →
      ∀ n, m + 6 * p.length + 4 ≤ n → parseOrExpr n (p ++ rest) = r

theorem Read.of_and {p rest : List (Token F)} {e : Expr F} (h : Read p e .and) (hstop : StopsAnd rest) {n : ℕ}
    (hn : 6 * p.length + 3 ≤ n) : parseAndExpr n (p ++ rest) = .ok (e, rest) := by
  refine h rest _ 1 (fun n hn => ?_) n (by omega)
  obtain ⟨n, rfl⟩ := Nat.exists_eq_add_of_le' hn
  exact andLoop_stop hstop n

theorem Read.of_or {p rest : List (Token F)} {e : Expr F} (h : Read p e .or) (hstop : StopsOr rest) {n : ℕ}
    (hn : 6 * p.length + 5 ≤ n) : parseOrExpr n (p ++ rest) = .ok (e, rest) := by
  refine h rest _ 1 hstop.1 (fun n hn => ?_) n (by omega)
  obtain ⟨n, rfl⟩ := Nat.exists_eq_add_of_le' hn
  exact orLoop_stop hstop.2 n

theorem Derives.read {level : Level} {p : List (Token F)} {e : Expr F} (h : Derives level p e) : Read p e level := by
  induction h with
  | @comparison ts column h op value =>
    intro rest n hn
    obtain ⟨name, ts', hts⟩ := h.head
    obtain ⟨t, us, hop, hdot⟩ := op.tokens_head (F := F)
    obtain ⟨n, rfl⟩ : ∃ m, n = m + 1 := ⟨n - 1, by simp [hts] at hn; omega⟩
    have hcolumn : readQualifiedIdent (ts ++ (op.tokens ++ value.token :: rest)) =
        .ok (column, op.tokens ++ value.token :: rest) :=
      readQualifiedIdent_iff.2 ⟨ts, rfl, h, fun _ => by simpa [hop] using hdot⟩
    rw [parsePrimary_of_ne (by simp [hts]), List.append_assoc, List.append_assoc, List.singleton_append, hcolumn]
    refine Except.bind_eq_ok.2 ⟨_, rfl, Except.bind_eq_ok.2 ⟨_, readOp_iff.2 rfl, ?_⟩⟩
    exact Except.map_eq_ok.2 ⟨_, readValue_iff.2 rfl, rfl⟩
  | @paren ts e h ih =>
    intro rest n hn
    simp only [List.length_cons, List.length_append, List.length_nil] at hn
    obtain ⟨n, rfl⟩ : ∃ m, n = m + 1 := ⟨n - 1, by omega⟩
    have hor : parseOrExpr n (ts ++ .rparen :: rest) = .ok (e, .rparen :: rest) :=
      ih.of_or ⟨by simp, by simp⟩ (by omega)
    rw [List.cons_append, List.append_assoc, List.singleton_append]
    refine Except.bind_eq_ok.2 ⟨_, hor, Except.map_eq_ok.2 ⟨_, expect_self _ _, rfl⟩⟩
  | @not ts e h ih =>
    intro rest n hn
    rw [List.length_cons] at hn
    obtain ⟨n, rfl⟩ : ∃ m, n = m + 1 := ⟨n - 1, by omega⟩
    exact Except.map_eq_ok.2 ⟨_, ih rest n (by omega), rfl⟩
  | @primary ts e h ih =>
    intro rest n hn
    obtain ⟨n, rfl⟩ : ∃ m, n = m + 1 := ⟨n - 1, by omega⟩
    rw [parseUnary_of_ne, ih rest n (by omega)]
    cases h with
    | comparison h op value =>
      obtain ⟨name, ts', hts⟩ := h.head
      simp [hts]
    | paren h => exact nofun
  | @and ts us a b ha hb iha ihb =>
    intro rest r m hr n hn
    simp only [List.length_append, List.length_cons] at hn
    rw [List.append_assoc, List.cons_append]
    refine iha _ r (m + 6 * us.length + 2) (fun n hn => ?_) n (by omega)
    obtain ⟨n, rfl⟩ : ∃ m, n = m + 1 := ⟨n - 1, by omega⟩
    rw [andLoop, ihb rest n (by omega)]
    exact hr n (by omega)
  | @unary ts e h ih =>
    intro rest r m hr n hn
    obtain ⟨n, rfl⟩ : ∃ m, n = m + 1 := ⟨n - 1, by omega⟩
    rw [parseAndExpr, ih rest n (by omega)]
    exact hr n (by omega)
  | @or ts us a b ha hb iha ihb =>
    intro rest r m hstop hr n hn
    simp only [List.length_append, List.length_cons] at hn
    rw [List.append_assoc, List.cons_append]
    refine iha _ r (m + 6 * us.length + 4) (by simp [StopsAnd]) (fun n hn => ?_) n (by omega)
    obtain ⟨n, rfl⟩ : ∃ m, n = m + 1 := ⟨n - 1, by omega⟩
    rw [orLoop, ihb.of_and hstop (by omega)]
    exact hr n (by omega)
  | @conjunction ts e h ih =>
    intro rest r m hstop hr n hn
    obtain ⟨n, rfl⟩ : ∃ m, n = m + 1 := ⟨n - 1, by omega⟩
    rw [parseOrExpr, ih.of_and hstop (by omega)]
    exact hr n (by omega)

/-- **The expressions read are those derived**, up to a token that does not go on with them. -/
theorem parseOrExpr_iff {ts rest : List (Token F)} {e : Expr F} {fuel : ℕ} (hfuel : 6 * ts.length + 5 ≤ fuel) :
    parseOrExpr fuel ts = .ok (e, rest) ↔ ∃ p, ts = p ++ rest ∧ Derives .or p e ∧ StopsOr rest := by
  refine ⟨(sound F fuel).or, ?_⟩
  rintro ⟨p, rfl, hp, hstop⟩
  rw [List.length_append] at hfuel
  exact hp.read.of_or hstop (by omega)

/-! ## Statements -/

theorem columns_of_readColumns {fuel : ℕ} {ts rest : List (Token F)} {cols : List (List Char)}
    (h : readColumns fuel ts = .ok (cols, rest)) : ∃ p, ts = p ++ rest ∧ Columns p cols := by
  induction fuel generalizing ts cols with
  | zero => cases h
  | succ fuel ih =>
    obtain ⟨⟨col, ts'⟩, hcol, hnext⟩ := Except.bind_eq_ok.1 h
    obtain ⟨p, rfl, hp, -⟩ := readQualifiedIdent_iff.1 hcol
    split at hnext
    · next heq =>
      cases heq
      obtain ⟨⟨cols', ts''⟩, hcols, heq⟩ := Except.map_eq_ok.1 hnext
      cases heq
      obtain ⟨q, rfl, hq⟩ := ih hcols
      exact ⟨p ++ .comma :: q, by simp, .cons hp hq⟩
    · next heq =>
      cases heq
      cases hnext
      exact ⟨p, rfl, .one hp⟩

theorem readColumns_of_columns {p : List (Token F)} {cols : List (List Char)} (h : Columns p cols)
    (rest : List (Token F)) {fuel : ℕ} (hfuel : p.length < fuel) :
    readColumns fuel (p ++ .from :: rest) = .ok (cols, .from :: rest) := by
  induction h generalizing fuel with
  | one h =>
    obtain ⟨fuel, rfl⟩ := Nat.exists_eq_add_of_lt hfuel
    exact Except.bind_eq_ok.2 ⟨_, readQualifiedIdent_iff.2 ⟨_, rfl, h, by simp⟩, rfl⟩
  | @cons ts us col cols h _ ih =>
    rw [List.length_append, List.length_cons] at hfuel
    obtain ⟨fuel, rfl⟩ : ∃ m, fuel = m + 1 := ⟨fuel - 1, by omega⟩
    rw [List.append_assoc, List.cons_append]
    refine Except.bind_eq_ok.2 ⟨(col, .comma :: (us ++ .from :: rest)), ?_, ?_⟩
    · exact readQualifiedIdent_iff.2 ⟨ts, rfl, h, by simp⟩
    · exact Except.map_eq_ok.2 ⟨(cols, .from :: rest), ih (by omega), rfl⟩

theorem projected_of_parse {ts rest : List (Token F)} {projection : Projection}
    (h : parseProjection ts = .ok (projection, rest)) : ∃ p, ts = p ++ rest ∧ Projected p projection := by
  unfold parseProjection at h
  split at h
  · cases h
    exact ⟨[.star], rfl, .all⟩
  · obtain ⟨⟨cols, ts'⟩, hcols, hne⟩ := Except.bind_eq_ok.1 h
    dsimp only at hne
    split_ifs at hne
    cases hne
    obtain ⟨p, rfl, hp⟩ := columns_of_readColumns hcols
    exact ⟨p, rfl, .columns hp⟩

theorem Columns.head {p : List (Token F)} {cols : List (List Char)} (h : Columns p cols) :
    (∃ name p', p = .ident name :: p') ∧ cols ≠ [] := by
  cases h with
  | one h => exact ⟨h.head, List.cons_ne_nil _ _⟩
  | cons h _ =>
    obtain ⟨name, ts, rfl⟩ := h.head
    exact ⟨⟨name, _, rfl⟩, List.cons_ne_nil _ _⟩

theorem parse_of_projected {p : List (Token F)} {projection : Projection} (h : Projected p projection)
    (rest : List (Token F)) : parseProjection (p ++ .from :: rest) = .ok (projection, .from :: rest) := by
  cases h with
  | all => rfl
  | columns h =>
    have hlen : p.length < (p ++ .from :: rest).length + 1 := by simp
    have hread := readColumns_of_columns h rest hlen
    obtain ⟨⟨name, p', rfl⟩, hne⟩ := h.head
    exact Except.bind_eq_ok.2 ⟨_, hread, if_neg hne⟩

/-- A column behind an equals sign is bare if the sign is the last token but one. -/
theorem Qualified.bare_iff {r : List (Token F)} {c : List Char} (h : Qualified r c) (q : List (Token F)) :
    (q ++ .eq :: r).dropLast.getLast? = some .eq ↔ r.length = 1 := by
  cases h with
  | bare => simp [List.dropLast_append_of_ne_nil]
  | dotted => simp [List.dropLast_append_of_ne_nil]

/-- A join is read up to a token that does not go on with its last key. -/
theorem parseJoin_iff {ts rest : List (Token F)} {join : Option JoinClause} :
    parseJoin ts = .ok (join, rest) ↔
      ∃ p, ts = p ++ rest ∧ Joined true p join ∧ (join = none → rest.head? ≠ some .join) ∧
        (p.dropLast.getLast? = some .eq → rest.head? ≠ some .dot) := by
  constructor
  · intro h
    unfold parseJoin at h
    split at h
    · obtain ⟨⟨table, ts₁⟩, htable, h⟩ := Except.bind_eq_ok.1 h
      obtain ⟨ts₂, hon, h⟩ := Except.bind_eq_ok.1 h
      obtain ⟨⟨leftKey, ts₃⟩, hleft, h⟩ := Except.bind_eq_ok.1 h
      obtain ⟨ts₄, heq, h⟩ := Except.bind_eq_ok.1 h
      obtain ⟨⟨rightKey, ts₅⟩, hright, h⟩ := Except.map_eq_ok.1 h
      cases h
      obtain ⟨p, rfl, hp, -⟩ := parseTableName_iff.1 htable
      cases eq_cons_of_expect (by simp) hon
      obtain ⟨q, rfl, hq, -⟩ := readQualifiedIdent_iff.1 hleft
      cases eq_cons_of_expect (by simp) heq
      obtain ⟨r, rfl, hr, hdot⟩ := readQualifiedIdent_iff.1 hright
      refine ⟨.join :: (p ++ .on :: (q ++ .eq :: r)), by simp, .join hp hq hr, nofun, fun hbare => hdot ?_⟩
      apply (hr.bare_iff (.join :: (p ++ .on :: q))).1
      simpa using hbare
    · next hjoin =>
      cases h
      refine ⟨[], rfl, .none, fun _ hhead => ?_, nofun⟩
      obtain ⟨rest, rfl⟩ := List.head?_eq_some_iff.1 hhead
      exact hjoin _ rfl
  · rintro ⟨p, rfl, h, hjoin, hdot⟩
    cases h with
    | none =>
      cases rest with
      | nil => rfl
      | cons t rest => cases t <;> first | rfl | exact absurd rfl (hjoin rfl)
    | @join p q r table leftKey rightKey hp hq hr =>
      have hright : readQualifiedIdent (r ++ rest) = .ok (rightKey, rest) := by
        refine readQualifiedIdent_iff.2 ⟨r, rfl, hr, fun hlen => hdot ?_⟩
        have hbare := (hr.bare_iff (.join :: (p ++ .on :: q))).2 hlen
        simpa using hbare
      have hleft : readQualifiedIdent (q ++ .eq :: (r ++ rest)) = .ok (leftKey, .eq :: (r ++ rest)) :=
        readQualifiedIdent_iff.2 ⟨q, rfl, hq, by simp⟩
      have htable : parseTableName (p ++ .on :: (q ++ .eq :: (r ++ rest))) =
          .ok (table, .on :: (q ++ .eq :: (r ++ rest))) :=
        parseTableName_iff.2 ⟨p, rfl, hp, by simp⟩
      simp only [List.cons_append, List.append_assoc]
      refine Except.bind_eq_ok.2 ⟨_, htable, Except.bind_eq_ok.2 ⟨_, expect_self _ _, ?_⟩⟩
      refine Except.bind_eq_ok.2 ⟨_, hleft, Except.bind_eq_ok.2 ⟨_, expect_self _ _, ?_⟩⟩
      exact Except.map_eq_ok.2 ⟨_, hright, rfl⟩

theorem parseWhere_iff {ts rest : List (Token F)} {condition : Option (Expr F)} :
    parseWhere ts = .ok (condition, rest) ↔
      ∃ p, ts = p ++ rest ∧ Filtered p condition ∧ (condition = none → rest.head? ≠ some .where) ∧
        (condition ≠ none → StopsOr rest) := by
  constructor
  · intro h
    unfold parseWhere at h
    split at h
    · obtain ⟨⟨e, ts'⟩, he, heq⟩ := Except.map_eq_ok.1 h
      cases heq
      obtain ⟨p, rfl, hp, hstop⟩ := (parseOrExpr_iff (by unfold enough; omega)).1 he
      exact ⟨.where :: p, rfl, .where hp, nofun, fun _ => hstop⟩
    · next hwhere =>
      cases h
      refine ⟨[], rfl, .none, fun _ hhead => ?_, absurd rfl⟩
      obtain ⟨rest, rfl⟩ := List.head?_eq_some_iff.1 hhead
      exact hwhere _ rfl
  · rintro ⟨p, rfl, h, hwhere, hstop⟩
    cases h with
    | none =>
      cases rest with
      | nil => rfl
      | cons t rest => cases t <;> first | rfl | exact absurd rfl (hwhere rfl)
    | «where» h =>
      exact Except.map_eq_ok.2 ⟨_, (parseOrExpr_iff (by unfold enough; omega)).2 ⟨_, rfl, h, hstop nofun⟩, rfl⟩

/-- The token goes on with a statement that has so many clauses. -/
def GoesOn (stmt : SelectStatement F) (p : List (Token F)) (t : Token F) : Prop :=
  match stmt.condition, stmt.join with
  | some _, _ => t = .and ∨ t = .or
  | none, some _ => t = .where ∨ (p.dropLast.getLast? = some .eq ∧ t = .dot)
  | none, none => t = .where ∨ t = .join ∨ (p.getLast? ≠ some .rparen ∧ t = .lparen)

theorem Arg.getLast {lax : Bool} {d : ℕ} {ts : List (Token F)} {a : List Char} (h : Arg lax d ts a) :
    ts.getLast? = some .rparen := by
  induction h with
  | close => rfl
  | _ => simp_all [List.getLast?_cons]

/-- A table is plain if the last token is no parenthesis. -/
theorem Table.plain_iff {lax : Bool} {ts : List (Token F)} {name : List Char} (h : Table lax ts name)
    (p : List (Token F)) : (p ++ ts).getLast? ≠ some .rparen ↔ ts.length = 1 := by
  cases h with
  | plain name => simp
  | param name h => simp [List.getLast?_append, List.getLast?_cons, h.getLast]

/-- The parts of a statement are read to their ends if what is left does not go on with it. -/
theorem stops_iff {lax : Bool} {ps ts js ws rest : List (Token F)} {projection : Projection} {table : List Char}
    {join : Option JoinClause} {condition : Option (Expr F)} (ht : Table lax ts table) (hj : Joined lax js join)
    (hw : Filtered ws condition) :
    (∀ t ∈ rest.head?, ¬ GoesOn ⟨projection, table, join, condition⟩
        (.select :: (ps ++ .from :: (ts ++ (js ++ ws)))) t) ↔
      (ts.length = 1 → (js ++ (ws ++ rest)).head? ≠ some .lparen) ∧
        (join = none → (ws ++ rest).head? ≠ some .join) ∧
        (js.dropLast.getLast? = some .eq → (ws ++ rest).head? ≠ some .dot) ∧
        (condition = none → rest.head? ≠ some .where) ∧ (condition ≠ none → StopsOr rest) := by
  cases hw with
  | «where» h =>
    cases rest <;> cases hj <;> simp [GoesOn, StopsOr]
  | none =>
    cases hj with
    | none =>
      have hplain := ht.plain_iff (.select :: (ps ++ [.from]))
      simp only [List.append_assoc, List.cons_append, List.nil_append] at hplain
      cases rest with
      | nil => simp [GoesOn]
      | cons t rest =>
        simp [GoesOn] at hplain ⊢
        rw [hplain]
        tauto
    | @join p q r _ _ _ hp hq hr =>
      have hlast := (hr.bare_iff (.select :: (ps ++ .from :: (ts ++ .join :: (p ++ .on :: q))))).trans
        (hr.bare_iff (.join :: (p ++ .on :: q))).symm
      simp only [List.append_assoc, List.cons_append] at hlast
      cases rest with
      | nil => simp [GoesOn]
      | cons t rest =>
        simp [GoesOn] at hlast ⊢
        rw [hlast]
        exact and_comm

/-- **The statements read are those of the grammar**, up to a token that does not go on with them. -/
theorem parseSelect_iff {ts rest : List (Token F)} {stmt : SelectStatement F} :
    parseSelect ts = .ok (stmt, rest) ↔
      ∃ p, ts = p ++ rest ∧ Statement true p stmt ∧ ∀ t ∈ rest.head?, ¬ GoesOn stmt p t := by
  constructor
  · intro h
    obtain ⟨ts₁, hselect, h⟩ := Except.bind_eq_ok.1 h
    obtain ⟨⟨projection, ts₂⟩, hprojection, h⟩ := Except.bind_eq_ok.1 h
    obtain ⟨ts₃, hfrom, h⟩ := Except.bind_eq_ok.1 h
    obtain ⟨⟨table, ts₄⟩, htable, h⟩ := Except.bind_eq_ok.1 h
    obtain ⟨⟨join, ts₅⟩, hjoin, h⟩ := Except.bind_eq_ok.1 h
    obtain ⟨⟨condition, ts₆⟩, hwhere, h⟩ := Except.map_eq_ok.1 h
    cases h
    cases eq_cons_of_expect (by simp) hselect
    obtain ⟨ps, rfl, hps⟩ := projected_of_parse hprojection
    cases eq_cons_of_expect (by simp) hfrom
    obtain ⟨us, rfl, hus, hparen⟩ := parseTableName_iff.1 htable
    obtain ⟨js, rfl, hjs, hj, hdot⟩ := parseJoin_iff.1 hjoin
    obtain ⟨ws, rfl, hws, hw, hor⟩ := parseWhere_iff.1 hwhere
    exact ⟨_, by simp, .select hps hus hjs hws, (stops_iff hus hjs hws).2 ⟨hparen, hj, hdot, hw, hor⟩⟩
  · rintro ⟨p, rfl, ⟨hps, hus, hjs, hws⟩, hstop⟩
    obtain ⟨hparen, hj, hdot, hw, hor⟩ := (stops_iff hus hjs hws).1 hstop
    have htable := parseTableName_iff.2 ⟨_, rfl, hus, hparen⟩
    have hjoin := parseJoin_iff.2 ⟨_, rfl, hjs, hj, hdot⟩
    have hwhere := parseWhere_iff.2 ⟨_, rfl, hws, hw, hor⟩
    simp only [List.cons_append, List.append_assoc]
    refine Except.bind_eq_ok.2 ⟨_, expect_self _ _, Except.bind_eq_ok.2 ⟨_, parse_of_projected hps _, ?_⟩⟩
    refine Except.bind_eq_ok.2 ⟨_, expect_self _ _, Except.bind_eq_ok.2 ⟨_, htable, ?_⟩⟩
    exact Except.bind_eq_ok.2 ⟨_, hjoin, Except.map_eq_ok.2 ⟨_, hwhere, rfl⟩⟩

/-! ## Fuel -/

theorem Derives.length_pos {level : Level} {p : List (Token F)} {e : Expr F} (h : Derives level p e) :
    0 < p.length := by
  induction h <;> simp_all

theorem readQualifiedIdent_ne_outOfFuel (ts : List (Token F)) : readQualifiedIdent ts ≠ .error .outOfFuel := by
  unfold readQualifiedIdent
  split <;> exact nofun

theorem expect_ne_outOfFuel (t : Token F) (ts : List (Token F)) : expect t ts ≠ .error .outOfFuel := by
  unfold expect
  split_ifs <;> exact nofun

theorem readOp_ne_outOfFuel (ts : List (Token F)) : readOp ts ≠ .error .outOfFuel := by
  unfold readOp
  split <;> exact nofun

theorem readValue_ne_outOfFuel (ts : List (Token F)) : readValue ts ≠ .error .outOfFuel := by
  unfold readValue
  split <;> exact nofun

theorem readArg_ne_outOfFuel (d : ℕ) (ts : List (Token F)) : readArg d ts ≠ .error .outOfFuel := by
  fun_induction readArg d ts with
  | case1 => exact nofun
  | case2 => exact nofun
  | case4 => exact nofun
  | case9 _ _ _ _ _ _ _ _ _ ih => exact ih
  | _ => exact Except.map_ne_error ‹_›

theorem parseTableName_ne_outOfFuel (ts : List (Token F)) : parseTableName ts ≠ .error .outOfFuel := by
  unfold parseTableName
  split
  · exact Except.map_ne_error (readArg_ne_outOfFuel 1 _)
  · exact nofun
  · exact nofun

/-- With so much fuel there is enough for so many tokens. -/
structure Fueled (F : Type*) (fuel : ℕ) : Prop where
  or : ∀ {ts : List (Token F)}, 6 * ts.length + 4 ≤ fuel → parseOrExpr fuel ts ≠ .error .outOfFuel
  orLoop : ∀ {left : Expr F} {ts}, 6 * ts.length + 1 ≤ fuel → orLoop fuel left ts ≠ .error .outOfFuel
  and : ∀ {ts : List (Token F)}, 6 * ts.length + 3 ≤ fuel → parseAndExpr fuel ts ≠ .error .outOfFuel
  andLoop : ∀ {left : Expr F} {ts}, 6 * ts.length + 1 ≤ fuel → andLoop fuel left ts ≠ .error .outOfFuel
  unary : ∀ {ts : List (Token F)}, 6 * ts.length + 2 ≤ fuel → parseUnary fuel ts ≠ .error .outOfFuel
  primary : ∀ {ts : List (Token F)}, 6 * ts.length + 1 ≤ fuel → parsePrimary fuel ts ≠ .error .outOfFuel

theorem fueled (F : Type*) (fuel : ℕ) : Fueled F fuel := by
  induction fuel with
  | zero => constructor <;> intros <;> omega
  | succ fuel ih =>
    constructor
    case or =>
      intro ts h
      refine Except.bind_ne_error (ih.and (by omega)) fun ⟨left, rest⟩ hleft => ih.orLoop ?_
      obtain ⟨p, rfl, hp, -⟩ := (sound F fuel).and hleft
      have hpos := hp.length_pos
      rw [List.length_append] at h
      omega
    case orLoop =>
      intro left ts h
      by_cases hor : ts.head? = some .or
      · obtain ⟨ts, rfl⟩ := List.head?_eq_some_iff.1 hor
        rw [List.length_cons] at h
        refine Except.bind_ne_error (ih.and (by omega)) fun ⟨right, rest⟩ hright => ih.orLoop ?_
        obtain ⟨p, rfl, -⟩ := (sound F fuel).and hright
        rw [List.length_append] at h
        omega
      · rw [orLoop_stop hor]
        exact nofun
    case and =>
      intro ts h
      refine Except.bind_ne_error (ih.unary (by omega)) fun ⟨left, rest⟩ hleft => ih.andLoop ?_
      obtain ⟨p, rfl, -⟩ := (sound F fuel).unary hleft
      rw [List.length_append] at h
      omega
    case andLoop =>
      intro left ts h
      by_cases hand : ts.head? = some .and
      · obtain ⟨ts, rfl⟩ := List.head?_eq_some_iff.1 hand
        rw [List.length_cons] at h
        refine Except.bind_ne_error (ih.unary (by omega)) fun ⟨right, rest⟩ hright => ih.andLoop ?_
        obtain ⟨p, rfl, -⟩ := (sound F fuel).unary hright
        rw [List.length_append] at h
        omega
      · rw [andLoop_stop hand]
        exact nofun
    case unary =>
      intro ts h
      by_cases hnot : ts.head? = some .not
      · obtain ⟨ts, rfl⟩ := List.head?_eq_some_iff.1 hnot
        rw [List.length_cons] at h
        exact Except.map_ne_error (ih.unary (by omega))
      · rw [parseUnary_of_ne hnot]
        exact ih.primary (by omega)
    case primary =>
      intro ts h
      by_cases hparen : ts.head? = some .lparen
      · obtain ⟨ts, rfl⟩ := List.head?_eq_some_iff.1 hparen
        rw [List.length_cons] at h
        exact Except.bind_ne_error (ih.or (by omega)) fun _ _ => Except.map_ne_error (expect_ne_outOfFuel _ _)
      · rw [parsePrimary_of_ne hparen]
        refine Except.bind_ne_error (readQualifiedIdent_ne_outOfFuel ts) fun _ _ => ?_
        refine Except.bind_ne_error (readOp_ne_outOfFuel _) fun _ _ => ?_
        exact Except.map_ne_error (readValue_ne_outOfFuel _)

theorem readColumns_ne_outOfFuel {fuel : ℕ} {ts : List (Token F)} (h : ts.length < fuel) :
    readColumns fuel ts ≠ .error .outOfFuel := by
  induction fuel generalizing ts with
  | zero => omega
  | succ fuel ih =>
    refine Except.bind_ne_error (readQualifiedIdent_ne_outOfFuel ts) fun ⟨col, rest⟩ hcol => ?_
    obtain ⟨p, rfl, hp, -⟩ := readQualifiedIdent_iff.1 hcol
    obtain ⟨name, p, rfl⟩ := hp.head
    dsimp only
    split
    · next heq =>
      cases heq
      simp only [List.length_append, List.length_cons] at h
      exact Except.map_ne_error (ih (by omega))
    · exact nofun

theorem parseSelect_ne_outOfFuel (ts : List (Token F)) : parseSelect ts ≠ .error .outOfFuel := by
  have hprojection : ∀ ts : List (Token F), parseProjection ts ≠ .error .outOfFuel := by
    intro ts
    unfold parseProjection
    split
    · exact nofun
    · refine Except.bind_ne_error (readColumns_ne_outOfFuel (Nat.lt_succ_self _)) fun _ _ => ?_
      dsimp only
      split_ifs <;> exact nofun
  have hjoin : ∀ ts : List (Token F), parseJoin ts ≠ .error .outOfFuel := by
    intro ts
    unfold parseJoin
    split
    · refine Except.bind_ne_error (parseTableName_ne_outOfFuel _) fun _ _ => ?_
      refine Except.bind_ne_error (expect_ne_outOfFuel _ _) fun _ _ => ?_
      refine Except.bind_ne_error (readQualifiedIdent_ne_outOfFuel _) fun _ _ => ?_
      refine Except.bind_ne_error (expect_ne_outOfFuel _ _) fun _ _ => ?_
      exact Except.map_ne_error (readQualifiedIdent_ne_outOfFuel _)
    · exact nofun
  have hwhere : ∀ ts : List (Token F), parseWhere ts ≠ .error .outOfFuel := by
    intro ts
    unfold parseWhere
    split
    · exact Except.map_ne_error ((fueled F _).or (by unfold enough; omega))
    · exact nofun
  refine Except.bind_ne_error (expect_ne_outOfFuel _ _) fun _ _ => ?_
  refine Except.bind_ne_error (hprojection _) fun _ _ => ?_
  refine Except.bind_ne_error (expect_ne_outOfFuel _ _) fun _ _ => ?_
  refine Except.bind_ne_error (parseTableName_ne_outOfFuel _) fun _ _ => ?_
  refine Except.bind_ne_error (hjoin _) fun _ _ => ?_
  exact Except.map_ne_error (hwhere _)

/-- **A parse never ends for lack of fuel.** -/
theorem parse_ne_outOfFuel (L : Lexis F) (query : List Char) : parse L query ≠ .error .outOfFuel :=
  Except.bind_ne_error (tokenize_ne_outOfFuel L query) fun _ _ => Except.map_ne_error (parseSelect_ne_outOfFuel _)

end ThorFirewall.Thorql
