import Mathlib
import ThorFirewall.Thorql.Tokenizer

/-!
# The parser of ThorQL (`forensics/thorql/parser.rs`)

A recursive-descent parser over the tokens of a query. What is left of the tokens is passed on; past their end there is
`Eof`. The functions of expressions call each other: they are given fuel, of which there is always enough
(`parse_ne_outOfFuel`).
-/

namespace ThorFirewall.Thorql

/-! ## Syntax trees -/

variable {F : Type*}

inductive Value (F : Type*)
  | str (s : List Char)
  | int (n : Int64)
  | float (x : F)
  deriving DecidableEq

inductive Op
  | eq
  | notEq
  | gt
  | lt
  | gte
  | lte
  | like
  | notLike
  deriving DecidableEq

inductive Expr (F : Type*)
  | comparison (column : List Char) (op : Op) (value : Value F)
  | and (left right : Expr F)
  | or (left right : Expr F)
  | not (expr : Expr F)
  deriving DecidableEq

inductive Projection
  | all
  | columns (columns : List (List Char))
  deriving DecidableEq

structure JoinClause where
  table : List Char
  leftKey : List Char
  rightKey : List Char
  deriving DecidableEq

structure SelectStatement (F : Type*) where
  projection : Projection
  table : List Char
  join : Option JoinClause
  condition : Option (Expr F)
  deriving DecidableEq

/-! ## Tokens -/

def peek : List (Token F) → Token F
  | [] => .eof
  | t :: _ => t

/-- What a step of the parser gives: a result, and the tokens that are left. -/
abbrev Parsed (F α : Type*) := Except (ParseError F) (α × List (Token F))

/-- `expect`: the discriminants of the tokens are compared. -/
def expect (expected : Token F) (ts : List (Token F)) : Except (ParseError F) (List (Token F)) :=
  if (peek ts).ctorIdx = expected.ctorIdx then .ok ts.tail else .error (.expected expected (peek ts))

/-- A column, or a table and a column with a point between them. -/
def readQualifiedIdent : List (Token F) → Parsed F (List Char)
  | .ident name :: .dot :: .ident col :: ts => .ok (name ++ '.' :: col, ts)
  | .ident _ :: .dot :: ts => .error (.expectedColumn (peek ts))
  | .ident name :: ts => .ok (name, ts)
  | ts => .error (.expectedIdentifier (peek ts))

/-- The argument of a table, after its opening parenthesis. Tokens of other kinds are passed over. -/
def readArg : ℕ → List (Token F) → Parsed F (List Char)
  | _, [] => .error .unclosedParen
  | _, .eof :: _ => .error .unclosedParen
  | depth, .lparen :: ts => (readArg (depth + 1) ts).map fun p => ('(' :: p.1, p.2)
  | depth, .rparen :: ts =>
    if depth = 1 then .ok ([], ts) else (readArg (depth - 1) ts).map fun p => (')' :: p.1, p.2)
  | depth, .strLit s :: ts => (readArg depth ts).map fun p => ('\'' :: s ++ '\'' :: p.1, p.2)
  | depth, .ident s :: ts => (readArg depth ts).map fun p => (s ++ p.1, p.2)
  | depth, .dot :: ts => (readArg depth ts).map fun p => ('.' :: p.1, p.2)
  | depth, _ :: ts => readArg depth ts

/-- A table name, maybe with an argument. -/
def parseTableName : List (Token F) → Parsed F (List Char)
  | .ident name :: .lparen :: ts => (readArg 1 ts).map fun p => (name ++ '(' :: p.1 ++ [')'], p.2)
  | .ident name :: ts => .ok (name, ts)
  | ts => .error (.expectedTable (peek ts))

/-! ## Expressions -/

def readOp : List (Token F) → Parsed F Op
  | .eq :: ts => .ok (.eq, ts)
  | .notEq :: ts => .ok (.notEq, ts)
  | .gt :: ts => .ok (.gt, ts)
  | .lt :: ts => .ok (.lt, ts)
  | .gte :: ts => .ok (.gte, ts)
  | .lte :: ts => .ok (.lte, ts)
  | .like :: ts => .ok (.like, ts)
  | .not :: .like :: ts => .ok (.notLike, ts)
  | .not :: _ => .error .expectedLike
  | ts => .error (.expectedOperator (peek ts))

def readValue : List (Token F) → Parsed F (Value F)
  | .strLit s :: ts => .ok (.str s, ts)
  | .intLit n :: ts => .ok (.int n, ts)
  | .floatLit x :: ts => .ok (.float x, ts)
  | ts => .error (.expectedLiteral (peek ts))

mutual

def parseOrExpr : ℕ → List (Token F) → Parsed F (Expr F)
  | 0, _ => .error .outOfFuel
  | fuel + 1, ts => (parseAndExpr fuel ts).bind fun (left, ts) => orLoop fuel left ts

/-- `while self.peek() == &Token::Or`. -/
def orLoop : ℕ → Expr F → List (Token F) → Parsed F (Expr F)
  | 0, _, _ => .error .outOfFuel
  | fuel + 1, left, .or :: ts => (parseAndExpr fuel ts).bind fun (right, ts) => orLoop fuel (.or left right) ts
  | _ + 1, left, ts => .ok (left, ts)

def parseAndExpr : ℕ → List (Token F) → Parsed F (Expr F)
  | 0, _ => .error .outOfFuel
  | fuel + 1, ts => (parseUnary fuel ts).bind fun (left, ts) => andLoop fuel left ts

/-- `while self.peek() == &Token::And`. -/
def andLoop : ℕ → Expr F → List (Token F) → Parsed F (Expr F)
  | 0, _, _ => .error .outOfFuel
  | fuel + 1, left, .and :: ts => (parseUnary fuel ts).bind fun (right, ts) => andLoop fuel (.and left right) ts
  | _ + 1, left, ts => .ok (left, ts)

def parseUnary : ℕ → List (Token F) → Parsed F (Expr F)
  | 0, _ => .error .outOfFuel
  | fuel + 1, .not :: ts => (parseUnary fuel ts).map fun (expr, ts) => (.not expr, ts)
  | fuel + 1, ts => parsePrimary fuel ts

def parsePrimary : ℕ → List (Token F) → Parsed F (Expr F)
  | 0, _ => .error .outOfFuel
  | fuel + 1, .lparen :: ts => (parseOrExpr fuel ts).bind fun (expr, ts) => (expect .rparen ts).map fun ts => (expr, ts)
  | _ + 1, ts =>
    (readQualifiedIdent ts).bind fun (column, ts) =>
    (readOp ts).bind fun (op, ts) =>
    (readValue ts).map fun (value, ts) => (.comparison column op value, ts)

end

/-! ## Statements -/

/-- The columns of a list: each takes a token. -/
def readColumns : ℕ → List (Token F) → Parsed F (List (List Char))
  | 0, _ => .error .outOfFuel
  | fuel + 1, ts => (readQualifiedIdent ts).bind fun
    | (col, .comma :: ts) => (readColumns fuel ts).map fun (cols, ts) => (col :: cols, ts)
    | (col, ts) => .ok ([col], ts)

def parseProjection : List (Token F) → Parsed F Projection
  | .star :: ts => .ok (.all, ts)
  | ts => (readColumns (ts.length + 1) ts).bind fun (cols, ts) =>
    if cols = [] then .error .emptyColumnList else .ok (.columns cols, ts)

def parseJoin : List (Token F) → Parsed F (Option JoinClause)
  | .join :: ts =>
    (parseTableName ts).bind fun (table, ts) =>
    (expect .on ts).bind fun ts =>
    (readQualifiedIdent ts).bind fun (leftKey, ts) =>
    (expect .eq ts).bind fun ts =>
    (readQualifiedIdent ts).map fun (rightKey, ts) => (some ⟨table, leftKey, rightKey⟩, ts)
  | ts => .ok (none, ts)

/-- Fuel for the expression that so many tokens may make. -/
def enough (n : ℕ) : ℕ := 6 * n + 6

def parseWhere : List (Token F) → Parsed F (Option (Expr F))
  | .where :: ts => (parseOrExpr (enough ts.length) ts).map fun (expr, ts) => (some expr, ts)
  | ts => .ok (none, ts)

def parseSelect (ts : List (Token F)) : Parsed F (SelectStatement F) :=
  (expect .select ts).bind fun ts =>
  (parseProjection ts).bind fun (projection, ts) =>
  (expect .from ts).bind fun ts =>
  (parseTableName ts).bind fun (table, ts) =>
  (parseJoin ts).bind fun (join, ts) =>
  (parseWhere ts).map fun (condition, ts) => (⟨projection, table, join, condition⟩, ts)

/-- Parse a query. What is left behind the statement is not looked at. -/
def parse (L : Lexis F) (query : List Char) : Except (ParseError F) (SelectStatement F) :=
  (L.tokenize query).bind fun tokens => (parseSelect tokens).map (·.1)

end ThorFirewall.Thorql
