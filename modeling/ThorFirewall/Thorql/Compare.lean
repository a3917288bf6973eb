import ThorFirewall.Thorql.Like

/-!
# Comparing a cell with a literal (`forensics/thorql/executor.rs`)

A cell is compared as what the literal is: a text, an integer or a floating-point number. What is no integer of 64 bits
is compared as zero.

- `compareValues`: the comparison;
- `cellNumber`: the number that a cell holds;
- `compareValues_int_iff`: when the comparison with an integer is one of that number.

Floating-point numbers are a parameter (`FloatOps`), and so is the number that one of them is (`value`).
-/

namespace ThorFirewall.Thorql

variable {F : Type*}

/-! ## The comparison -/

/-- Floating-point numbers of 64 bits. -/
structure FloatOps (F : Type*) where
  zero : F
  /-- The bound of the difference of equal numbers. -/
  epsilon : F
  ofU64 : UInt64 → F
  ofI64 : Int64 → F
  parse : List Char → Option F
  sub : F → F → F
  abs : F → F
  lt : F → F → Bool
  le : F → F → Bool

/-- `Number::as_i64`. -/
def numberAsI64 : Json.Number F → Option Int64
  | .posInt n => if n.toNat < 2 ^ 63 then some (Int64.ofNat n.toNat) else none
  | .negInt n => some n
  | .float _ => none

def jsonAsI64 : Json.Value F → Int64
  | .number n => (numberAsI64 n).getD 0
  | .string s => (Text.parseI64 s.toList).getD 0
  | _ => 0

def jsonAsF64 (ops : FloatOps F) : Json.Value F → F
  | .number n => (Json.Value.asF64 ops.ofU64 ops.ofI64 (.number n)).getD ops.zero
  | .string s => (ops.parse s.toList).getD ops.zero
  | _ => ops.zero

def compareStr (cell : List Char) (op : Op) (s : List Char) : Bool :=
  match op with
  | .eq => cell = s
  | .notEq => cell ≠ s
  | _ => false

def compareInt (cell : Int64) (op : Op) (n : Int64) : Bool :=
  match op with
  | .eq => cell = n
  | .notEq => cell ≠ n
  | .gt => cell > n
  | .lt => cell < n
  | .gte => cell ≥ n
  | .lte => cell ≤ n
  | _ => false

def compareFloat (ops : FloatOps F) (cell : F) (op : Op) (x : F) : Bool :=
  match op with
  | .eq => ops.lt (ops.abs (ops.sub cell x)) ops.epsilon
  | .notEq => ops.le ops.epsilon (ops.abs (ops.sub cell x))
  | .gt => ops.lt x cell
  | .lt => ops.lt cell x
  | .gte => ops.le x cell
  | .lte => ops.le cell x
  | _ => false

def compareValues (lower : Char → List Char) (display : Json.Value F → List Char) (ops : FloatOps F)
    (cell : Json.Value F) (op : Op) (rhs : Value F) : Bool :=
  if op = .like ∨ op = .notLike then compareLike lower display cell (op = .notLike) rhs
  else match rhs with
    | .str s => compareStr (jsonAsStr display cell) op s
    | .int n => compareInt (jsonAsI64 cell) op n
    | .float x => compareFloat ops (jsonAsF64 ops cell) op x

/-! ## Numbers -/

/-- Decimal digits, after an optional sign. -/
def SpellsInt (s : List Char) : Prop := (Text.splitSign s).2 ≠ [] ∧ (Text.splitSign s).2.all Char.isDigit

instance (s : List Char) : Decidable (SpellsInt s) := inferInstanceAs (Decidable (_ ∧ _))

/-- The number that a cell holds: a JSON number, or a text that spells an integer. -/
def cellNumber (value : F → ℚ) : Json.Value F → Option ℚ
  | .number (.posInt n) => some n.toNat
  | .number (.negInt n) => some n.toInt
  | .number (.float x) => some (value x)
  | .string s => if SpellsInt s.toList then some (Text.intValue s.toList) else none
  | _ => none

/-- The relation of an operator; LIKE is none between numbers. -/
def Op.Relates (op : Op) (x y : ℚ) : Prop :=
  match op with
  | .eq => x = y
  | .notEq => x ≠ y
  | .gt => x > y
  | .lt => x < y
  | .gte => x ≥ y
  | .lte => x ≤ y
  | _ => False

/-- The integer that is read from a cell. -/
def readInt : Json.Value F → Option Int64
  | .number n => numberAsI64 n
  | .string s => Text.parseI64 s.toList
  | _ => none

/-- Zero answers like the cell: like its number, or as a cell without a number has to. -/
def ZeroAgrees (value : F → ℚ) (cell : Json.Value F) (op : Op) (n : Int64) : Prop :=
  match cellNumber value cell with
  | some x => op.Relates 0 n.toInt ↔ op.Relates x n.toInt
  | none => ¬ op.Relates 0 n.toInt

theorem jsonAsI64_eq (cell : Json.Value F) : jsonAsI64 cell = (readInt cell).getD 0 := by
  cases cell <;> rfl

theorem parseI64_value {s : List Char} {n : Int64} (h : Text.parseI64 s = some n) :
    SpellsInt s ∧ Text.intValue s = n.toInt := by
  unfold Text.parseI64 at h
  split_ifs at h with hs
  cases h
  exact ⟨⟨hs.1, hs.2.1⟩, (Int64.toInt_ofInt_of_le hs.2.2.1 hs.2.2.2).symm⟩

/-- An integer that is read is the number of the cell. -/
theorem cellNumber_of_read (value : F → ℚ) {cell : Json.Value F} {m : Int64} (h : readInt cell = some m) :
    cellNumber value cell = some (m.toInt : ℚ) := by
  cases cell with
  | number n =>
    cases n with
    | posInt k =>
      rw [readInt, numberAsI64] at h
      split_ifs at h with hk
      cases h
      rw [cellNumber, Int64.toInt_ofNat_of_lt hk]
      simp
    | negInt k =>
      cases h
      rfl
    | float x => cases h
  | string s =>
    obtain ⟨hspells, hvalue⟩ := parseI64_value h
    rw [cellNumber, if_pos hspells, hvalue]
  | _ => cases h

theorem compareInt_iff (m n : Int64) (op : Op) : compareInt m op n = true ↔ op.Relates m.toInt n.toInt := by
  cases op <;> simp [compareInt, Op.Relates, Int64.toInt_inj, Int64.lt_iff_toInt_lt, Int64.le_iff_toInt_le]

section Integers

variable (lower : Char → List Char) (display : Json.Value F → List Char) (ops : FloatOps F)

/-- With an integer, the integer that is read is compared, or zero. -/
theorem compareValues_int (cell : Json.Value F) (op : Op) (n : Int64) :
    compareValues lower display ops cell op (.int n) = true ↔ op.Relates ((readInt cell).getD 0).toInt n.toInt := by
  rw [compareValues, ← jsonAsI64_eq, ← compareInt_iff]
  split_ifs with hlike
  · rcases hlike with rfl | rfl <;> exact iff_of_false nofun nofun
  · rfl

/-- **When a comparison with an integer is numeric**: the cell's integer is read, or zero gives the same answer. -/
theorem compareValues_int_iff (value : F → ℚ) (cell : Json.Value F) (op : Op) (n : Int64) :
    (compareValues lower display ops cell op (.int n) = true ↔
        ∃ x, cellNumber value cell = some x ∧ op.Relates x n.toInt) ↔
      (∃ m, readInt cell = some m) ∨ ZeroAgrees value cell op n := by
  rw [compareValues_int, ZeroAgrees]
  cases hread : readInt cell with
  | some m =>
    rw [cellNumber_of_read value hread]
    exact iff_of_true (by simp) (.inl ⟨m, rfl⟩)
  | none =>
    cases hnumber : cellNumber value cell with
    | some x => simp
    | none => simp

end Integers

/-- Numbers without rounding. -/
def exactOps : FloatOps ℚ where
  zero := 0
  epsilon := 1 / 10 ^ 9
  ofU64 n := n.toNat
  ofI64 n := n.toInt
  parse _ := none
  sub x y := x - y
  abs x := |x|
  lt x y := x < y
  le x y := x ≤ y

/-- A text that is no number is equal to zero, and one and a half is not greater than one. -/
theorem compareValues_unread :
    compareValues (fun c => [c.toLower]) (fun _ => []) exactOps (.string "root") .eq (.int 0) = true ∧
      cellNumber id (.string "root") = none ∧
      compareValues (fun c => [c.toLower]) (fun _ => []) exactOps (.number (.float (3 / 2))) .gt (.int 1) = false ∧
      cellNumber id (.number (.float (3 / 2))) = some (3 / 2) :=
  ⟨rfl, rfl, rfl, rfl⟩

end ThorFirewall.Thorql
