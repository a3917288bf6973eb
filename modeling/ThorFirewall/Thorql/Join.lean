import Mathlib
import ThorFirewall.Thorql.Executor

/-!
# When the join of ThorQL is the join that is written

The ON clause names a column of each table: a qualified one belongs to the table that qualifies it, and of two bare ones
the first belongs to the left table. A pair of rows is joined if both have their column with the same text. The executor
takes the first column for that of the left table, whatever qualifies it, and takes a missing cell for an empty text.

- `execute_join_iff`: the rows returned are those of the pairs that are joined, exactly if this makes no difference.
-/

namespace ThorFirewall.Thorql

open Std

variable {V : Type*}

inductive Side
  | left
  | right
  deriving DecidableEq

/-- A column, maybe qualified by one of two tables. -/
structure Reference where
  table : Option Side
  column : List Char

/-- An ON clause. Its columns have no points, and not both are of one table. -/
structure OnClause where
  first : Reference
  second : Reference
  plain_first : '.' ∉ first.column
  plain_second : '.' ∉ second.column
  two_tables : first.table = none ∨ first.table ≠ second.table

namespace Reference

variable (left right : DataSource V)

/-- What is written. -/
def text (r : Reference) : List Char := match r.table with
  | none => r.column
  | some .left => qualify left.tableName r.column
  | some .right => qualify right.tableName r.column

theorem bareColumn_text {r : Reference} (h : '.' ∉ r.column) : bareColumn (r.text left right) = r.column := by
  obtain ⟨table, column⟩ := r
  match table with
  | none => exact bareColumn_plain h
  | some .left => exact bareColumn_qualify _ h
  | some .right => exact bareColumn_qualify _ h

end Reference

namespace OnClause

/-- The right table is named first, or the left one last. -/
def swapped (on : OnClause) : Bool := on.first.table = some .right || on.second.table = some .left

/-- The column of the left table. -/
def leftColumn (on : OnClause) : List Char := if on.swapped then on.second.column else on.first.column

def rightColumn (on : OnClause) : List Char := if on.swapped then on.first.column else on.second.column

/-- Both rows have their columns, with the same text. -/
def joins (on : OnClause) (text : V → List Char) (l r : Row V) : Bool :=
  match l[on.leftColumn]?, r[on.rightColumn]? with
  | some v, some w => text v = text w
  | _, _ => false

/-- The clause as the parser gives it. -/
def clause (on : OnClause) (left right : DataSource V) : JoinClause where
  table := right.tableName
  leftKey := on.first.text left right
  rightKey := on.second.text left right

/-- No row without its column meets one of the other table that has none either, or an empty text; and where the clause
names the tables in the other order, a pair agrees on the columns by their position if it does on those that are named,
and the other way round. -/
def Safe (on : OnClause) (text : V → List Char) (left right : DataSource V) : Prop :=
  ∀ l ∈ left.scan, ∀ r ∈ right.scan,
    let first := joinKey text on.first.column l
    let second := joinKey text on.second.column r
    if on.swapped then first = second ↔ on.joins text l r
    else l[on.first.column]? = none ∨ r[on.second.column]? = none → first ≠ second

variable {on : OnClause} {text : V → List Char}

theorem joins_iff {l r : Row V} :
    on.joins text l r = true ↔ ∃ v w, l[on.leftColumn]? = some v ∧ r[on.rightColumn]? = some w ∧ text v = text w := by
  unfold joins
  cases l[on.leftColumn]? <;> cases r[on.rightColumn]? <;> simp

/-- A clause is safe if the keys of each pair agree exactly where it is joined. -/
theorem safe_iff {left right : DataSource V} : on.Safe text left right ↔ ∀ l ∈ left.scan, ∀ r ∈ right.scan,
    (joinKey text on.first.column l = joinKey text on.second.column r ↔ on.joins text l r = true) := by
  refine forall₄_congr fun l _ r _ => ?_
  by_cases hswap : on.swapped = true
  · rw [if_pos hswap]
  · have hleft : on.leftColumn = on.first.column := if_neg hswap
    have hright : on.rightColumn = on.second.column := if_neg hswap
    rw [if_neg hswap, joins_iff, hleft, hright]
    unfold joinKey
    cases l[on.first.column]? <;> cases r[on.second.column]? <;> simp

end OnClause

variable {iter : Row V → List (List Char × V)}

/-- The join of the executor is the nested loop over the pairs with equal keys. -/
theorem executeJoin_perm (text : V → List Char) (left right : DataSource V) (on : OnClause) :
    (executeJoin text iter left right (on.clause left right)).Perm (HashJoin.nestedLoop
      (fun l r => joinKey text on.first.column l = joinKey text on.second.column r)
      (mergeRow iter left.tableName right.tableName) left.scan right.scan) := by
  unfold executeJoin OnClause.clause
  rw [Reference.bareColumn_text left right on.plain_first, Reference.bareColumn_text left right on.plain_second]
  exact HashJoin.hashJoin_perm _ _ _ _ _

/-- **The join is that of the ON clause where the clause is safe**, and only there if no column has a point in its
name. -/
theorem execute_join_iff (text : V → List Char) (iter : Row V → List (List Char × V)) (hiter : Iterates iter)
    (left right : DataSource V) (hne : left.tableName ≠ right.tableName) (hleft : '.' ∉ left.tableName)
    (hright : '.' ∉ right.tableName) (on : OnClause) :
    let Nested := (executeJoin text iter left right (on.clause left right)).Perm (HashJoin.nestedLoop (on.joins text)
      (mergeRow iter left.tableName right.tableName) left.scan right.scan)
    (on.Safe text left right → Nested) ∧
      ((∀ l ∈ left.scan, Plain l) → (∀ r ∈ right.scan, Plain r) → Nested → on.Safe text left right) := by
  intro Nested
  have hjoin := @executeJoin_perm _ iter text left right on
  constructor
  · intro hsafe
    refine hjoin.trans (List.Perm.of_eq (HashJoin.nestedLoop_congr fun l hl r hr => ?_))
    rw [Bool.eq_iff_iff, decide_eq_true_iff]
    exact OnClause.safe_iff.1 hsafe l hl r hr
  · intro hl hr hnested
    refine OnClause.safe_iff.2 fun l hlmem r hrmem => ?_
    -- a merged row of the one list is one of the other, and tells its pair
    have hmem : ∀ {p q : Row V → Row V → Bool},
        (HashJoin.nestedLoop p (mergeRow iter left.tableName right.tableName) left.scan right.scan).Perm
          (HashJoin.nestedLoop q (mergeRow iter left.tableName right.tableName) left.scan right.scan) →
        p l r = true → q l r = true := by
      intro p q hperm hp
      have hin := hperm.mem_iff.1 (HashJoin.mem_nestedLoop.2 ⟨l, hlmem, r, hrmem, hp, rfl⟩)
      obtain ⟨l', hl', r', hr', hq, hmerge⟩ := HashJoin.mem_nestedLoop.1 hin
      obtain ⟨rfl, rfl⟩ := mergeRow_injective hiter hleft hright hne (hl l' hl') (hr r' hr') (hl l hlmem) (hr r hrmem)
        hmerge
      exact hq
    have hperm := hjoin.symm.trans hnested
    exact ⟨fun h => hmem hperm (decide_eq_true h), fun h => of_decide_eq_true (hmem hperm.symm h)⟩

/-- A row with a process number. -/
def pidRow (pid : String) : Row (Json.Value Unit) := (∅ : Row (Json.Value Unit)).insert ['p', 'i', 'd'] (.string pid)

/-- A process and two connections. -/
def processes : DataSource (Json.Value Unit) where
  tableName := "processes".toList
  scan := [pidRow "7"]

def connections : DataSource (Json.Value Unit) where
  tableName := "connections".toList
  scan := [pidRow "7", pidRow "8"]

/-- `ON connections.pid = pid`. -/
def onPid : OnClause where
  first := ⟨some .right, ['p', 'i', 'd']⟩
  second := ⟨none, ['p', 'i', 'd']⟩
  plain_first := by decide
  plain_second := by decide
  two_tables := by decide

/-- The text of a cell that is no array or object. -/
def cellText : Json.Value Unit → List Char := jsonAsStr fun _ => []

def cells (row : Row (Json.Value Unit)) : List (List Char × Json.Value Unit) := row.toList

theorem execute_join_pid :
    List.Perm (executeJoin cellText cells processes connections (onPid.clause processes connections))
      (HashJoin.nestedLoop (onPid.joins cellText)
        (mergeRow cells processes.tableName connections.tableName) processes.scan connections.scan) := by
  have hpid : ∀ pid, (pidRow pid)[['p', 'i', 'd']]? = some (.string pid) := fun pid =>
    (getElem?_insert _ _ _ _).trans (if_pos rfl)
  have hsafe : onPid.Safe cellText processes connections := by
    refine OnClause.safe_iff.2 fun l hl r hr => ?_
    obtain rfl := List.mem_singleton.1 hl
    rw [OnClause.joins_iff]
    have hrow : ∃ pid, r = pidRow pid := by
      rcases List.mem_cons.1 hr with rfl | hr
      · exact ⟨_, rfl⟩
      · exact ⟨_, List.mem_singleton.1 hr⟩
    obtain ⟨pid, rfl⟩ := hrow
    show (((pidRow "7")[['p', 'i', 'd']]?.map cellText).getD [] = ((pidRow pid)[['p', 'i', 'd']]?.map cellText).getD []) ↔
      ∃ v w, (pidRow "7")[['p', 'i', 'd']]? = some v ∧ (pidRow pid)[['p', 'i', 'd']]? = some w ∧ cellText v = cellText w
    rw [hpid, hpid]
    simp
  exact (execute_join_iff cellText cells (fun _ => .refl _) processes connections (by decide) (by decide)
    (by decide) onPid).1 hsafe

/-- Two rows without the columns are joined. -/
theorem missing_key_joined : ¬ ∀ (left right : DataSource (Json.Value Unit)) (on : OnClause),
    left.tableName ≠ right.tableName →
      List.Perm (executeJoin cellText cells left right (on.clause left right))
        (HashJoin.nestedLoop (on.joins cellText) (mergeRow cells left.tableName right.tableName) left.scan
          right.scan) := by
  intro h
  have hlen := (h ⟨"processes".toList, [∅]⟩ ⟨"users".toList, [∅]⟩ onPid (by decide)).length_eq
  exact absurd hlen (by decide +kernel)

end ThorFirewall.Thorql
