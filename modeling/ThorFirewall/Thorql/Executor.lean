import Mathlib
import ThorFirewall.Lib.HashJoin
import ThorFirewall.Lib.Json
import ThorFirewall.Lib.KeyedList
import ThorFirewall.Thorql.Parser

/-!
# Running a statement of ThorQL (`forensics/thorql/executor.rs`)

A row maps column names to cells. A join builds a table of the left rows by the text of their key and probes it with the
right rows; a merged row has each cell under its qualified name and under its bare one. The order in which a hash map
gives its entries is a parameter (`iter`), and so is the text of a cell, which is `jsonAsStr` for JSON.

- `mergeRow_get`: the cells of a merged row;
- `mergeRow_injective`: a merged row tells the rows it comes from.
-/

namespace ThorFirewall.Thorql

open Std

variable {F V : Type*}

/-! ## Rows and cells -/

abbrev Row (V : Type*) := ExtTreeMap (List Char) V

/-- A source of rows, with the name that qualifies its columns. -/
structure DataSource (V : Type*) where
  tableName : List Char
  scan : List (Row V)

/-- `display` is the text that serde_json gives a value. -/
def jsonAsStr (display : Json.Value F → List Char) : Json.Value F → List Char
  | .string s => s.toList
  | .null => []
  | .bool b => if b then "true".toList else "false".toList
  | v => display v

/-- The text behind the last point. -/
def bareColumn (col : List Char) : List Char := col.rtakeWhile (· ≠ '.')

/-! ## References -/

/-- The cell that a comparison of a WHERE clause reads. -/
def whereCell (lower : List Char → List Char) (iter : Row V → List (List Char × V)) (row : Row V)
    (column : List Char) : Option V :=
  row[column]? <|> row[bareColumn column]? <|>
    ((iter row).find? fun p => lower p.1 = lower column).map (·.2)

/-- Evaluate an expression. `compare` is `compare_values`. -/
def evalExpr (lower : List Char → List Char) (iter : Row V → List (List Char × V))
    (compare : V → Op → Value F → Bool) (row : Row V) : Expr F → Bool
  | .and a b => evalExpr lower iter compare row a && evalExpr lower iter compare row b
  | .or a b => evalExpr lower iter compare row a || evalExpr lower iter compare row b
  | .not e => !evalExpr lower iter compare row e
  | .comparison column op value => match whereCell lower iter row column with
    | none => false
    | some cell => compare cell op value

/-- The cell that SELECT takes for a column, if there is one. -/
def selectCell (row : Row V) (column : List Char) : Option V := row[column]? <|> row[bareColumn column]?

def projectRow (null : V) (row : Row V) : Projection → Row V
  | .all => row
  | .columns cols => cols.foldl (fun projected col => projected.insert col ((selectCell row col).getD null)) ∅

/-! ## Joins -/

def qualify (table col : List Char) : List Char := table ++ '.' :: col

/-- The row of a pair: the bare name of a column of both is that of the right one. -/
def mergeRow (iter : Row V → List (List Char × V)) (leftAlias rightAlias : List Char) (left right : Row V) : Row V :=
  let merged := (iter left).foldl (fun m p => (m.insert (qualify leftAlias p.1) p.2).insertIfNew p.1 p.2) ∅
  (iter right).foldl (fun m p => (m.insert (qualify rightAlias p.1) p.2).insert p.1 p.2) merged

/-- The key of a row, which is empty where the column is missing. -/
def joinKey (text : V → List Char) (col : List Char) (row : Row V) : List Char := (row[col]?.map text).getD []

def executeJoin (text : V → List Char) (iter : Row V → List (List Char × V)) (left right : DataSource V)
    (join : JoinClause) : List (Row V) :=
  HashJoin.hashJoin (joinKey text (bareColumn join.leftKey)) (joinKey text (bareColumn join.rightKey))
    (mergeRow iter left.tableName right.tableName) left.scan right.scan

/-! ## The cells of a merged row -/

/-- The entries of a row, in some order. -/
def Iterates (iter : Row V → List (List Char × V)) : Prop := ∀ row, (iter row).Perm row.toList

/-- The names of its columns have no points. -/
def Plain (row : Row V) : Prop := ∀ col ∈ row, '.' ∉ col

theorem bareColumn_plain {col : List Char} (h : '.' ∉ col) : bareColumn col = col := by
  refine List.rtakeWhile_eq_self_iff.2 fun c hc => ?_
  simp only [ne_eq, decide_not, Bool.not_eq_true', decide_eq_false_iff_not]
  rintro rfl
  exact h hc

theorem bareColumn_qualify (table : List Char) {col : List Char} (h : '.' ∉ col) :
    bareColumn (qualify table col) = col := by
  have hcol : ∀ c ∈ col.reverse, (decide (c ≠ '.')) = true := by
    intro c hc
    simp only [ne_eq, decide_not, Bool.not_eq_true', decide_eq_false_iff_not]
    rintro rfl
    exact h (List.mem_reverse.1 hc)
  unfold bareColumn qualify List.rtakeWhile
  rw [List.reverse_append, List.reverse_cons, List.append_assoc,
    List.takeWhile_run hcol (by intro c hc; cases hc; rfl), List.reverse_reverse]

theorem qualify_inj {a b x y : List Char} (ha : '.' ∉ a) (hx : '.' ∉ x) :
    qualify a x = qualify b y ↔ a = b ∧ x = y := by
  constructor
  · intro h
    obtain ⟨hab, -, hxy⟩ := (List.append_cons_inj_of_notMem ha hx).1 h
    exact ⟨hab, hxy⟩
  · rintro ⟨rfl, rfl⟩
    rfl

theorem dot_mem_qualify (a x : List Char) : '.' ∈ qualify a x := by simp [qualify]

theorem getElem?_insert (m : Row V) (k : List Char) (v : V) (y : List Char) :
    (m.insert k v)[y]? = if k = y then some v else m[y]? := by
  rw [ExtTreeMap.getElem?_insert]
  exact if_congr Std.compare_eq_iff_eq rfl rfl

theorem getElem?_insertIfNew (m : Row V) (k : List Char) (v : V) (y : List Char) :
    (m.insertIfNew k v)[y]? = if k = y then (m[y]? <|> some v) else m[y]? := by
  rw [ExtTreeMap.getElem?_insertIfNew]
  by_cases h : k = y
  · subst h
    rw [if_pos rfl]
    by_cases hk : k ∈ m
    · rw [if_neg fun hcmp => hcmp.2 hk, ExtTreeMap.getElem?_eq_some_getElem hk]
      rfl
    · rw [if_pos ⟨Std.ReflCmp.compare_self, hk⟩, ExtTreeMap.getElem?_eq_none hk]
      rfl
  · rw [if_neg h, if_neg fun hcmp => h (Std.compare_eq_iff_eq.1 hcmp.1)]

/-- The cell of a name among entries. -/
def look (kvs : List (List Char × V)) (x : List Char) : Option V := (KeyedList.lookup Prod.fst x kvs).map (·.2)

theorem look_cons (k x : List Char) (v : V) (kvs : List (List Char × V)) :
    look ((k, v) :: kvs) x = if k = x then some v else look kvs x := by
  unfold look
  rw [KeyedList.lookup_cons]
  split_ifs <;> rfl

theorem nodup_iter {iter : Row V → List (List Char × V)} (hiter : Iterates iter) (row : Row V) :
    ((iter row).map Prod.fst).Nodup := by
  rw [((hiter row).map Prod.fst).nodup_iff, List.Nodup, List.pairwise_map]
  exact row.distinct_keys_toList.imp fun h heq => h (compare_eq_iff_eq.2 heq)

theorem look_iter {iter : Row V → List (List Char × V)} (hiter : Iterates iter) (row : Row V) (x : List Char) :
    look (iter row) x = row[x]? := by
  refine Option.ext fun v => ?_
  rw [look, Option.map_eq_some_iff, ← ExtTreeMap.mem_toList_iff_getElem?_eq_some]
  constructor
  · rintro ⟨⟨k, v⟩, hp, rfl⟩
    obtain ⟨hmem, rfl⟩ := (KeyedList.lookup_eq_some_iff (nodup_iter hiter row)).1 hp
    exact (hiter row).mem_iff.1 hmem
  · intro h
    exact ⟨(x, v), (KeyedList.lookup_eq_some_iff (nodup_iter hiter row)).2 ⟨(hiter row).mem_iff.2 h, rfl⟩, rfl⟩

theorem look_of_not_mem {kvs : List (List Char × V)} {x : List Char} (h : x ∉ kvs.map Prod.fst) : look kvs x = none := by
  rw [look, Option.map_eq_none_iff, KeyedList.lookup, List.find?_eq_none]
  intro p hp
  simpa using fun heq => h (List.mem_map.2 ⟨p, hp, heq⟩)

section Entries

variable {f : Row V → List Char → V → Row V} {table : List Char} {kvs : List (List Char × V)}

/-- Each entry goes under its qualified name, whatever `f` does for its bare one. -/
theorem foldl_qualified (htable : '.' ∉ table) (hf : ∀ m k v y, y ≠ k → (f m k v)[y]? = m[y]?)
    (hnodup : (kvs.map Prod.fst).Nodup) (hplain : ∀ p ∈ kvs, '.' ∉ p.1) (m : Row V) (x : List Char) :
    (kvs.foldl (fun m p => f (m.insert (qualify table p.1) p.2) p.1 p.2) m)[qualify table x]? =
      (look kvs x <|> m[qualify table x]?) := by
  induction kvs generalizing m with
  | nil => rfl
  | cons p kvs ih =>
    obtain ⟨k, v⟩ := p
    obtain ⟨hk, hnodup⟩ := List.nodup_cons.1 hnodup
    have hkdot : '.' ∉ k := hplain (k, v) List.mem_cons_self
    have hne : qualify table x ≠ k := fun h => hkdot (h ▸ dot_mem_qualify table x)
    rw [List.foldl_cons, ih hnodup (fun p hp => hplain p (List.mem_cons_of_mem _ hp)), hf _ _ _ _ hne,
      getElem?_insert, look_cons]
    by_cases hx : k = x
    · subst hx
      rw [if_pos rfl, if_pos rfl, look_of_not_mem hk]
      rfl
    · rw [if_neg hx, if_neg fun h => hx ((qualify_inj htable hkdot).1 h).2]

/-- The other names are left alone. -/
theorem foldl_other (hf : ∀ m k v y, y ≠ k → (f m k v)[y]? = m[y]?) (m : Row V) {y : List Char}
    (hy : ∀ p ∈ kvs, y ≠ qualify table p.1 ∧ y ≠ p.1) :
    (kvs.foldl (fun m p => f (m.insert (qualify table p.1) p.2) p.1 p.2) m)[y]? = m[y]? := by
  induction kvs generalizing m with
  | nil => rfl
  | cons p kvs ih =>
    obtain ⟨hqualified, hbare⟩ := hy p List.mem_cons_self
    rw [List.foldl_cons, ih _ fun p hp => hy p (List.mem_cons_of_mem _ hp), hf _ _ _ _ hbare, getElem?_insert,
      if_neg hqualified.symm]

/-- The first entry under a bare name stays. -/
theorem foldl_insertIfNew (m : Row V) {x : List Char} (hx : '.' ∉ x) :
    (kvs.foldl (fun m p => (m.insert (qualify table p.1) p.2).insertIfNew p.1 p.2) m)[x]? =
      (m[x]? <|> look kvs x) := by
  induction kvs generalizing m with
  | nil => cases hm : m[x]? <;> exact hm
  | cons p kvs ih =>
    obtain ⟨k, v⟩ := p
    have hqualified : qualify table k ≠ x := fun h => hx (h ▸ dot_mem_qualify table k)
    rw [List.foldl_cons, ih, getElem?_insertIfNew, getElem?_insert, look_cons, if_neg hqualified]
    by_cases hk : k = x
    · rw [if_pos hk, if_pos hk]
      cases m[x]? <;> rfl
    · rw [if_neg hk, if_neg hk]

/-- The last entry under a bare name stays. -/
theorem foldl_insert (hnodup : (kvs.map Prod.fst).Nodup) (m : Row V) {x : List Char} (hx : '.' ∉ x) :
    (kvs.foldl (fun m p => (m.insert (qualify table p.1) p.2).insert p.1 p.2) m)[x]? = (look kvs x <|> m[x]?) := by
  induction kvs generalizing m with
  | nil => rfl
  | cons p kvs ih =>
    obtain ⟨k, v⟩ := p
    obtain ⟨hk, hnodup⟩ := List.nodup_cons.1 hnodup
    have hqualified : qualify table k ≠ x := fun h => hx (h ▸ dot_mem_qualify table k)
    rw [List.foldl_cons, ih hnodup, getElem?_insert, getElem?_insert, look_cons, if_neg hqualified]
    by_cases hkx : k = x
    · subst hkx
      rw [if_pos rfl, if_pos rfl, look_of_not_mem hk]
      rfl
    · rw [if_neg hkx, if_neg hkx]

end Entries

section Merging

variable {iter : Row V → List (List Char × V)} (hiter : Iterates iter) {leftAlias rightAlias : List Char}
  {left right : Row V}

include hiter

theorem plain_iter {row : Row V} (h : Plain row) : ∀ p ∈ iter row, '.' ∉ p.1 := by
  rintro ⟨k, v⟩ hp
  refine h k (ExtTreeMap.mem_iff_isSome_getElem?.2 ?_)
  rw [ExtTreeMap.mem_toList_iff_getElem?_eq_some.1 ((hiter row).mem_iff.1 hp)]
  rfl

/-- **The cells of a merged row**: those of both rows under their qualified names, and under a bare name that of the
right row before that of the left one. -/
theorem mergeRow_get (hleft : '.' ∉ leftAlias) (hright : '.' ∉ rightAlias) (hne : leftAlias ≠ rightAlias)
    (hl : Plain left) (hr : Plain right) {x : List Char} (hx : '.' ∉ x) :
    (mergeRow iter leftAlias rightAlias left right)[qualify leftAlias x]? = left[x]? ∧
    (mergeRow iter leftAlias rightAlias left right)[qualify rightAlias x]? = right[x]? ∧
    (mergeRow iter leftAlias rightAlias left right)[x]? = (right[x]? <|> left[x]?) := by
  have hinsert : ∀ (m : Row V) k v y, y ≠ k → (m.insert k v)[y]? = m[y]? :=
    fun m k v y h => (getElem?_insert m k v y).trans (if_neg h.symm)
  have hnew : ∀ (m : Row V) k v y, y ≠ k → (m.insertIfNew k v)[y]? = m[y]? :=
    fun m k v y h => (getElem?_insertIfNew m k v y).trans (if_neg h.symm)
  have hbare : ∀ {row : Row V}, Plain row → ∀ p ∈ iter row, ∀ table, qualify table x ≠ p.1 :=
    fun h p hp table heq => plain_iter hiter h p hp (heq ▸ dot_mem_qualify table x)
  refine ⟨?_, ?_, ?_⟩
  · have hother : ∀ p ∈ iter right, qualify leftAlias x ≠ qualify rightAlias p.1 ∧ qualify leftAlias x ≠ p.1 :=
      fun p hp => ⟨fun heq => hne ((qualify_inj hleft hx).1 heq).1, hbare hr p hp _⟩
    rw [mergeRow, foldl_other hinsert _ hother, foldl_qualified hleft hnew (nodup_iter hiter left)
      (plain_iter hiter hl), look_iter hiter]
    cases left[x]? <;> rfl
  · have hother : ∀ p ∈ iter left, qualify rightAlias x ≠ qualify leftAlias p.1 ∧ qualify rightAlias x ≠ p.1 :=
      fun p hp => ⟨fun heq => hne.symm ((qualify_inj hright hx).1 heq).1, hbare hl p hp _⟩
    rw [mergeRow, foldl_qualified hright hinsert (nodup_iter hiter right) (plain_iter hiter hr), look_iter hiter,
      foldl_other hnew _ hother]
    cases right[x]? <;> rfl
  · rw [mergeRow, foldl_insert (nodup_iter hiter right) _ hx, foldl_insertIfNew _ hx, look_iter hiter, look_iter hiter]
    cases right[x]? <;> cases left[x]? <;> rfl

/-- A merged row has no other names. -/
theorem mem_mergeRow {y : List Char} (hy : y ∈ mergeRow iter leftAlias rightAlias left right) :
    ∃ x, (x ∈ left ∧ (y = qualify leftAlias x ∨ y = x)) ∨ (x ∈ right ∧ (y = qualify rightAlias x ∨ y = x)) := by
  have hinsert : ∀ (m : Row V) k v y, y ≠ k → (m.insert k v)[y]? = m[y]? :=
    fun m k v y h => (getElem?_insert m k v y).trans (if_neg h.symm)
  have hnew : ∀ (m : Row V) k v y, y ≠ k → (m.insertIfNew k v)[y]? = m[y]? :=
    fun m k v y h => (getElem?_insertIfNew m k v y).trans (if_neg h.symm)
  have hmem : ∀ {row : Row V} {p}, p ∈ iter row → p.1 ∈ row := by
    intro row p hp
    rw [ExtTreeMap.mem_iff_isSome_getElem?, ExtTreeMap.mem_toList_iff_getElem?_eq_some.1 ((hiter row).mem_iff.1 hp)]
    rfl
  by_contra hnone
  push Not at hnone
  rw [ExtTreeMap.mem_iff_isSome_getElem?, mergeRow,
    foldl_other hinsert _ fun p hp => (hnone p.1).2 (hmem hp),
    foldl_other hnew _ fun p hp => (hnone p.1).1 (hmem hp)] at hy
  cases hy

/-- A merged row tells the rows it comes from. -/
theorem mergeRow_injective (hleft : '.' ∉ leftAlias) (hright : '.' ∉ rightAlias) (hne : leftAlias ≠ rightAlias)
    (hl : Plain left) (hr : Plain right) {left' right' : Row V} (hl' : Plain left') (hr' : Plain right')
    (h : mergeRow iter leftAlias rightAlias left right = mergeRow iter leftAlias rightAlias left' right') :
    left = left' ∧ right = right' := by
  have hcell : ∀ {row row' : Row V}, Plain row → Plain row' →
      (∀ x : List Char, '.' ∉ x → row[x]? = row'[x]?) → row = row' := by
    intro row row' hrow hrow' heq
    refine ExtTreeMap.ext_getElem? fun x => ?_
    by_cases hx : '.' ∈ x
    · rw [ExtTreeMap.getElem?_eq_none fun hmem => hrow x hmem hx,
        ExtTreeMap.getElem?_eq_none fun hmem => hrow' x hmem hx]
    · exact heq x hx
  constructor
  · refine hcell hl hl' fun x hx => ?_
    rw [← (mergeRow_get hiter hleft hright hne hl hr hx).1, h, (mergeRow_get hiter hleft hright hne hl' hr' hx).1]
  · refine hcell hr hr' fun x hx => ?_
    rw [← (mergeRow_get hiter hleft hright hne hl hr hx).2.1, h, (mergeRow_get hiter hleft hright hne hl' hr' hx).2.1]

end Merging

end ThorFirewall.Thorql
