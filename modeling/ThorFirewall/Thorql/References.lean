import Mathlib
import ThorFirewall.Thorql.Join

/-!
# Which cell a column reference of ThorQL stands for

WHERE and SELECT look a name up in a merged row: the name as it is written, then its part behind the last point. WHERE
goes on with a name that agrees but for the case of its letters. Both take the cell of the other table where a qualified
column is missing in its own.

- `same_cell_iff`: when both find the same cell;
- `own_cell_iff`: when a qualified reference does not give a cell of the other table.
-/

namespace ThorFirewall.Thorql

open Std

variable {V : Type*}

/-- `to_lowercase`: what is known of it. -/
structure Lowercase where
  lower : List Char → List Char
  /-- An ASCII text in front is changed by itself. -/
  ascii : ∀ s t, (∀ c ∈ s, c.toNat < 128) → ∃ u, lower (s ++ t) = s.map Char.toLower ++ u
  /-- No point comes or goes. -/
  dot : ∀ s, '.' ∈ lower s ↔ '.' ∈ s

/-- The names of the tables that there are (`table_name` of the data sources). -/
def tableNames : List (List Char) :=
  [['p', 'r', 'o', 'c', 'e', 's', 's', 'e', 's'], ['c', 'o', 'n', 'n', 'e', 'c', 't', 'i', 'o', 'n', 's'],
    ['f', 'i', 'l', 'e', 's'], ['u', 's', 'e', 'r', 's'], ['c', 'r', 'o', 'n', '_', 'j', 'o', 'b', 's']]

/-- A row whose cells carry the table they come from. -/
def tagged (side : Side) (row : Row V) : Row (Side × V) := row.map fun _ v => (side, v)

theorem foldl_projected (null : V) (row : Row V) (cols : List (List Char)) (m : Row V) (col : List Char) :
    (cols.foldl (fun (m : Row V) col => m.insert col ((selectCell row col).getD null)) m)[col]? =
      if col ∈ cols then some ((selectCell row col).getD null) else m[col]? := by
  induction cols generalizing m with
  | nil => rfl
  | cons c cols ih =>
    rw [List.foldl_cons, ih, getElem?_insert]
    by_cases hc : c = col
    · subst hc
      simp
    · simp [hc, Ne.symm hc]

/-- Each column of a projection has the cell that was selected, or null. -/
theorem projectRow_get (null : V) (row : Row V) {cols : List (List Char)} {col : List Char} (h : col ∈ cols) :
    (projectRow null row (.columns cols))[col]? = some ((selectCell row col).getD null) :=
  (foldl_projected null row cols ∅ col).trans (if_pos h)

theorem mem_iff {row : Row V} {k : List Char} : k ∈ row ↔ ∃ v, row[k]? = some v := by
  rw [ExtTreeMap.mem_iff_isSome_getElem?, Option.isSome_iff_exists]

/-- **WHERE and SELECT find the same cell** exactly if there is one without regard to case only where there is one with
it. -/
theorem same_cell_iff {lower : List Char → List Char} {iter : Row V → List (List Char × V)} (hiter : Iterates iter)
    (row : Row V) (c : List Char) :
    whereCell lower iter row c = selectCell row c ↔
      c ∈ row ∨ bareColumn c ∈ row ∨ ∀ k ∈ row, lower k ≠ lower c := by
  have hfind : ((iter row).find? fun p => lower p.1 = lower c) = none ↔ ∀ k ∈ row, lower k ≠ lower c := by
    rw [List.find?_eq_none]
    constructor
    · intro h k hk
      obtain ⟨v, hv⟩ := mem_iff.1 hk
      simpa using h (k, v) ((hiter row).mem_iff.2 (ExtTreeMap.mem_toList_iff_getElem?_eq_some.2 hv))
    · rintro h ⟨k, v⟩ hp
      have hv := ExtTreeMap.mem_toList_iff_getElem?_eq_some.1 ((hiter row).mem_iff.1 hp)
      simpa using h k (mem_iff.2 ⟨v, hv⟩)
  rw [← hfind, mem_iff, mem_iff]
  unfold whereCell selectCell
  cases row[c]? with
  | some v => simp
  | none =>
    cases row[bareColumn c]? with
    | some v => simp
    | none => simp

/-- Tables of different names differ in lower case. -/
theorem lower_qualify_ne (low : Lowercase) {a b : List Char} (ha : a ∈ tableNames) (hb : b ∈ tableNames) (hne : a ≠ b)
    (x y : List Char) : low.lower (qualify a x) ≠ low.lower (qualify b y) := by
  have hname : ∀ n ∈ tableNames, (∀ c ∈ n, c.toNat < 128) ∧ n.map Char.toLower = n ∧ '.' ∉ n := by
    intro n hn
    simp only [tableNames, List.mem_cons, List.not_mem_nil, or_false] at hn
    rcases hn with rfl | rfl | rfl | rfl | rfl <;> exact ⟨by simp, rfl, by decide⟩
  have hpre : ∀ n ∈ tableNames, ∀ x, (low.lower (qualify n x)).takeWhile (· ≠ '.') = n := by
    intro n hn x
    obtain ⟨hascii, hlower, hdot⟩ := hname n hn
    obtain ⟨u, hu⟩ := low.ascii (n ++ ['.']) x (by simpa [or_imp, forall_and] using hascii)
    have hn' : ∀ c ∈ n, decide (c ≠ '.') = true := by
      intro c hc
      simp only [ne_eq, decide_not, Bool.not_eq_true', decide_eq_false_iff_not]
      rintro rfl
      exact hdot hc
    rw [qualify, ← List.singleton_append, ← List.append_assoc, hu, List.map_append, hlower, List.append_assoc]
    exact List.takeWhile_run hn' fun c hc => by cases hc; rfl
  intro h
  rw [← hpre a ha x, h, hpre b hb y] at hne
  exact hne rfl

theorem tableNames_plain {table : List Char} (h : table ∈ tableNames) : '.' ∉ table := by
  simp only [tableNames, List.mem_cons, List.not_mem_nil, or_false] at h
  rcases h with rfl | rfl | rfl | rfl | rfl <;> decide

section Own

variable {low : Lowercase} {iter : Row (Side × V) → List (List Char × (Side × V))} {leftAlias rightAlias : List Char}
  {left right : Row V}

theorem tagged_get (side : Side) (row : Row V) (x : List Char) :
    (tagged side row)[x]? = row[x]?.map fun v => (side, v) := by
  rw [tagged, ExtTreeMap.getElem?_map]

theorem plain_tagged (side : Side) {row : Row V} (h : Plain row) : Plain (tagged side row) := by
  intro x hx
  obtain ⟨v, hv⟩ := mem_iff.1 hx
  rw [tagged_get, Option.map_eq_some_iff] at hv
  obtain ⟨w, hw, -⟩ := hv
  exact h x (mem_iff.2 ⟨w, hw⟩)

/-- The cells that WHERE and SELECT find are of a side. -/
def Own (low : Lowercase) (iter : Row (Side × V) → List (List Char × (Side × V))) (merged : Row (Side × V)) (side : Side)
    (c : List Char) : Prop :=
  (∀ cell ∈ whereCell low.lower iter merged c, cell.1 = side) ∧ ∀ cell ∈ selectCell merged c, cell.1 = side

/-- A qualified reference in a merged row, of which this is known: the cell under the qualified name is that of the own
row, and under the bare one that of either row. -/
theorem own_iff {merged : Row (Side × V)} (side other : Side) (hside : other ≠ side) {own foreign : Row V}
    {table x : List Char} (hx : '.' ∉ x) (hqualified : merged[qualify table x]? = own[x]?.map fun v => (side, v))
    (hbare : own[x]? = none → merged[x]? = foreign[x]?.map fun v => (other, v))
    (hfind : ∀ p ∈ (iter merged).find? fun p => low.lower p.1 = low.lower (qualify table x), p.2.1 = side) :
    Own low iter merged side (qualify table x) ↔ x ∈ own ∨ x ∉ foreign := by
  unfold Own whereCell selectCell
  rw [bareColumn_qualify table hx, hqualified, mem_iff, mem_iff]
  cases hown : own[x]? with
  | some v => simp
  | none =>
    rw [hbare hown]
    cases hforeign : foreign[x]? with
    | some w => simp [hside]
    | none =>
      refine iff_of_true ⟨fun cell hcell => ?_, nofun⟩ (.inr nofun)
      obtain ⟨p, hp, rfl⟩ := Option.map_eq_some_iff.1 hcell
      exact hfind p hp

/-- A name that is found without regard to case is one of the own table. -/
theorem find_own (hiter : Iterates iter) (hleft : leftAlias ∈ tableNames) (hright : rightAlias ∈ tableNames)
    (hne : leftAlias ≠ rightAlias) (hl : Plain left) (hr : Plain right) (side : Side) (x : List Char) :
    let merged := mergeRow iter leftAlias rightAlias (tagged .left left) (tagged .right right)
    let table := match side with | .left => leftAlias | .right => rightAlias
    ∀ p ∈ (iter merged).find? (fun p => low.lower p.1 = low.lower (qualify table x)), p.2.1 = side := by
  intro merged table p hp
  have hlower : low.lower p.1 = low.lower (qualify table x) := by
    have hfound := List.find?_some (Option.mem_def.1 hp)
    exact of_decide_eq_true hfound
  have hmem : merged[p.1]? = some p.2 :=
    ExtTreeMap.mem_toList_iff_getElem?_eq_some.1 ((hiter merged).mem_iff.1 (List.mem_of_find?_eq_some hp))
  have hplain : ∀ {y}, '.' ∉ y → p.1 ≠ y := by
    rintro y hy rfl
    exact hy ((low.dot _).1 (hlower ▸ (low.dot _).2 (dot_mem_qualify table x)))
  have hl' := plain_tagged .left hl
  have hr' := plain_tagged .right hr
  have hget := fun {y} => mergeRow_get hiter (tableNames_plain hleft) (tableNames_plain hright) hne hl' hr' (x := y)
  have htag : ∀ {side : Side} {row : Row V} {y : List Char}, (tagged side row)[y]? = some p.2 → p.2.1 = side := by
    intro side row y h
    rw [tagged_get, Option.map_eq_some_iff] at h
    obtain ⟨v, -, hv⟩ := h
    rw [← hv]
  obtain ⟨y, ⟨hy, heq | heq⟩ | ⟨hy, heq | heq⟩⟩ := mem_mergeRow hiter (mem_iff.2 ⟨_, hmem⟩)
  · rw [heq] at hmem hlower
    have hside := htag ((hget (hl' y hy)).1.symm.trans hmem)
    cases side with
    | left => exact hside
    | right => exact absurd hlower (lower_qualify_ne low hleft hright hne y x)
  · exact absurd heq (hplain (hl' y hy))
  · rw [heq] at hmem hlower
    have hside := htag ((hget (hr' y hy)).2.1.symm.trans hmem)
    cases side with
    | left => exact absurd hlower (lower_qualify_ne low hright hleft hne.symm y x)
    | right => exact hside
  · exact absurd heq (hplain (hr' y hy))

end Own

/-- **Column references in a merged row.** WHERE and SELECT find the same cell exactly if the row has the name, or its
bare one, or none that agrees but for the case of its letters. Neither finds a cell of the other table for a qualified
name exactly if its own row has the column or the other row does not. -/
theorem references_iff (low : Lowercase) (iter : Row (Side × V) → List (List Char × (Side × V))) (hiter : Iterates iter)
    (leftAlias rightAlias : List Char) (hleft : leftAlias ∈ tableNames) (hright : rightAlias ∈ tableNames)
    (left right : Row V) (hl : Plain left) (hr : Plain right) :
    let merged := mergeRow iter leftAlias rightAlias (tagged .left left) (tagged .right right)
    (∀ c, whereCell low.lower iter merged c = selectCell merged c ↔
      c ∈ merged ∨ bareColumn c ∈ merged ∨ ∀ k ∈ merged, low.lower k ≠ low.lower c) ∧
    (leftAlias ≠ rightAlias → ∀ x, '.' ∉ x →
      (Own low iter merged .left (qualify leftAlias x) ↔ x ∈ left ∨ x ∉ right) ∧
      (Own low iter merged .right (qualify rightAlias x) ↔ x ∈ right ∨ x ∉ left)) := by
  intro merged
  refine ⟨same_cell_iff hiter merged, fun hne x hx => ?_⟩
  obtain ⟨hleftCell, hrightCell, hbare⟩ := mergeRow_get hiter (tableNames_plain hleft) (tableNames_plain hright) hne
    (plain_tagged .left hl) (plain_tagged .right hr) hx
  constructor
  · refine own_iff .left .right (by decide) hx (hleftCell.trans (tagged_get ..)) (fun hown => ?_)
      (find_own hiter hleft hright hne hl hr .left x)
    rw [show merged[x]? = _ from hbare, tagged_get, tagged_get, hown]
    cases right[x]? <;> rfl
  · refine own_iff .right .left (by decide) hx (hrightCell.trans (tagged_get ..)) (fun hown => ?_)
      (find_own hiter hleft hright hne hl hr .right x)
    rw [show merged[x]? = _ from hbare, tagged_get, tagged_get, hown]
    rfl

theorem toLower_eq_dot {c : Char} : c.toLower = '.' ↔ c = '.' := by
  constructor
  · intro h
    unfold Char.toLower at h
    split_ifs at h with hupper
    · have hval := congrArg (fun c => c.val.toNat) h
      simp [UInt32.le_iff_toNat_le] at hval hupper
      omega
    · exact h
  · rintro rfl
    rfl

/-- The letters of ASCII. -/
def Lowercase.letters : Lowercase where
  lower := List.map Char.toLower
  ascii s t _ := ⟨t.map Char.toLower, List.map_append ..⟩
  dot s := by simp [toLower_eq_dot]

/-- A process and a connection with its port. -/
def portRow : Row (Json.Value Unit) := (pidRow "7").insert ['p', 'o', 'r', 't'] (.string "80")

theorem plain_pidRow (pid : String) : Plain (pidRow pid) := by
  intro c hc
  obtain ⟨v, hv⟩ := mem_iff.1 hc
  rw [pidRow, getElem?_insert] at hv
  split_ifs at hv with h
  · rw [← h]
    decide
  · simp at hv

theorem references_pid :
    let table := ['p', 'r', 'o', 'c', 'e', 's', 's', 'e', 's']
    Own Lowercase.letters ExtTreeMap.toList (mergeRow ExtTreeMap.toList table ['u', 's', 'e', 'r', 's']
      (tagged .left (pidRow "7")) (tagged .right (pidRow "8"))) .left (qualify table ['p', 'i', 'd']) :=
  (((references_iff Lowercase.letters ExtTreeMap.toList (fun _ => .refl _) _ _ (by simp [tableNames])
    (by simp [tableNames]) _ _ (plain_pidRow "7") (plain_pidRow "8")).2 (by decide) _ (by decide)).1).2
      (.inl (mem_iff.2 ⟨_, (getElem?_insert _ _ _ _).trans (if_pos rfl)⟩))

/-- A name in capitals that WHERE finds and SELECT does not, and the port of a connection that both find for that of a
process. -/
theorem references_differ :
    let table := ['p', 'r', 'o', 'c', 'e', 's', 's', 'e', 's']
    let merged := mergeRow ExtTreeMap.toList table ['c', 'o', 'n', 'n', 'e', 'c', 't', 'i', 'o', 'n', 's']
      (tagged .left (pidRow "7")) (tagged .right portRow)
    (whereCell Lowercase.letters.lower ExtTreeMap.toList merged ['P', 'I', 'D']).isSome ∧
      selectCell merged ['P', 'I', 'D'] = none ∧
      (selectCell merged (qualify table ['p', 'o', 'r', 't'])).map (·.1) = some .right := by
  decide +kernel

end ThorFirewall.Thorql
