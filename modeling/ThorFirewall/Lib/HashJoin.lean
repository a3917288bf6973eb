import Mathlib.Data.List.Induction
import Mathlib.Data.List.Perm.Basic
import Std.Data.ExtTreeMap

/-!
# Hash joins

A hash join builds a table of the left rows by key and probes it with each right row. It is the nested loop over the
pairs of rows whose keys agree (`hashJoin_perm`).
-/

namespace HashJoin

variable {α β γ κ : Type*} [Ord κ] [Std.TransOrd κ] [Std.LawfulEqOrd κ] [DecidableEq κ]

/-- The rows of each key, in their order. -/
def build (key : α → κ) (rows : List α) : Std.ExtTreeMap κ (List α) :=
  rows.foldl (fun table a => table.alter (key a) fun o => some (o.getD [] ++ [a])) ∅

def hashJoin (kl : α → κ) (kr : β → κ) (merge : α → β → γ) (left : List α) (right : List β) : List γ :=
  let table := build kl left
  right.flatMap fun b => (table[kr b]?.getD []).map fun a => merge a b

/-- The pairs of rows that match. -/
def nestedLoop (p : α → β → Bool) (merge : α → β → γ) (left : List α) (right : List β) : List γ :=
  left.flatMap fun a => (right.filter (p a)).map (merge a)

theorem getD_build (key : α → κ) (rows : List α) (k : κ) :
    (build key rows)[k]?.getD [] = rows.filter fun a => key a = k := by
  induction rows using List.reverseRecOn with
  | nil => simp [build]
  | append_singleton rows a ih =>
    rw [build, List.foldl_concat, ← build, Std.ExtTreeMap.getElem?_alter, List.filter_append, ← ih]
    by_cases h : key a = k
    · rw [if_pos (Std.compare_eq_iff_eq.2 h), h]
      simp [h]
    · rw [if_neg (fun heq => h (Std.compare_eq_iff_eq.1 heq))]
      simp [h]

theorem mem_nestedLoop {p : α → β → Bool} {merge : α → β → γ} {left : List α} {right : List β} {c : γ} :
    c ∈ nestedLoop p merge left right ↔ ∃ a ∈ left, ∃ b ∈ right, p a b = true ∧ merge a b = c := by
  simp only [nestedLoop, List.mem_flatMap, List.mem_map, List.mem_filter, and_assoc]

theorem nestedLoop_congr {p q : α → β → Bool} {merge : α → β → γ} {left : List α} {right : List β}
    (h : ∀ a ∈ left, ∀ b ∈ right, p a b = q a b) : nestedLoop p merge left right = nestedLoop q merge left right :=
  List.flatMap_congr fun a ha => congrArg (List.map (merge a)) (List.filter_congr fun b hb => h a ha b hb)

/-- **A hash join is a nested loop.** -/
theorem hashJoin_perm (kl : α → κ) (kr : β → κ) (merge : α → β → γ) (left : List α) (right : List β) :
    (hashJoin kl kr merge left right).Perm (nestedLoop (fun a b => kl a = kr b) merge left right) := by
  simp only [hashJoin, getD_build]
  induction left with
  | nil => simp [nestedLoop]
  | cons a left ih =>
    have hrow : ∀ b, ((a :: left).filter fun x => kl x = kr b).map (merge · b) =
        (if kl a = kr b then [merge a b] else []) ++ (left.filter fun x => kl x = kr b).map (merge · b) := by
      intro b
      by_cases h : kl a = kr b <;> simp [h]
    have hfirst : ∀ right : List β, (right.flatMap fun b => if kl a = kr b then [merge a b] else []) =
        (right.filter fun b => kl a = kr b).map (merge a) := by
      intro right
      induction right with
      | nil => rfl
      | cons b right ihr =>
        rw [List.flatMap_cons, ihr]
        by_cases h : kl a = kr b <;> simp [h]
    simp only [hrow]
    refine (List.flatMap_append_perm _ _ _).symm.trans ?_
    rw [hfirst]
    exact ih.append_left _

end HashJoin
