import Mathlib.Data.Bool.Basic
import Mathlib.Data.List.Induction

/-!
# Chains of operators

A chain `a₁ op₁ a₂ op₂ … aₙ` of `and` and `or` without parentheses is read from the left or from the right. Two formulas
have the same value under each assignment when each way to satisfy one of them contains a way to satisfy the other
(`holds_eq_iff_covers`). If the first atom of a chain does not occur again, the two readings have the same value exactly
if all operators are the same (`leftNested_eq_rightNested_iff`).
-/

namespace OperatorChain

inductive Connective
  | and
  | or
  deriving DecidableEq, Repr

def Connective.apply : Connective → Bool → Bool → Bool
  | and => Bool.and
  | or => Bool.or

/-- A formula without negation. -/
inductive Formula (α : Type*)
  | atom (a : α)
  | join (op : Connective) (left right : Formula α)

namespace Formula

variable {α : Type*}

def holds (v : α → Bool) : Formula α → Bool
  | atom a => v a
  | join op left right => op.apply (left.holds v) (right.holds v)

/-- Every atom has a property. -/
def Over (p : α → Prop) : Formula α → Prop
  | atom a => p a
  | join _ left right => left.Over p ∧ right.Over p

/-- The sets of atoms that satisfy a formula: those of both parts together, or those of one of them. -/
def ways : Formula α → List (List α)
  | atom a => [[a]]
  | join .and left right => left.ways.flatMap fun w => right.ways.map (w ++ ·)
  | join .or left right => left.ways ++ right.ways

/-- Each way to satisfy the one contains a way to satisfy the other. -/
def Covers (f g : Formula α) : Prop := ∀ w ∈ f.ways, ∃ u ∈ g.ways, u ⊆ w

variable {v : α → Bool} {f g : Formula α}

/-- A formula holds when all atoms of one of its ways do. -/
theorem holds_iff : f.holds v = true ↔ ∃ w ∈ f.ways, ∀ a ∈ w, v a = true := by
  induction f with
  | atom a => simp [holds, ways]
  | join op left right ihl ihr =>
    cases op with
    | and =>
      show (left.holds v && right.holds v) = true ↔ _
      rw [Bool.and_eq_true, ihl, ihr]
      simp only [ways, List.mem_flatMap, List.mem_map]
      constructor
      · rintro ⟨⟨w, hw, hall⟩, u, hu, hallu⟩
        exact ⟨w ++ u, ⟨w, hw, u, hu, rfl⟩, List.forall_mem_append.2 ⟨hall, hallu⟩⟩
      · rintro ⟨_, ⟨w, hw, u, hu, rfl⟩, hall⟩
        obtain ⟨hallw, hallu⟩ := List.forall_mem_append.1 hall
        exact ⟨⟨w, hw, hallw⟩, u, hu, hallu⟩
    | or =>
      show (left.holds v || right.holds v) = true ↔ _
      rw [Bool.or_eq_true, ihl, ihr]
      simp only [ways, List.mem_append, or_and_right, exists_or]

theorem holds_imp_iff_covers : (∀ v, f.holds v = true → g.holds v = true) ↔ Covers f g := by
  classical
  constructor
  · intro h w hw
    -- The atoms of the way are true, and no others.
    have hf : f.holds (fun a => decide (a ∈ w)) = true := holds_iff.2 ⟨w, hw, fun a ha => decide_eq_true ha⟩
    obtain ⟨u, hu, hall⟩ := holds_iff.1 (h _ hf)
    exact ⟨u, hu, fun a ha => of_decide_eq_true (hall a ha)⟩
  · intro h v hf
    obtain ⟨w, hw, hall⟩ := holds_iff.1 hf
    obtain ⟨u, hu, hsub⟩ := h w hw
    exact holds_iff.2 ⟨u, hu, fun a ha => hall a (hsub ha)⟩

/-- **Two formulas have the same value under each assignment** when the ways of each cover those of the other. -/
theorem holds_eq_iff_covers : (∀ v, f.holds v = g.holds v) ↔ Covers f g ∧ Covers g f := by
  rw [← holds_imp_iff_covers, ← holds_imp_iff_covers, ← forall_and]
  apply forall_congr'
  intro v
  rw [Bool.eq_iff_iff]
  exact iff_def

end Formula

/-! ## The two readings of a chain -/

section Readings

open Formula

variable {α : Type*}

def leftNested (a : α) (links : List (Connective × α)) : Formula α :=
  links.foldl (fun f link => .join link.1 f (.atom link.2)) (.atom a)

def rightNested : α → List (Connective × α) → Formula α
  | a, [] => .atom a
  | a, (op, b) :: links => .join op (.atom a) (rightNested b links)

theorem leftNested_over {p : α → Prop} {a : α} {links : List (Connective × α)} (ha : p a)
    (h : ∀ link ∈ links, p link.2) : (leftNested a links).Over p := by
  induction links using List.reverseRecOn with
  | nil => exact ha
  | append_singleton links link ih =>
    obtain ⟨hinit, hlast⟩ := List.forall_mem_append.1 h
    rw [leftNested, List.foldl_append]
    exact ⟨ih hinit, hlast _ List.mem_cons_self⟩

theorem rightNested_over {p : α → Prop} {a : α} {links : List (Connective × α)} (ha : p a)
    (h : ∀ link ∈ links, p link.2) : (rightNested a links).Over p := by
  induction links generalizing a with
  | nil => exact ha
  | cons link links ih =>
    obtain ⟨hlink, hrest⟩ := List.forall_mem_cons.1 h
    exact ⟨ha, ih hlink hrest⟩

theorem holds_foldl (v : α → Bool) (f : Formula α) (links : List (Connective × α)) :
    (links.foldl (fun f link => .join link.1 f (.atom link.2)) f).holds v =
      links.foldl (fun b link => link.1.apply b (v link.2)) (f.holds v) := by
  induction links generalizing f with
  | nil => rfl
  | cons link links ih => exact ih _

theorem holds_leftNested (v : α → Bool) (a : α) (links : List (Connective × α)) :
    (leftNested a links).holds v = links.foldl (fun b link => link.1.apply b (v link.2)) (v a) := holds_foldl v _ links

theorem apply_assoc (op : Connective) (a b c : Bool) : op.apply (op.apply a b) c = op.apply a (op.apply b c) := by
  cases op with
  | and => exact Bool.and_assoc a b c
  | or => exact Bool.or_assoc a b c

variable {op : Connective} {links : List (Connective × α)}

/-- With one operator only, the first value stands in front of the rest. -/
theorem foldl_apply (h : ∀ link ∈ links, link.1 = op) (v : α → Bool) (b c : Bool) :
    links.foldl (fun b link => link.1.apply b (v link.2)) (op.apply b c) =
      op.apply b (links.foldl (fun b link => link.1.apply b (v link.2)) c) := by
  induction links generalizing c with
  | nil => rfl
  | cons link links ih =>
    rw [List.foldl_cons, List.foldl_cons, h link List.mem_cons_self, apply_assoc]
    exact ih (fun l hl => h l (List.mem_cons_of_mem _ hl)) _

theorem leftNested_eq_rightNested (h : ∀ link ∈ links, link.1 = op) (a : α) (v : α → Bool) :
    (leftNested a links).holds v = (rightNested a links).holds v := by
  induction links generalizing a with
  | nil => rfl
  | cons link links ih =>
    have hlinks : ∀ l ∈ links, l.1 = op := fun l hl => h l (List.mem_cons_of_mem _ hl)
    rw [rightNested, holds, ← ih hlinks, holds_leftNested, holds_leftNested, List.foldl_cons,
      h link List.mem_cons_self]
    exact foldl_apply hlinks v _ _

/-- A value that one of the operators forces is kept by atoms of this value. -/
theorem foldl_forced {v : α → Bool} {c : Bool} (hv : ∀ link ∈ links, v link.2 = c)
    (h : ∃ link ∈ links, ∀ b, link.1.apply b c = c) (b : Bool) :
    links.foldl (fun b link => link.1.apply b (v link.2)) b = c := by
  have hkeep : ∀ op : Connective, op.apply c c = c := fun op => by cases op <;> cases c <;> rfl
  induction links using List.reverseRecOn with
  | nil => obtain ⟨_, hmem, _⟩ := h; cases hmem
  | append_singleton links link ih =>
    rw [List.foldl_append, List.foldl_cons, List.foldl_nil, hv link (List.mem_append_right links List.mem_cons_self)]
    obtain ⟨forcing, hmem, hforces⟩ := h
    rcases List.mem_append.1 hmem with hmem | hmem
    · rw [ih (fun l hl => hv l (List.mem_append_left _ hl)) ⟨forcing, hmem, hforces⟩]
      exact hkeep _
    · rw [← List.mem_singleton.1 hmem]
      exact hforces _

/-- The value that an operator does not need its other side for. -/
def Connective.decides : Connective → Bool
  | and => false
  | or => true

theorem decides_apply (op : Connective) (b : Bool) : op.apply op.decides b = op.decides := by
  cases op <;> rfl

theorem apply_not_decides {op op' : Connective} (h : op' ≠ op) (b : Bool) :
    op'.apply b (!op.decides) = !op.decides := by
  cases op <;> cases op' <;> cases b <;> first | rfl | exact absurd rfl h

/-- **The readings of a chain agree** exactly if all operators are the same, when the first atom does not occur again. -/
theorem leftNested_eq_rightNested_iff {a : α} (ha : a ∉ links.map Prod.snd) :
    (∀ v, (leftNested a links).holds v = (rightNested a links).holds v) ↔ ∃ op, ∀ link ∈ links, link.1 = op := by
  classical
  constructor
  · intro h
    cases links with
    | nil => exact ⟨.and, nofun⟩
    | cons link links =>
      refine ⟨link.1, fun other hmem => ?_⟩
      by_contra hne
      -- The first atom decides the reading from the right, the other operator that from the left.
      let v : α → Bool := fun b => if b = a then link.1.decides else !link.1.decides
      have hfirst : v a = link.1.decides := if_pos rfl
      have hothers : ∀ l ∈ link :: links, v l.2 = !link.1.decides :=
        fun l hl => if_neg fun heq : l.2 = a => ha (heq ▸ List.mem_map_of_mem hl)
      have hleft := foldl_forced hothers ⟨other, hmem, apply_not_decides hne⟩ (v a)
      have hagree := h v
      rw [holds_leftNested, hleft, rightNested, holds, holds, hfirst, decides_apply] at hagree
      exact absurd hagree (Bool.not_ne_self _)
  · rintro ⟨op, h⟩ v
    exact leftNested_eq_rightNested h a v

end Readings

end OperatorChain
