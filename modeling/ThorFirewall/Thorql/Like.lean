import Mathlib.Data.List.Forall2
import ThorFirewall.Thorql.Executor

/-!
# LIKE (`forensics/thorql/executor.rs`)

The matcher takes the pattern character by character and tries every rest of the text behind a `%`. The lower-casing of a
character is a parameter (`lower`), and may be more than one character long.

- `likeInner_iff`, `likeMatch_iff`: the texts that match a pattern are those that can be cut into its pieces;
- `compareLike_iff`: LIKE and NOT LIKE on a cell.
-/

namespace ThorFirewall.Thorql

variable (lower : Char → List Char)

/-! ## The matcher -/

def likeInner : List Char → List Char → Bool
  | text, [] => text.isEmpty
  | text, c :: pat =>
    if c = '%' then (List.range (text.length + 1)).any fun i => likeInner (text.drop i) pat
    else match text with
      | [] => false
      | t :: text => (c = '_' || lower c == lower t) && likeInner text pat

def likeMatch (text pattern : List Char) : Bool := likeInner lower text pattern

/-- LIKE and NOT LIKE in `compare_values`. -/
def compareLike {F : Type*} (display : Json.Value F → List Char) (cell : Json.Value F) (negated : Bool) :
    Value F → Bool
  | .str pattern =>
    let matched := likeMatch lower (jsonAsStr display cell) pattern
    if negated then !matched else matched
  | _ => false

/-! ## What a pattern means -/

/-- The piece of a text that a character of a pattern takes. -/
def Takes (c : Char) (piece : List Char) : Prop :=
  if c = '%' then True else ∃ t, piece = [t] ∧ (c = '_' ∨ lower c = lower t)

/-- The text is cut into pieces, one for each character of the pattern. -/
def CutBy (text pattern : List Char) : Prop := ∃ pieces, pieces.flatten = text ∧ List.Forall₂ (Takes lower) pattern pieces

variable {lower} {text pat : List Char} {c : Char}

theorem cutBy_nil : CutBy lower text [] ↔ text = [] := by
  constructor
  · rintro ⟨pieces, rfl, hpieces⟩
    rw [List.forall₂_nil_left_iff.1 hpieces, List.flatten_nil]
  · rintro rfl
    exact ⟨[], rfl, .nil⟩

theorem cutBy_cons : CutBy lower text (c :: pat) ↔ ∃ piece rest, piece ++ rest = text ∧ Takes lower c piece ∧
    CutBy lower rest pat := by
  constructor
  · rintro ⟨pieces, rfl, hpieces⟩
    obtain ⟨piece, pieces, htakes, hrest, rfl⟩ := List.forall₂_cons_left_iff.1 hpieces
    exact ⟨piece, pieces.flatten, List.flatten_cons.symm, htakes, pieces, rfl, hrest⟩
  · rintro ⟨piece, _, rfl, htakes, pieces, rfl, hrest⟩
    exact ⟨piece :: pieces, List.flatten_cons, .cons htakes hrest⟩

/-- A percent sign takes any piece. -/
theorem cutBy_percent : CutBy lower text ('%' :: pat) ↔ ∃ i ≤ text.length, CutBy lower (text.drop i) pat := by
  rw [cutBy_cons]
  constructor
  · rintro ⟨piece, rest, rfl, -, hrest⟩
    refine ⟨piece.length, ?_, ?_⟩
    · rw [List.length_append]
      exact Nat.le_add_right _ _
    · rwa [List.drop_left]
  · rintro ⟨i, -, hrest⟩
    exact ⟨text.take i, text.drop i, List.take_append_drop i text, trivial, hrest⟩

/-- Any other character takes one character. -/
theorem cutBy_one (hc : c ≠ '%') : CutBy lower text (c :: pat) ↔ ∃ t rest, text = t :: rest ∧
    (c = '_' ∨ lower c = lower t) ∧ CutBy lower rest pat := by
  have htakes : ∀ piece, Takes lower c piece ↔ ∃ t, piece = [t] ∧ (c = '_' ∨ lower c = lower t) := by
    intro piece
    rw [Takes, if_neg hc]
  rw [cutBy_cons]
  constructor
  · rintro ⟨piece, rest, rfl, hpiece, hrest⟩
    obtain ⟨t, rfl, ht⟩ := (htakes piece).1 hpiece
    exact ⟨t, rest, rfl, ht, hrest⟩
  · rintro ⟨t, rest, rfl, ht, hrest⟩
    exact ⟨[t], rest, rfl, (htakes [t]).2 ⟨t, rfl, ht⟩, hrest⟩

/-! ## The matcher does what the pattern means -/

theorem likeInner_iff (text pat : List Char) : likeInner lower text pat = true ↔ CutBy lower text pat := by
  induction pat generalizing text with
  | nil => rw [likeInner, List.isEmpty_iff, cutBy_nil]
  | cons c pat ih =>
    unfold likeInner
    by_cases hc : c = '%'
    · subst hc
      rw [if_pos rfl, cutBy_percent, List.any_eq_true]
      refine exists_congr fun i => ?_
      rw [List.mem_range, Nat.lt_succ_iff, ih]
    · rw [if_neg hc, cutBy_one hc]
      cases text with
      | nil => exact iff_of_false Bool.false_ne_true nofun
      | cons t text =>
        show ((c = '_' || lower c == lower t) && likeInner lower text pat) = true ↔ _
        rw [Bool.and_eq_true, Bool.or_eq_true, decide_eq_true_eq, beq_iff_eq, ih]
        constructor
        · rintro ⟨ht, hrest⟩
          exact ⟨t, text, rfl, ht, hrest⟩
        · rintro ⟨_, _, heq, ht, hrest⟩
          cases heq
          exact ⟨ht, hrest⟩

/-- **LIKE has its declarative meaning**: a text matches exactly if it can be cut into the pieces of the pattern. -/
theorem likeMatch_iff (lower : Char → List Char) (text pattern : List Char) : likeMatch lower text pattern = true ↔
    ∃ pieces, pieces.flatten = text ∧ List.Forall₂
      (fun c piece => if c = '%' then True else ∃ t, piece = [t] ∧ (c = '_' ∨ lower c = lower t)) pattern pieces :=
  likeInner_iff text pattern

example : likeMatch (fun c => [c.toLower]) "Report_2024.PDF".toList "rep%20_4.p%".toList = true := by decide

theorem compareLike_iff {F : Type*} (display : Json.Value F → List Char) (cell : Json.Value F) (pattern : List Char) :
    (compareLike lower display cell false (.str pattern) = true ↔ CutBy lower (jsonAsStr display cell) pattern) ∧
    (compareLike lower display cell true (.str pattern) = true ↔ ¬ CutBy lower (jsonAsStr display cell) pattern) := by
  rw [← likeInner_iff]
  refine ⟨Iff.rfl, ?_⟩
  show (!likeInner lower (jsonAsStr display cell) pattern) = true ↔ _
  rw [Bool.not_eq_true', Bool.not_eq_true]

end ThorFirewall.Thorql
