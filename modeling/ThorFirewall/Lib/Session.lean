import Mathlib

/-!
# The current window of a run

Elements come one after the other. One that `leaves` the window that another one began begins a new window, any
other joins it. A program that keeps a summary of the current window, and not its elements, restarts the summary with an
element that begins a window and updates it with one that joins: `entry_concat` says that it has the summary of the
current window after each element.
-/

namespace Session

variable {α σ : Type*} (leaves : α → α → Bool)

/-- The element does not join the window. -/
def begins (w : List α) (x : α) : Bool := w.head?.all (leaves · x)

/-- The window that an element is in. -/
def join (w : List α) (x : α) : List α := if begins leaves w x then [x] else w ++ [x]

/-- The window of the last element. -/
def current (xs : List α) : List α := xs.foldl (join leaves) []

/-- What a program keeps: nothing before the first element. -/
def entry (summary : List α → σ) (xs : List α) : Option σ := if xs = [] then none else some (summary (current leaves xs))

variable {leaves} {w xs : List α} {x : α}

@[simp] theorem begins_nil (x : α) : begins leaves [] x = true := rfl

@[simp] theorem begins_cons (first : α) (w : List α) (x : α) : begins leaves (first :: w) x = leaves first x := rfl

theorem current_concat (xs : List α) (x : α) : current leaves (xs ++ [x]) = join leaves (current leaves xs) x :=
  List.foldl_concat _ _ _ _

theorem join_ne_nil (w : List α) (x : α) : join leaves w x ≠ [] := by
  unfold join
  split_ifs <;> simp

theorem current_eq_nil_iff : current leaves xs = [] ↔ xs = [] := by
  induction xs using List.reverseRecOn with
  | nil => exact iff_of_true rfl rfl
  | append_singleton xs x ih =>
    rw [current_concat]
    exact iff_of_false (join_ne_nil _ _) (by simp)

/-- **Summaries.** A step that restarts or updates a summary with an element keeps the one of the current window. -/
theorem entry_concat {summary : List α → σ} {step : Option σ → α → σ} (hfirst : step none x = summary [x])
    (hbegin : ∀ first w, leaves first x = true → step (some (summary (first :: w))) x = summary [x])
    (hjoin : ∀ first w, leaves first x = false → step (some (summary (first :: w))) x = summary (first :: w ++ [x]))
    (xs : List α) : entry leaves summary (xs ++ [x]) = some (step (entry leaves summary xs) x) := by
  rw [entry, if_neg (by simp), current_concat, entry]
  congr 1
  by_cases hnil : xs = []
  · rw [if_pos hnil, hfirst, current_eq_nil_iff.2 hnil]
    rfl
  · obtain ⟨first, w, hw⟩ := List.exists_cons_of_ne_nil (mt current_eq_nil_iff.1 hnil : current leaves xs ≠ [])
    rw [if_neg hnil, hw, join, begins_cons]
    cases hleaves : leaves first x with
    | true => exact (hbegin first w hleaves).symm
    | false => exact (hjoin first w hleaves).symm

end Session
