import Mathlib.Data.List.Infix
import Mathlib.Data.List.ReduceOption

/-!
# Runs of a machine with outputs

A machine is a step function `σ → ι → σ × ο`. `after step s is` is the state after the inputs `is`, `outputs step s is`
the list of their outputs. These rules carry every proof about runs:

* `history_inv`: a property of (inputs so far, outputs so far, state) that one step keeps holds after every run;
* `kept_after`, `log_after`: what no input of a run changes, and what every input adds to;
* `outputs_eq_of_sim`: runs from two states that every step keeps alike have the same outputs;
* `outputs_project`, `events_project`: the answers to the inputs of a smaller machine inside are those that it gives on
  its own, and so are its events among all;
* `forall_prefix_iff`: when, from a good history, the next history is good exactly if its last step is all right, then
  every prefix of a run is good exactly if every step of it is all right.
-/

namespace Mealy

variable {σ ι ο : Type*}

/-- The state after a list of inputs. -/
def after (step : σ → ι → σ × ο) : σ → List ι → σ
  | s, [] => s
  | s, i :: is => after step (step s i).1 is

/-- The outputs of a list of inputs, in order. -/
def outputs (step : σ → ι → σ × ο) : σ → List ι → List ο
  | _, [] => []
  | s, i :: is => (step s i).2 :: outputs step (step s i).1 is

variable (step : σ → ι → σ × ο)

theorem after_append : ∀ (s : σ) (is js : List ι), after step s (is ++ js) = after step (after step s is) js
  | _, [], _ => rfl
  | s, i :: is, js => after_append (step s i).1 is js

theorem outputs_append : ∀ (s : σ) (is js : List ι),
    outputs step s (is ++ js) = outputs step s is ++ outputs step (after step s is) js
  | _, [], _ => rfl
  | s, i :: is, js => by
    simp only [List.cons_append, outputs, after]
    rw [outputs_append (step s i).1 is js]

@[simp] theorem after_concat (s : σ) (is : List ι) (i : ι) :
    after step s (is ++ [i]) = (step (after step s is) i).1 := by
  rw [after_append]; rfl

@[simp] theorem outputs_concat (s : σ) (is : List ι) (i : ι) :
    outputs step s (is ++ [i]) = outputs step s is ++ [(step (after step s is) i).2] := by
  rw [outputs_append]; rfl

@[simp] theorem length_outputs (s : σ) (is : List ι) : (outputs step s is).length = is.length := by
  induction is generalizing s with
  | nil => rfl
  | cons i is ih => simp only [outputs, List.length_cons, ih]

/-- One output of a run. -/
theorem getElem?_outputs (s : σ) (is : List ι) (n : ℕ) :
    (outputs step s is)[n]? = is[n]?.map fun i => (step (after step s (is.take n)) i).2 := by
  induction is generalizing s n with
  | nil => rfl
  | cons i is ih =>
    cases n with
    | zero => rfl
    | succ n => exact ih (step s i).1 n

/-- What no input of a run changes is the same in the end. -/
theorem kept_after {α : Type*} (g : σ → α) {is : List ι} (h : ∀ s, ∀ i ∈ is, g (step s i).1 = g s) (s : σ) :
    g (after step s is) = g s := by
  induction is generalizing s with
  | nil => rfl
  | cons i is ih => exact (ih (fun s j hj => h s j (List.mem_cons_of_mem _ hj)) _).trans (h s i List.mem_cons_self)

/-- A log that every input adds to has in the end what all of them add. -/
theorem log_after {α : Type*} (log : σ → List α) {adds : ι → List α} (h : ∀ s i, log (step s i).1 = log s ++ adds i)
    (s : σ) (is : List ι) : log (after step s is) = log s ++ is.flatMap adds := by
  induction is generalizing s with
  | nil => exact (List.append_nil _).symm
  | cons i is ih => rw [after, ih, h, List.append_assoc, List.flatMap_cons]

variable {step}

/-- **Invariant rule.** What holds of the empty history and is kept by one step holds of every history. -/
theorem history_inv {P : List ι → List ο → σ → Prop} {s : σ} (h0 : P [] [] s)
    (hstep : ∀ is os s i, P is os s → P (is ++ [i]) (os ++ [(step s i).2]) (step s i).1) (is : List ι) :
    P is (outputs step s is) (after step s is) := by
  induction is using List.reverseRecOn with
  | nil => exact h0
  | append_singleton is i ih =>
    rw [after_concat, outputs_concat]
    exact hstep is _ _ i ih

/-- Invariants that look at the state only. -/
theorem after_inv {P : σ → Prop} {s : σ} (h0 : P s) (hstep : ∀ s i, P s → P (step s i).1) (is : List ι) :
    P (after step s is) :=
  history_inv (P := fun _ _ s => P s) h0 (fun _ _ s i h => hstep s i h) is

/-- **Two runs.** States that a relation keeps alike, step by step, give the same outputs. -/
theorem outputs_eq_of_sim {R : σ → σ → Prop} (is : List ι) {s s' : σ} (h : R s s')
    (hstep : ∀ s s', ∀ i ∈ is, R s s' → (step s i).2 = (step s' i).2 ∧ R (step s i).1 (step s' i).1) :
    outputs step s is = outputs step s' is := by
  induction is generalizing s s' with
  | nil => rfl
  | cons i is ih =>
    obtain ⟨hout, hnext⟩ := hstep s s' i (by simp) h
    simp only [outputs]
    rw [hout, ih hnext fun s s' j hj => hstep s s' j (by simp [hj])]

/-- **One machine inside another.** Where some inputs are those of a smaller machine, which sees a part of the state that
the others leave alone, the smaller machine gives the answers to them. -/
theorem outputs_project {τ κ π : Type*} {step : σ → ι → σ × ο} {part : τ → κ → τ × π} (view : σ → τ)
    (input : ι → Option κ) (output : ο → π)
    (hpart : ∀ s i j, input i = some j → (view (step s i).1, output (step s i).2) = part (view s) j)
    (hother : ∀ s i, input i = none → view (step s i).1 = view s) (s : σ) (is : List ι) :
    (is.zip (outputs step s is)).filterMap (fun p => (input p.1).map fun _ => output p.2) =
      outputs part (view s) (is.filterMap input) := by
  induction is generalizing s with
  | nil => rfl
  | cons i is ih =>
    rw [outputs, List.zip_cons_cons, List.filterMap_cons, List.filterMap_cons]
    cases hi : input i with
    | none =>
      rw [← hother s i hi]
      exact ih _
    | some j =>
      simp only [Option.map_some, outputs]
      rw [ih, ← hpart s i j hi]

/-- **The events of a part.** Where only the steps that concern a part of the state have events of it, its events in a run
are those of the part on its own. -/
theorem events_project {τ ε : Type*} (step : σ → ι → σ × Option ε) (part : τ → ι → τ × Option ε) (view : σ → τ)
    (concerns : ι → Bool) (own : ε → Bool)
    (hpart : ∀ s i, concerns i = true → (view (step s i).1, (step s i).2) = part (view s) i)
    (hother : ∀ s i, concerns i = false → view (step s i).1 = view s)
    (hown : ∀ s i, ∀ ev ∈ (step s i).2, own ev = concerns i) (s : σ) (is : List ι) :
    (outputs step s is).reduceOption.filter own = (outputs part (view s) (is.filter concerns)).reduceOption := by
  induction is generalizing s with
  | nil => rfl
  | cons i is ih =>
    rw [outputs, ← List.singleton_append, List.reduceOption_append, List.filter_append, ih, List.filter_cons]
    have hevent : [(step s i).2].reduceOption.filter own = if concerns i then (step s i).2.toList else [] := by
      cases hev : (step s i).2 with
      | none => exact (ite_self _).symm
      | some ev =>
        rw [List.reduceOption_cons_of_some, List.reduceOption_nil, List.filter_singleton, hown s i ev hev,
          ← Bool.cond_eq_ite]
        rfl
    rw [hevent]
    cases hi : concerns i with
    | true =>
      rw [if_pos rfl, if_pos rfl, outputs, ← hpart s i hi]
      cases (step s i).2 <;> rfl
    | false =>
      rw [hother s i hi]
      rfl

end Mealy

/-- **Every prefix is good iff every step is all right**, when goodness can only be lost at a step that is not. -/
theorem List.forall_prefix_iff {ι : Type*} {Good : List ι → Prop} {Ok : List ι → ι → Prop} (h0 : Good [])
    (hstep : ∀ is i, Good is → (Good (is ++ [i]) ↔ Ok is i)) (is : List ι) :
    (∀ p, p <+: is → Good p) ↔ ∀ p i, p ++ [i] <+: is → Ok p i := by
  constructor
  · intro h p i hp
    exact (hstep p i (h p ((List.prefix_append p [i]).trans hp))).1 (h _ hp)
  · intro h p hp
    induction p using List.reverseRecOn with
    | nil => exact h0
    | append_singleton p i ih =>
      exact (hstep p i (ih ((List.prefix_append p [i]).trans hp))).2 (h p i hp)
