import Mathlib.Data.List.Infix
import Mathlib.Logic.Function.Basic

/-!
# Interleavings of concurrent calls

Any number of calls, each at a program counter of its own, over one shared state. `next i k s` is what call `i` does at
`k` in `s`, or `none` if it cannot move. A schedule is a list of the calls that move, one atomic step each; `exec` runs
it. Two rules carry the proofs over all schedules:

* `exec_inv`: what every step keeps holds after every schedule (`exec_inv_of`: what the steps keep that meet a condition
  on the configuration before them);
* `pc_stable`: what no step of a call gives up about its own program counter it keeps.
-/

namespace Interleaving

/-- The shared state, and where each call stands. -/
structure Config (ι σ κ : Type*) where
  shared : σ
  pc : ι → κ

variable {ι σ κ : Type*} [DecidableEq ι]

/-- Call `i` moves to a new program counter and a new shared state. -/
def Config.set (c : Config ι σ κ) (i : ι) (r : κ × σ) : Config ι σ κ := ⟨r.2, Function.update c.pc i r.1⟩

@[simp] theorem Config.set_shared (c : Config ι σ κ) (i : ι) (r : κ × σ) : (c.set i r).shared = r.2 := rfl

@[simp] theorem Config.set_pc_self (c : Config ι σ κ) (i : ι) (r : κ × σ) : (c.set i r).pc i = r.1 := by
  simp [Config.set]

theorem Config.set_pc_ne (c : Config ι σ κ) {i j : ι} (r : κ × σ) (h : j ≠ i) : (c.set i r).pc j = c.pc j := by
  simp [Config.set, h]

/-- Where a call stands after a step of call `i`. -/
theorem Config.set_pc (c : Config ι σ κ) (i j : ι) (r : κ × σ) :
    (c.set i r).pc j = if j = i then r.1 else c.pc j := by
  split_ifs with h
  · rw [h, Config.set_pc_self]
  · exact c.set_pc_ne r h

@[simp] theorem Config.set_set (c : Config ι σ κ) (i : ι) (r r' : κ × σ) : (c.set i r).set i r' = c.set i r' := by
  simp [Config.set]

variable (next : ι → κ → σ → Option (κ × σ))

def step (c : Config ι σ κ) (i : ι) : Config ι σ κ :=
  match next i (c.pc i) c.shared with
  | some r => c.set i r
  | none => c

def exec (c : Config ι σ κ) (schedule : List ι) : Config ι σ κ := schedule.foldl (step next) c

@[simp] theorem exec_nil (c : Config ι σ κ) : exec next c [] = c := rfl

@[simp] theorem exec_concat (c : Config ι σ κ) (is : List ι) (i : ι) :
    exec next c (is ++ [i]) = step next (exec next c is) i := by
  simp [exec]

theorem exec_append (c : Config ι σ κ) (is js : List ι) :
    exec next c (is ++ js) = exec next (exec next c is) js :=
  List.foldl_append ..

variable {next} {c : Config ι σ κ} {i : ι}

theorem step_of_some {r : κ × σ} (h : next i (c.pc i) c.shared = some r) : step next c i = c.set i r := by
  simp [step, h]

theorem step_of_none (h : next i (c.pc i) c.shared = none) : step next c i = c := by
  simp [step, h]

/-- **Invariant rule** for the schedules whose steps all meet a condition on the configuration before them. -/
theorem exec_inv_of {P : Config ι σ κ → Prop} {G : Config ι σ κ → ι → Prop} (h0 : P c)
    (hstep : ∀ c i r, P c → G c i → next i (c.pc i) c.shared = some r → P (c.set i r)) {schedule : List ι}
    (hG : ∀ pre i, pre ++ [i] <+: schedule → G (exec next c pre) i) : P (exec next c schedule) := by
  induction schedule using List.reverseRecOn with
  | nil => exact h0
  | append_singleton is i ih =>
    have hpre := ih fun pre j hp => hG pre j (hp.trans (List.prefix_append _ _))
    rw [exec_concat]
    cases hn : next i ((exec next c is).pc i) (exec next c is).shared with
    | none => rwa [step_of_none hn]
    | some r =>
      rw [step_of_some hn]
      exact hstep _ i r hpre (hG is i List.prefix_rfl) hn

/-- **Invariant rule** for all schedules. -/
theorem exec_inv {P : Config ι σ κ → Prop} (h0 : P c)
    (hstep : ∀ c i r, P c → next i (c.pc i) c.shared = some r → P (c.set i r)) (schedule : List ι) :
    P (exec next c schedule) :=
  exec_inv_of (G := fun _ _ => True) h0 (fun c i r h _ => hstep c i r h) fun _ _ _ => trivial

/-- What the steps of a call do not give up about its own program counter it keeps. -/
theorem pc_stable {Q : κ → Prop} (hstep : ∀ k s r, Q k → next i k s = some r → Q r.1) (h : Q (c.pc i))
    (schedule : List ι) : Q ((exec next c schedule).pc i) := by
  refine exec_inv (P := fun c => Q (c.pc i)) h (fun c j r hc hn => ?_) schedule
  rw [Config.set_pc]
  split_ifs with hij
  · subst hij
    exact hstep _ _ r hc hn
  · exact hc

end Interleaving
