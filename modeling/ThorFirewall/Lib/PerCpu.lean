import Mathlib.Logic.Function.Basic

/-!
# Maps with a value for each processor

A processor looks up and writes its own value of a key. Where it writes the first one, the key gets the zero value on
all other processors.

- `lookup_update_self`, `lookup_update_cpu`, `lookup_update_key`: what is found after a write.
-/

abbrev PerCpu (κ σ : Type*) := κ → Option (UInt32 → σ)

namespace PerCpu

variable {κ σ : Type*}

def empty : PerCpu κ σ := fun _ => none

def lookup (m : PerCpu κ σ) (cpu : UInt32) (key : κ) : Option σ := (m key).map (· cpu)

variable [DecidableEq κ]

def update (m : PerCpu κ σ) (zero : σ) (cpu : UInt32) (key : κ) (value : σ) : PerCpu κ σ :=
  Function.update m key (some (Function.update ((m key).getD fun _ => zero) cpu value))

/-- The values of a key on all processors, or none. -/
def set (m : PerCpu κ σ) (key : κ) (values : Option (UInt32 → σ)) : PerCpu κ σ := Function.update m key values

variable (m : PerCpu κ σ) (zero value : σ) {cpu cpu' : UInt32} {key key' : κ} (values : Option (UInt32 → σ))

theorem lookup_update_self : (m.update zero cpu key value).lookup cpu key = some value := by
  rw [lookup, update, Function.update_self, Option.map_some, Function.update_self]

/-- The other processors keep their values of the key. -/
theorem lookup_update_cpu (h : cpu' ≠ cpu) :
    (m.update zero cpu key value).lookup cpu' key = some ((m.lookup cpu' key).getD zero) := by
  rw [lookup, update, Function.update_self, Option.map_some, Function.update_of_ne h, lookup]
  cases m key <;> rfl

theorem lookup_update_key (h : key' ≠ key) :
    (m.update zero cpu key value).lookup cpu' key' = m.lookup cpu' key' := by
  rw [lookup, update, Function.update_of_ne h, lookup]

theorem lookup_set_self : (m.set key values).lookup cpu key = values.map (· cpu) := by
  rw [lookup, set, Function.update_self]

theorem lookup_set_key (h : key' ≠ key) : (m.set key values).lookup cpu key' = m.lookup cpu key' := by
  rw [lookup, set, Function.update_of_ne h, lookup]

end PerCpu
