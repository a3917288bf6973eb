import Mathlib.Data.List.Basic

/-!
# JSON values

Values with lookups that do not fail: an index into something that is not an object, or under a key that is not there,
is `null`, and the conversions of a value of another kind are `none`. Numbers are integers of 64 bits or floating-point
numbers of some type `F`.
-/

namespace Json

variable {F : Type*}

inductive Number (F : Type*)
  | posInt (n : UInt64)
  | negInt (n : Int64)
  | float (x : F)

inductive Value (F : Type*)
  | null
  | bool (b : Bool)
  | number (n : Number F)
  | string (s : String)
  | array (vs : List (Value F))
  | object (kvs : List (String × Value F))

/-- `v[k]`. -/
def Value.index : Value F → String → Value F
  | .object kvs, k => (kvs.lookup k).getD .null
  | _, _ => .null

def Value.asStr : Value F → Option String
  | .string s => some s
  | _ => none

def Value.asU64 : Value F → Option UInt64
  | .number (.posInt n) => some n
  | _ => none

/-- `ofU64` and `ofI64` are the conversions of integers. -/
def Value.asF64 (ofU64 : UInt64 → F) (ofI64 : Int64 → F) : Value F → Option F
  | .number (.posInt n) => some (ofU64 n)
  | .number (.negInt n) => some (ofI64 n)
  | .number (.float x) => some x
  | _ => none

/-- An optional value: `none` is `null`. -/
def ofOption {α : Type*} (f : α → Value F) : Option α → Value F
  | none => .null
  | some a => f a

@[simp] theorem index_array (vs : List (Value F)) (k : String) : (Value.array vs).index k = .null := rfl

@[simp] theorem index_object_cons (k k' : String) (v : Value F) (kvs : List (String × Value F)) :
    (Value.object ((k', v) :: kvs)).index k = if k = k' then v else (Value.object kvs).index k := by
  rw [Value.index, List.lookup_cons]
  by_cases h : k = k'
  · simp [h]
  · rw [beq_false_of_ne h, if_neg h]
    rfl

@[simp] theorem asStr_string (s : String) : (Value.string s : Value F).asStr = some s := rfl

@[simp] theorem asStr_null : (Value.null : Value F).asStr = none := rfl

end Json
