import Mathlib.Data.List.Basic

/-!
# Slices of a list

`slice l a b` is the part of `l` from position `a` up to, not including, position `b`.
-/

namespace List

variable {α : Type*}

/-- The elements at the positions `a ≤ i < b`. -/
def slice (l : List α) (a b : ℕ) : List α := (l.drop a).take (b - a)

@[simp] theorem slice_self (l : List α) (a : ℕ) : l.slice a a = [] := by simp [slice]

theorem length_slice {l : List α} {a b : ℕ} (h : b ≤ l.length) : (l.slice a b).length = b - a := by
  rw [slice, length_take, length_drop]
  omega

/-- Neighbouring slices join. -/
theorem slice_append_slice (l : List α) {a b c : ℕ} (hab : a ≤ b) (hbc : b ≤ c) :
    l.slice a b ++ l.slice b c = l.slice a c := by
  have hc : c - a = (b - a) + (c - b) := by omega
  have hb : l.drop b = (l.drop a).drop (b - a) := by rw [drop_drop]; congr 1; omega
  rw [slice, slice, slice, hc, take_add, hb]

theorem slice_zero_length (l : List α) : l.slice 0 l.length = l := by simp [slice]

/-- A slice is a prefix of the longer slices from the same position. -/
theorem slice_prefix_slice (l : List α) {a b c : ℕ} (hab : a ≤ b) (hbc : b ≤ c) : l.slice a b <+: l.slice a c := by
  rw [← slice_append_slice l hab hbc]
  exact prefix_append _ _

/-- A prefix of a slice is a slice. -/
theorem eq_slice_of_append_eq {l x y : List α} {a b : ℕ} (hb : b ≤ l.length) (h : x ++ y = l.slice a b) :
    x = l.slice a (a + x.length) := by
  have hlen := congrArg length h
  rw [length_append, length_slice hb] at hlen
  have hx : x = (l.slice a b).take x.length := by rw [← h, take_left]
  rw [hx, slice, slice, take_take, length_take, length_drop]
  congr 1
  omega

end List
