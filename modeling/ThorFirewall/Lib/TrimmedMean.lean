import Mathlib.Algebra.Order.Field.Basic
import Mathlib.Algebra.Order.BigOperators.Group.List
import Mathlib.Data.List.Sort
import Mathlib.Tactic.Linarith
import Mathlib.Tactic.Positivity
import Mathlib.Tactic.FieldSimp

/-!
# Trimmed means and outliers

`trim k l` is a list without its first and its last `k` entries. If at most `k` entries of a sorted list are above a
bound, none of the trimmed ones is (`le_of_mem_trim`), so the mean of what is left is not above it either; likewise
below. `countP_mul_lt_sum` bounds how many of some non-negative numbers can exceed a threshold by their sum.
-/

namespace TrimmedMean

variable {K : Type*}

/-- The list without its first and its last `k` entries. -/
def trim (k : ℕ) (l : List K) : List K := (l.take (l.length - k)).drop k

@[simp] theorem length_trim (k : ℕ) (l : List K) : (trim k l).length = l.length - k - k := by
  simp [trim]

section Order

variable [LinearOrder K] {l : List K} {k : ℕ} {m : K}

/-- At most `k` entries of a sorted list are above `m`: then the entries before the last `k` are not. -/
theorem le_of_mem_trim (hs : l.Pairwise (· ≤ ·)) (hc : l.countP (m < ·) ≤ k) {x : K} (hx : x ∈ trim k l) : x ≤ m := by
  have hx : x ∈ l.take (l.length - k) := List.mem_of_mem_drop hx
  by_contra hlt
  rw [not_le] at hlt
  rw [← List.take_append_drop (l.length - k) l, List.pairwise_append] at hs
  -- everything behind `x` is above `m` too
  have hall : ∀ y ∈ l.drop (l.length - k), m < y := fun y hy => hlt.trans_le (hs.2.2 x hx y hy)
  have hdrop : (l.drop (l.length - k)).countP (m < ·) = (l.drop (l.length - k)).length :=
    List.countP_eq_length.2 fun y hy => by simpa using hall y hy
  have htake : 0 < (l.take (l.length - k)).countP (m < ·) :=
    List.countP_pos_iff.2 ⟨x, hx, by simpa using hlt⟩
  have hsplit : l.countP (m < ·) =
      (l.take (l.length - k)).countP (m < ·) + (l.drop (l.length - k)).countP (m < ·) := by
    rw [← List.countP_append, List.take_append_drop]
  have hpos : 0 < (l.take (l.length - k)).length := List.length_pos_of_mem hx
  simp only [List.length_drop, List.length_take] at hdrop hpos
  omega

/-- At most `k` entries of a sorted list are below `m`: then the entries behind the first `k` are not. -/
theorem ge_of_mem_trim (hs : l.Pairwise (· ≤ ·)) (hc : l.countP (· < m) ≤ k) {x : K} (hx : x ∈ trim k l) : m ≤ x := by
  have hx : x ∈ l.drop k := by
    have hsub : (l.take (l.length - k)).drop k = (l.drop k).take (l.length - k - k) := List.drop_take
    rw [trim, hsub] at hx
    exact List.mem_of_mem_take hx
  by_contra hlt
  rw [not_le] at hlt
  rw [← List.take_append_drop k l, List.pairwise_append] at hs
  have hall : ∀ y ∈ l.take k, y < m := fun y hy => (hs.2.2 y hy x hx).trans_lt hlt
  have htake : (l.take k).countP (· < m) = (l.take k).length :=
    List.countP_eq_length.2 fun y hy => by simpa using hall y hy
  have hdrop : 0 < (l.drop k).countP (· < m) := List.countP_pos_iff.2 ⟨x, hx, by simpa using hlt⟩
  have hsplit : l.countP (· < m) = (l.take k).countP (· < m) + (l.drop k).countP (· < m) := by
    rw [← List.countP_append, List.take_append_drop]
  have hpos : 0 < (l.drop k).length := List.length_pos_of_mem hx
  simp only [List.length_drop, List.length_take] at htake hpos
  omega

/-- A list in order is its own sorted version, from whatever order it was. -/
theorem insertionSort_eq {l l' : List K} (hp : l.Perm l') (hs : l'.Pairwise (· ≤ ·)) :
    l.insertionSort (· ≤ ·) = l' :=
  ((List.perm_insertionSort _ l).trans hp).eq_of_pairwise' (List.pairwise_insertionSort _ l) hs

/-- The members of a list that is not empty are between two of them. -/
theorem exists_bounds {α : Type*} {l : List α} (hl : l ≠ []) (f : α → K) :
    ∃ a ∈ l, ∃ b ∈ l, ∀ x ∈ l, f a ≤ f x ∧ f x ≤ f b := by
  induction l with
  | nil => exact absurd rfl hl
  | cons c l ih =>
    by_cases hnil : l = []
    · subst hnil
      exact ⟨c, by simp, c, by simp, by simp⟩
    · obtain ⟨a, ha, b, hb, hall⟩ := ih hnil
      have hlow : ∃ a' ∈ c :: l, f a' ≤ f c ∧ f a' ≤ f a := by
        rcases le_total (f c) (f a) with h | h
        · exact ⟨c, by simp, le_rfl, h⟩
        · exact ⟨a, by simp [ha], h, le_rfl⟩
      have hhigh : ∃ b' ∈ c :: l, f c ≤ f b' ∧ f b ≤ f b' := by
        rcases le_total (f c) (f b) with h | h
        · exact ⟨b, by simp [hb], h, le_rfl⟩
        · exact ⟨c, by simp, le_rfl, h⟩
      obtain ⟨a', ha', hac, haa⟩ := hlow
      obtain ⟨b', hb', hcb, hbb⟩ := hhigh
      refine ⟨a', ha', b', hb', fun x hx => ?_⟩
      rcases List.mem_cons.1 hx with rfl | hx
      · exact ⟨hac, hcb⟩
      · exact ⟨haa.trans (hall x hx).1, (hall x hx).2.trans hbb⟩

end Order

section Field

variable [Field K] [LinearOrder K] [IsStrictOrderedRing K] {l : List K} {m t : K}

theorem mean_le (hl : l ≠ []) (h : ∀ x ∈ l, x ≤ m) : l.sum / l.length ≤ m := by
  have hpos : (0 : K) < l.length := by exact_mod_cast List.length_pos_iff.2 hl
  rw [div_le_iff₀ hpos, mul_comm, ← nsmul_eq_mul]
  exact List.sum_le_card_nsmul l m h

theorem le_mean (hl : l ≠ []) (h : ∀ x ∈ l, m ≤ x) : m ≤ l.sum / l.length := by
  have hpos : (0 : K) < l.length := by exact_mod_cast List.length_pos_iff.2 hl
  rw [le_div_iff₀ hpos, mul_comm, ← nsmul_eq_mul]
  exact List.card_nsmul_le_sum l m h

theorem countP_mul_le_sum (h0 : ∀ x ∈ l, 0 ≤ x) : (l.countP (t < ·)) * t ≤ l.sum := by
  induction l with
  | nil => simp
  | cons x l ih =>
    have ih := ih fun y hy => h0 y (by simp [hy])
    have hx := h0 x (by simp)
    by_cases ht : t < x
    · simp only [List.countP_cons, ht, decide_true, if_true, List.sum_cons]
      push_cast
      linarith
    · simp only [List.countP_cons, ht, decide_false, Bool.false_eq_true, if_false, List.sum_cons, add_zero]
      linarith

/-- **Outliers.** If some of the numbers exceed the threshold, the sum exceeds the threshold once for each of them. -/
theorem countP_mul_lt_sum (h0 : ∀ x ∈ l, 0 ≤ x) (hpos : 0 < l.countP (t < ·)) : (l.countP (t < ·)) * t < l.sum := by
  obtain ⟨x, hx, ht⟩ := List.countP_pos_iff.1 hpos
  obtain ⟨a, b, rfl⟩ := List.append_of_mem hx
  have ht : t < x := by simpa using ht
  have ha := countP_mul_le_sum (t := t) fun y hy => h0 y (List.mem_append_left (x :: b) hy)
  have hb := countP_mul_le_sum (t := t) (l := b) fun y hy => h0 y (by simp [hy])
  simp only [List.countP_append, List.countP_cons, ht, decide_true, if_true, List.sum_append, List.sum_cons]
  push_cast
  linarith

end Field

end TrimmedMean
