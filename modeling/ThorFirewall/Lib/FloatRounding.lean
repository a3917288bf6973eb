import Mathlib

/-!
# Rounding to a binary format

The nearest number with so many binary digits, and of two the one whose last digit is even. Numbers above the largest of a
format are left out.

- `le_nearestEven_iff`, `le_round_iff`: what is rounded to a given number or above it;
- `round_eq`: what a number of a given binade is rounded to;
- `abs_round_sub_le_of_le`, `abs_sum_sub_le`: how far a rounded number, and a sum that is rounded at each step, can be off.
-/

namespace FloatRounding

/-- The nearest integer, the even one of two. -/
def nearestEven (x : ℚ) : ℤ :=
  if Int.fract x < 1 / 2 ∨ Int.fract x = 1 / 2 ∧ Even ⌊x⌋ then ⌊x⌋ else ⌊x⌋ + 1

theorem le_nearestEven_iff {n : ℤ} {x : ℚ} : n ≤ nearestEven x ↔ (n - 1 / 2 : ℚ) < x ∨ (n - 1 / 2 : ℚ) = x ∧ Even n := by
  have hfract : Int.fract x = x - ⌊x⌋ := rfl
  rcases lt_trichotomy n (⌊x⌋ + 1) with hlt | rfl | hgt
  · have hle : n ≤ ⌊x⌋ := Int.lt_add_one_iff.1 hlt
    have hx : (n : ℚ) ≤ x := Int.le_floor.1 hle
    refine iff_of_true ?_ (.inl (by linarith))
    unfold nearestEven
    split_ifs <;> omega
  · have hround : ⌊x⌋ + 1 ≤ nearestEven x ↔ ¬ (Int.fract x < 1 / 2 ∨ Int.fract x = 1 / 2 ∧ Even ⌊x⌋) := by
      unfold nearestEven
      split_ifs with hdown
      · exact iff_of_false (by omega) (not_not.2 hdown)
      · exact iff_of_true le_rfl hdown
    rw [hround, hfract, Int.even_add_one]
    push_cast
    constructor
    · intro h
      rw [not_or, not_lt] at h
      rcases h.1.lt_or_eq with hlt | heq
      · exact .inl (by linarith)
      · exact .inr ⟨by linarith, fun heven => h.2 ⟨heq.symm, heven⟩⟩
    · rintro (hlt | ⟨heq, hodd⟩) (hdown | ⟨htie, heven⟩)
      · linarith
      · linarith
      · linarith
      · exact hodd heven
  · have hx : x < ⌊x⌋ + 1 := Int.lt_floor_add_one x
    have hn : (⌊x⌋ + 1 + 1 : ℚ) ≤ n := by exact_mod_cast hgt
    refine iff_of_false ?_ ?_
    · unfold nearestEven
      split_ifs <;> omega
    · rintro (hlt | ⟨heq, -⟩) <;> linarith

theorem nearestEven_eq {n : ℤ} {x : ℚ} (h : |x - n| < 1 / 2) : nearestEven x = n := by
  obtain ⟨hlow, hhigh⟩ := abs_lt.1 h
  refine le_antisymm (Int.lt_add_one_iff.1 (not_le.1 fun hle => ?_)) (le_nearestEven_iff.2 (.inl (by linarith)))
  rcases le_nearestEven_iff.1 hle with hlt | ⟨heq, -⟩
  · push_cast at hlt
    linarith
  · push_cast at heq
    linarith

theorem abs_nearestEven_sub_le (x : ℚ) : |nearestEven x - x| ≤ 1 / 2 := by
  have hfract : Int.fract x = x - ⌊x⌋ := rfl
  have hnonneg := Int.fract_nonneg x
  have hlt := Int.fract_lt_one x
  rw [abs_le]
  unfold nearestEven
  split_ifs with hdown
  · have hhalf : Int.fract x ≤ 1 / 2 := hdown.elim le_of_lt fun h => h.1.le
    constructor <;> linarith
  · have hhalf : 1 / 2 ≤ Int.fract x := not_lt.1 fun h => hdown (.inl h)
    push_cast
    constructor <;> linarith

theorem nearestEven_nonneg {x : ℚ} (h : 0 ≤ x) : 0 ≤ nearestEven x :=
  le_nearestEven_iff.2 (.inl (by push_cast; linarith))

/-- The digits behind the leading one, and the exponent of the last place of the smallest numbers. -/
structure Format where
  fractionBits : ℕ
  minExp : ℤ

/-- Single precision. -/
def binary32 : Format := ⟨23, -149⟩

/-- Double precision. -/
def binary64 : Format := ⟨52, -1074⟩

namespace Format

variable (F : Format)

/-- The exponent of the last place. -/
def lastPlace (x : ℚ) : ℤ := max (Int.log 2 |x| - F.fractionBits) F.minExp

def round (x : ℚ) : ℚ := nearestEven (x / 2 ^ F.lastPlace x) * 2 ^ F.lastPlace x

/-- The numbers are added one after the other, and each sum is rounded. -/
def sum (qs : List ℚ) : ℚ := qs.foldl (fun total q => F.round (total + q)) 0

variable {F} {x y : ℚ}

/-- A number is below the end of its binade, and not below its start unless it is among the smallest. -/
theorem binade (hx : 0 < x) : x < 2 ^ (F.fractionBits + 1 + F.lastPlace x) ∧
    (F.lastPlace x = F.minExp ∨ 2 ^ (F.fractionBits + F.lastPlace x) ≤ x) := by
  unfold lastPlace
  rw [abs_of_pos hx]
  constructor
  · refine (Int.lt_zpow_succ_log_self Nat.one_lt_two x).trans_le (zpow_le_zpow_right₀ (by norm_num) ?_)
    have := le_max_left (Int.log 2 x - F.fractionBits) F.minExp
    omega
  · rcases max_choice (Int.log 2 x - F.fractionBits) F.minExp with h | h
    · right
      rw [h, add_sub_cancel]
      exact_mod_cast Int.zpow_log_le_self Nat.one_lt_two hx
    · exact .inl h

/-- **What is rounded to a number of the format, or above it.** -/
theorem le_round_iff {m : ℤ} {e : ℤ} (hx : 0 < x) (he : F.minExp ≤ e) (hm : m ≤ 2 ^ (F.fractionBits + 1))
    (hnormal : e = F.minExp ∨ 2 ^ F.fractionBits < m) :
    m * 2 ^ e ≤ F.round x ↔ (m - 1 / 2) * 2 ^ e < x ∨ (m - 1 / 2) * 2 ^ e = x ∧ Even m := by
  obtain ⟨hend, hstart⟩ := binade (F := F) hx
  have hmin : F.minExp ≤ F.lastPlace x := le_max_right _ _
  have hpos (z : ℤ) : (0 : ℚ) < 2 ^ z := zpow_pos two_pos z
  have hmono {a b : ℤ} (h : a ≤ b) : (2 : ℚ) ^ a ≤ 2 ^ b := zpow_le_zpow_right₀ one_le_two h
  have hsplit (a : ℕ) (b : ℤ) : (2 : ℚ) ^ (a + b : ℤ) = 2 ^ a * 2 ^ b := by
    rw [zpow_add₀ two_ne_zero, zpow_natCast]
  unfold round
  generalize F.lastPlace x = k at *
  rcases lt_trichotomy k e with hlt | rfl | hgt
  · -- the number is below the binade of `m`
    have hm' : (2 ^ F.fractionBits + 1 : ℚ) ≤ m := by exact_mod_cast hnormal.resolve_left (by omega)
    have hbinade : x < 2 ^ F.fractionBits * 2 ^ e := by
      rw [← hsplit]
      exact hend.trans_le (hmono (by omega))
    have hround : (nearestEven (x / 2 ^ k) : ℚ) * 2 ^ k ≤ 2 ^ F.fractionBits * 2 ^ e := by
      have hend' : x / 2 ^ k < 2 ^ (F.fractionBits + 1) := by
        rw [div_lt_iff₀ (hpos k), ← hsplit]
        exact_mod_cast hend
      have hle : nearestEven (x / 2 ^ k) ≤ 2 ^ (F.fractionBits + 1) := by
        refine Int.lt_add_one_iff.1 (not_le.1 fun hge => ?_)
        have := le_nearestEven_iff.1 hge
        push_cast at this
        rcases this with h | ⟨h, -⟩ <;> linarith
      calc (nearestEven (x / 2 ^ k) : ℚ) * 2 ^ k
          ≤ 2 ^ (F.fractionBits + 1) * 2 ^ k := mul_le_mul_of_nonneg_right (by exact_mod_cast hle) (hpos k).le
        _ ≤ 2 ^ F.fractionBits * 2 ^ e := by
          rw [← hsplit, ← hsplit]
          push_cast
          exact hmono (by omega)
    refine iff_of_false ?_ ?_
    · nlinarith [hpos e]
    · rintro (h | ⟨h, -⟩) <;> nlinarith [hpos e]
  · rw [mul_le_mul_iff_of_pos_right (hpos k), Int.cast_le, le_nearestEven_iff, lt_div_iff₀ (hpos k),
      eq_div_iff (hpos k).ne']
  · -- and here above it
    have hm' : (m : ℚ) ≤ 2 ^ (F.fractionBits + 1) := by exact_mod_cast hm
    have hbinade : 2 ^ F.fractionBits * 2 ^ k ≤ x := by
      rw [← hsplit]
      exact hstart.resolve_left (by omega)
    have hend : (m : ℚ) * 2 ^ e ≤ 2 ^ F.fractionBits * 2 ^ k :=
      calc (m : ℚ) * 2 ^ e ≤ 2 ^ (F.fractionBits + 1) * 2 ^ e := mul_le_mul_of_nonneg_right hm' (hpos e).le
        _ ≤ 2 ^ F.fractionBits * 2 ^ k := by
          rw [← hsplit, ← hsplit]
          push_cast
          exact hmono (by omega)
    have hround : (2 ^ F.fractionBits : ℤ) ≤ nearestEven (x / 2 ^ k) := by
      refine le_nearestEven_iff.2 (.inl ?_)
      rw [lt_div_iff₀ (hpos k)]
      push_cast
      nlinarith [hpos k]
    refine iff_of_true ?_ (.inl ?_)
    · exact hend.trans (mul_le_mul_of_nonneg_right (by exact_mod_cast hround) (hpos k).le)
    · nlinarith [hpos e]

theorem round_eq {m : ℤ} {e : ℤ} (he : F.minExp ≤ e) (hlow : 2 ^ (F.fractionBits + e) ≤ x)
    (hhigh : x < 2 ^ (F.fractionBits + 1 + e)) (hnear : |x / 2 ^ e - m| < 1 / 2) : F.round x = m * 2 ^ e := by
  have hx : 0 < x := (zpow_pos two_pos _).trans_le hlow
  have hlog : Int.log 2 x = F.fractionBits + e := by
    have h1 := (Int.zpow_le_iff_le_log Nat.one_lt_two hx (x := F.fractionBits + e)).1 (by exact_mod_cast hlow)
    have h2 := (Int.lt_zpow_iff_log_lt Nat.one_lt_two hx (x := F.fractionBits + 1 + e)).1 (by exact_mod_cast hhigh)
    omega
  have hplace : F.lastPlace x = e := by
    rw [lastPlace, abs_of_pos hx, hlog, add_sub_cancel_left, max_eq_left he]
  rw [round, hplace, nearestEven_eq hnear]

/-! ## Errors -/

theorem lastPlace_mono (hx : 0 < x) (hxy : x ≤ y) : F.lastPlace x ≤ F.lastPlace y := by
  unfold lastPlace
  rw [abs_of_pos hx, abs_of_pos (hx.trans_le hxy)]
  have := Int.log_mono_right (b := 2) hx hxy
  exact max_le_max (by omega) le_rfl

theorem round_nonneg (hx : 0 ≤ x) : 0 ≤ F.round x :=
  mul_nonneg (Int.cast_nonneg (nearestEven_nonneg (div_nonneg hx (zpow_pos two_pos _).le))) (zpow_pos two_pos _).le

/-- A number is off by half a unit of its last place at most. -/
theorem abs_round_sub_le (x : ℚ) : |F.round x - x| ≤ 2 ^ F.lastPlace x / 2 := by
  have hpos : (0 : ℚ) < 2 ^ F.lastPlace x := zpow_pos two_pos _
  have hround : F.round x - x = (nearestEven (x / 2 ^ F.lastPlace x) - x / 2 ^ F.lastPlace x) * 2 ^ F.lastPlace x := by
    rw [round, sub_mul, div_mul_cancel₀ _ hpos.ne']
  rw [hround, abs_mul, abs_of_pos hpos]
  nlinarith [abs_nearestEven_sub_le (x / 2 ^ F.lastPlace x)]

/-- **One rounding**, of a number up to `y`. -/
theorem abs_round_sub_le_of_le (hx : 0 ≤ x) (hxy : x ≤ y) (hy : 2 ^ (F.fractionBits + F.minExp) ≤ y) :
    |F.round x - x| ≤ y / 2 ^ (F.fractionBits + 1) := by
  have hy0 : 0 < y := (zpow_pos two_pos _).trans_le hy
  rcases hx.eq_or_lt with rfl | hx
  · have hzero : F.round 0 = 0 := by
      rw [round, zero_div, nearestEven_eq (n := 0) (by norm_num), Int.cast_zero, zero_mul]
    rw [hzero, sub_zero, abs_zero]
    positivity
  · have hplace : (2 : ℚ) ^ (F.fractionBits + F.lastPlace y) ≤ y := by
      rcases (binade (F := F) hy0).2 with h | h
      · rwa [h]
      · exact h
    rw [zpow_add₀ two_ne_zero, zpow_natCast] at hplace
    calc |F.round x - x| ≤ 2 ^ F.lastPlace x / 2 := abs_round_sub_le x
      _ ≤ 2 ^ F.lastPlace y / 2 :=
        div_le_div_of_nonneg_right (zpow_le_zpow_right₀ one_le_two (lastPlace_mono hx hxy)) zero_le_two
      _ ≤ y / 2 ^ (F.fractionBits + 1) := by
        rw [le_div_iff₀ (by positivity), pow_succ]
        linarith

theorem sum_concat (qs : List ℚ) (q : ℚ) : F.sum (qs ++ [q]) = F.round (F.sum qs + q) := List.foldl_concat ..

theorem sum_nonneg {qs : List ℚ} (hqs : ∀ q ∈ qs, 0 ≤ q) : 0 ≤ F.sum qs := by
  induction qs using List.reverseRecOn with
  | nil => exact le_rfl
  | append_singleton qs q ih =>
    rw [sum_concat]
    exact round_nonneg (add_nonneg (ih fun q hq => hqs q (List.mem_append_left _ hq)) (hqs q (by simp)))

/-- **A sum that is rounded at each step**, where it stays up to `y`. -/
theorem abs_sum_sub_le {qs : List ℚ} (hy : 2 ^ (F.fractionBits + F.minExp) ≤ y) (hqs : ∀ q ∈ qs, 0 ≤ q)
    (hbound : qs.sum + qs.length * (y / 2 ^ (F.fractionBits + 1)) ≤ y) :
    |F.sum qs - qs.sum| ≤ qs.length * (y / 2 ^ (F.fractionBits + 1)) := by
  have hunit : 0 ≤ y / 2 ^ (F.fractionBits + 1) := by
    have hy0 : 0 < y := (zpow_pos two_pos _).trans_le hy
    positivity
  have hround : ∀ x, 0 ≤ x → x ≤ y → |F.round x - x| ≤ y / 2 ^ (F.fractionBits + 1) :=
    fun x hx hxy => abs_round_sub_le_of_le hx hxy hy
  generalize y / 2 ^ (F.fractionBits + 1) = u at *
  induction qs using List.reverseRecOn with
  | nil => simp [sum]
  | append_singleton qs q ih =>
    have hqs' : ∀ q ∈ qs, 0 ≤ q := fun q hq => hqs q (List.mem_append_left _ hq)
    have hq : 0 ≤ q := hqs q (by simp)
    rw [List.sum_append, List.sum_singleton, List.length_append, List.length_singleton] at hbound ⊢
    push_cast at hbound ⊢
    obtain ⟨hlow, hhigh⟩ := abs_le.1 (ih hqs' (by linarith))
    have hlast := abs_le.1 (hround (F.sum qs + q) (add_nonneg (sum_nonneg hqs') hq) (by linarith))
    rw [sum_concat, abs_le]
    constructor <;> linarith [hlast.1, hlast.2]

end Format

end FloatRounding
