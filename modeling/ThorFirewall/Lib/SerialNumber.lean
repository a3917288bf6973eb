import Mathlib.Data.UInt
import Mathlib.Order.Defs.PartialOrder

/-!
# Serial numbers modulo `2 ^ 32`

`seqAt isn p` is the 32-bit number of position `p` of a stream whose position `0` has the number `isn`. Numbers are
positions as long as the positions stay within `2 ^ 32` of each other (`seqAt_inj`), a difference below `2 ^ 31` tells
which of two positions comes first (`seqAt_sub_lt_iff`), and the raw order of the numbers is the order of the positions
on each side of the wrap-around, with every wrapped number below every unwrapped one (`seqAt_lt_iff`,
`seqAt_lt_of_wrap`).
-/

/-- The raw order of 32-bit numbers. -/
instance instPreorderUInt32 : Preorder UInt32 where
  le_refl _ := UInt32.le_refl _
  le_trans _ _ _ := UInt32.le_trans
  lt_iff_le_not_ge a b := by
    rw [UInt32.lt_iff_toNat_lt, UInt32.le_iff_toNat_le, UInt32.le_iff_toNat_le]
    omega

namespace SerialNumber

/-- The 32-bit number of a position. -/
def seqAt (isn : UInt32) (p : ℕ) : UInt32 := isn + UInt32.ofNat p

variable {isn : UInt32}

theorem toNat_seqAt (isn : UInt32) (p : ℕ) : (seqAt isn p).toNat = (isn.toNat + p) % 2 ^ 32 := by
  simp [seqAt, UInt32.toNat_add]

@[simp] theorem seqAt_zero (isn : UInt32) : seqAt isn 0 = isn := by simp [seqAt]

/-- Advancing a number by a length advances its position. -/
theorem seqAt_add (isn : UInt32) (p n : ℕ) : seqAt isn p + UInt32.ofNat n = seqAt isn (p + n) := by
  apply UInt32.toNat_inj.1
  rw [UInt32.toNat_add, toNat_seqAt, toNat_seqAt, UInt32.toNat_ofNat']
  omega

/-- Positions below `2 ^ 32` have different numbers. -/
theorem seqAt_inj {p q : ℕ} (hp : p < 2 ^ 32) (hq : q < 2 ^ 32) : seqAt isn p = seqAt isn q ↔ p = q := by
  rw [← UInt32.toNat_inj, toNat_seqAt, toNat_seqAt]
  omega

/-- A difference of numbers below `2 ^ 31` says that the second position is not after the first. -/
theorem seqAt_sub_lt_iff {p q : ℕ} (hp : p < 2 ^ 31) (hq : q < 2 ^ 31) :
    seqAt isn p - seqAt isn q < 0x80000000 ↔ q ≤ p := by
  have h8 : (0x80000000 : UInt32).toNat = 2 ^ 31 := by decide
  rw [UInt32.lt_iff_toNat_lt, UInt32.toNat_sub, toNat_seqAt, toNat_seqAt, h8]
  have := isn.toNat_lt
  omega

/-- The raw order on one side of the wrap-around. -/
theorem seqAt_lt_iff {p q : ℕ} (hp : p < 2 ^ 32) (hq : q < 2 ^ 32)
    (hside : isn.toNat + p < 2 ^ 32 ↔ isn.toNat + q < 2 ^ 32) : seqAt isn p < seqAt isn q ↔ p < q := by
  rw [UInt32.lt_iff_toNat_lt, toNat_seqAt, toNat_seqAt]
  have := isn.toNat_lt
  omega

/-- Numbers behind the wrap-around are below the numbers before it. -/
theorem seqAt_lt_of_wrap {p q : ℕ} (hp : p < 2 ^ 31) (hw : 2 ^ 32 ≤ isn.toNat + p) (hq : isn.toNat + q < 2 ^ 32) :
    seqAt isn p < seqAt isn q := by
  rw [UInt32.lt_iff_toNat_lt, toNat_seqAt, toNat_seqAt]
  have := isn.toNat_lt
  omega

end SerialNumber
