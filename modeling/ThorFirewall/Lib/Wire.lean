import Mathlib

/-!
# Numbers and texts as bytes

`leBytes n x` are the low `n` bytes of `x`, the lowest first: different numbers below `256 ^ n` have different bytes
(`leBytes_inj`) and every `n` bytes are those of a number (`exists_leBytes`). `textBytes s` are the bytes of the UTF-8
encoding of `s`; a byte string is the encoding of a text exactly when it is valid UTF-8 (`exists_text_iff`). A text up
to its first delimiter is determined (`append_cons_inj`), and a decimal number has no delimiter in it.
-/

namespace Wire

/-! ## Little-endian numbers -/

def leBytes : ℕ → ℕ → List UInt8
  | 0, _ => []
  | n + 1, x => UInt8.ofNat x :: leBytes n (x / 256)

@[simp] theorem length_leBytes (n x : ℕ) : (leBytes n x).length = n := by
  induction n generalizing x with
  | zero => rfl
  | succ n ih => rw [leBytes, List.length_cons, ih]

theorem leBytes_inj {n x y : ℕ} (hx : x < 256 ^ n) (hy : y < 256 ^ n) (h : leBytes n x = leBytes n y) : x = y := by
  induction n generalizing x y with
  | zero =>
    rw [Nat.pow_zero] at hx hy
    omega
  | succ n ih =>
    rw [Nat.pow_succ'] at hx hy
    obtain ⟨hlow, hhigh⟩ := List.cons.inj h
    have hmod : x % 256 = y % 256 := by simpa using congrArg UInt8.toNat hlow
    have hdiv : x / 256 = y / 256 := ih (Nat.div_lt_of_lt_mul hx) (Nat.div_lt_of_lt_mul hy) hhigh
    omega

/-- Every `n` bytes are those of a number. -/
theorem exists_leBytes (bs : List UInt8) : ∃ x < 256 ^ bs.length, leBytes bs.length x = bs := by
  induction bs with
  | nil => exact ⟨0, by simp, rfl⟩
  | cons b bs ih =>
    obtain ⟨x, hx, hbs⟩ := ih
    have hb := b.toNat_lt
    refine ⟨b.toNat + 256 * x, ?_, ?_⟩
    · rw [List.length_cons, Nat.pow_succ']
      omega
    · rw [List.length_cons, leBytes, show (b.toNat + 256 * x) / 256 = x by omega, hbs]
      congr 1
      apply UInt8.toNat_inj.1
      rw [UInt8.toNat_ofNat']
      omega

/-- `i64::to_le_bytes` and `i32::to_le_bytes`. -/
def i64Bytes (x : Int64) : List UInt8 := leBytes 8 x.toUInt64.toNat
def i32Bytes (x : Int32) : List UInt8 := leBytes 4 x.toUInt32.toNat

@[simp] theorem length_i64Bytes (x : Int64) : (i64Bytes x).length = 8 := length_leBytes 8 _
@[simp] theorem length_i32Bytes (x : Int32) : (i32Bytes x).length = 4 := length_leBytes 4 _

theorem i64Bytes_inj {x y : Int64} (h : i64Bytes x = i64Bytes y) : x = y := by
  have hn := leBytes_inj x.toUInt64.toNat_lt y.toUInt64.toNat_lt h
  simpa using congrArg UInt64.toInt64 (UInt64.toNat_inj.1 hn)

theorem i32Bytes_inj {x y : Int32} (h : i32Bytes x = i32Bytes y) : x = y := by
  have hn := leBytes_inj x.toUInt32.toNat_lt y.toUInt32.toNat_lt h
  simpa using congrArg UInt32.toInt32 (UInt32.toNat_inj.1 hn)

/-- Every four bytes are those of a number. -/
theorem exists_i32Bytes {bs : List UInt8} (h : bs.length = 4) : ∃ x, i32Bytes x = bs := by
  obtain ⟨n, hn, hbs⟩ := exists_leBytes bs
  rw [h] at hn hbs
  refine ⟨(UInt32.ofNat n).toInt32, ?_⟩
  rw [i32Bytes, UInt32.toUInt32_toInt32, UInt32.toNat_ofNat_of_lt' hn, hbs]

/-! ## Texts -/

def textBytes (s : String) : List UInt8 := s.toByteArray.data.toList

@[simp] theorem textBytes_empty : textBytes "" = [] := rfl

@[simp] theorem textBytes_append (s t : String) : textBytes (s ++ t) = textBytes s ++ textBytes t := by
  simp [textBytes, String.toByteArray_append]

theorem textBytes_inj {s t : String} (h : textBytes s = textBytes t) : s = t := by
  rw [← String.toByteArray_inj]
  exact ByteArray.ext (Array.toList_inj.1 h)

@[simp] theorem textBytes_eq_nil_iff {s : String} : textBytes s = [] ↔ s = "" :=
  ⟨fun h => textBytes_inj h, fun h => by rw [h]; rfl⟩

/-- Bytes are the encoding of a text exactly when they are valid UTF-8. -/
theorem exists_text_iff {bs : List UInt8} : (∃ s, textBytes s = bs) ↔ (ByteArray.mk bs.toArray).IsValidUTF8 := by
  constructor
  · rintro ⟨s, rfl⟩
    exact s.isValidUTF8
  · intro h
    exact ⟨String.ofByteArray _ h, rfl⟩

/-! ## Delimited texts -/

/-- Up to the first delimiter a text is determined. -/
theorem append_cons_inj {α : Type*} {d : α} : ∀ {x x' s t : List α}, d ∉ x → d ∉ x' →
    (x ++ d :: s = x' ++ d :: t ↔ x = x' ∧ s = t)
  | [], [], _, _, _, _ => by simp
  | [], c :: x', _, _, _, hx' => by
    have hc : d ≠ c := fun h => hx' (by simp [h])
    simp [hc]
  | c :: x, [], _, _, hx, _ => by
    have hc : c ≠ d := fun h => hx (by simp [h])
    simp [hc]
  | c :: x, c' :: x', s, t, hx, hx' => by
    have ih := append_cons_inj (s := s) (t := t) (List.not_mem_of_not_mem_cons hx) (List.not_mem_of_not_mem_cons hx')
    simp [ih, and_assoc]

/-- A decimal number has digits only. -/
theorem notMem_toString {d : Char} (hd : d.isDigit = false) (n : UInt64) : d ∉ (toString n).toList := by
  intro h
  have hdigits : (toString n).toList = Nat.toDigits 10 n.toNat := by
    show (Nat.repr n.toNat).toList = _
    simp [Nat.repr]
  rw [hdigits] at h
  have hdigit := Nat.isDigit_of_mem_toDigits (by decide) (by decide) h
  rw [hd] at hdigit
  cases hdigit

theorem toString_inj {m n : UInt64} (h : toString m = toString n) : m = n := by
  apply UInt64.toNat_inj.1
  exact Nat.repr_injective h

end Wire
