import Mathlib

/-!
# Base64

`encode` writes three bytes as four digits of six bits, and pads the last group. `push` is what a decoder that collects
digits in a machine word does with each of them; what is lost at the upper end of the word has no part in the bytes that
are taken from its lower end (`byte_push_four`, `byte_push_two`, `byte_push_zero`).
-/

namespace Base64

/-- The alphabet of RFC 4648. -/
def alphabet : List Char := "ABCDEFGHIJKLMNOPQRSTUVWXYZabcdefghijklmnopqrstuvwxyz0123456789+/".toList

def digit (n : ℕ) : Char := alphabet.getD n 'A'

/-- Groups of three bytes, the last one padded. -/
def encode : List UInt8 → List Char
  | [] => []
  | [a] => [digit (a.toNat / 4), digit (a.toNat % 4 * 16), '=', '=']
  | [a, b] => [digit (a.toNat / 4), digit (a.toNat % 4 * 16 + b.toNat / 16), digit (b.toNat % 16 * 4), '=']
  | a :: b :: c :: rest => digit (a.toNat / 4) :: digit (a.toNat % 4 * 16 + b.toNat / 16) ::
      digit (b.toNat % 16 * 4 + c.toNat / 64) :: digit (c.toNat % 64) :: encode rest

/-- What is true of the alphabet and of the padding is true of the text. -/
theorem forall_mem_encode {P : Char → Prop} (hdigit : ∀ n < 64, P (digit n)) (hpad : P '=') (data : List UInt8) :
    ∀ c ∈ encode data, P c := by
  have hbyte : ∀ b : UInt8, b.toNat < 256 := UInt8.toNat_lt
  fun_induction encode data with
  | case1 => simp
  | case2 a =>
    have := hbyte a
    simp only [List.forall_mem_cons]
    exact ⟨hdigit _ (by omega), hdigit _ (by omega), hpad, hpad, by simp⟩
  | case3 a b =>
    have := hbyte a
    have := hbyte b
    simp only [List.forall_mem_cons]
    exact ⟨hdigit _ (by omega), hdigit _ (by omega), hdigit _ (by omega), hpad, by simp⟩
  | case4 a b c rest ih =>
    have := hbyte a
    have := hbyte b
    have := hbyte c
    simp only [List.forall_mem_cons]
    exact ⟨hdigit _ (by omega), hdigit _ (by omega), hdigit _ (by omega), hdigit _ (by omega), ih⟩

theorem encode_ne_nil {data : List UInt8} (h : data ≠ []) : encode data ≠ [] := by
  cases data with
  | nil => exact absurd rfl h
  | cons a data =>
    cases data with
    | nil => simp [encode]
    | cons b data => cases data <;> simp [encode]

/-! ## Digits in a machine word -/

/-- The word with six bits more. -/
def push (buf v : UInt32) : UInt32 := (buf <<< 6) ||| v

/-- A byte from the lower end of the word. -/
def byte (buf bits : UInt32) : UInt8 := ((buf >>> bits) &&& 0xFF).toUInt8

theorem toNat_push {buf : UInt32} {v : ℕ} (h : v < 64) :
    (push buf (UInt32.ofNat v)).toNat = (buf.toNat * 64 + v) % 2 ^ 32 := by
  have hv : (UInt32.ofNat v).toNat = v := by
    rw [UInt32.toNat_ofNat']
    omega
  have hleft : (buf <<< 6).toNat = buf.toNat * 64 % 2 ^ 32 := by simp [UInt32.toNat_shiftLeft, Nat.shiftLeft_eq]
  have hshift : (buf <<< 6).toNat = (buf.toNat % 2 ^ 26) <<< 6 := by
    rw [hleft, Nat.shiftLeft_eq]
    omega
  rw [push, UInt32.toNat_or, hv, hshift, ← Nat.shiftLeft_add_eq_or_of_lt (by omega), Nat.shiftLeft_eq]
  omega

theorem toNat_byte (buf bits : UInt32) (h : bits.toNat < 32) :
    (byte buf bits).toNat = buf.toNat / 2 ^ bits.toNat % 256 := by
  have hmask := Nat.and_two_pow_sub_one_eq_mod (buf.toNat / 2 ^ bits.toNat) 8
  rw [byte, UInt32.toNat_toUInt8, UInt32.toNat_and, UInt32.toNat_shiftRight, Nat.mod_eq_of_lt h,
    Nat.shiftRight_eq_div_pow]
  simp only [Nat.reducePow, Nat.reduceSub, UInt32.reduceToNat] at hmask ⊢
  omega

variable {buf : UInt32} {v w : ℕ}

/-- **The byte of two digits** is in the lower end of the word. -/
theorem byte_push_four (hv : v < 64) (hw : w < 64) :
    byte (push (push buf (UInt32.ofNat v)) (UInt32.ofNat w)) 4 = UInt8.ofNat (v * 4 + w / 16) := by
  have hbits : (4 : UInt32).toNat = 4 := rfl
  rw [← UInt8.toNat_inj, toNat_byte _ _ (by decide), toNat_push hw, toNat_push hv, UInt8.toNat_ofNat', hbits]
  omega

theorem byte_push_two (hv : v < 64) (hw : w < 64) :
    byte (push (push buf (UInt32.ofNat v)) (UInt32.ofNat w)) 2 = UInt8.ofNat (v % 16 * 16 + w / 4) := by
  have hbits : (2 : UInt32).toNat = 2 := rfl
  rw [← UInt8.toNat_inj, toNat_byte _ _ (by decide), toNat_push hw, toNat_push hv, UInt8.toNat_ofNat', hbits]
  omega

theorem byte_push_zero (hv : v < 64) (hw : w < 64) :
    byte (push (push buf (UInt32.ofNat v)) (UInt32.ofNat w)) 0 = UInt8.ofNat (v % 4 * 64 + w) := by
  have hbits : (0 : UInt32).toNat = 0 := rfl
  rw [← UInt8.toNat_inj, toNat_byte _ _ (by decide), toNat_push hw, toNat_push hv, UInt8.toNat_ofNat', hbits]
  omega

end Base64
