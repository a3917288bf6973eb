import Mathlib

/-!
# SHA-256

The hash function and its lower-case hexadecimal form, so that what is said of an arbitrary digest can be run on the real
one. `length_hexDigest`: a hexadecimal digest has 64 characters.
-/

namespace Sha256

/-- Words are numbers below `2 ^ 32`. -/
def add (x y : ℕ) : ℕ := (x + y) % 2 ^ 32

def rotr (x n : ℕ) : ℕ := (x >>> n) ||| ((x <<< (32 - n)) % 2 ^ 32)

def roundConstants : List ℕ :=
  [0x428a2f98, 0x71374491, 0xb5c0fbcf, 0xe9b5dba5, 0x3956c25b, 0x59f111f1, 0x923f82a4, 0xab1c5ed5,
   0xd807aa98, 0x12835b01, 0x243185be, 0x550c7dc3, 0x72be5d74, 0x80deb1fe, 0x9bdc06a7, 0xc19bf174,
   0xe49b69c1, 0xefbe4786, 0x0fc19dc6, 0x240ca1cc, 0x2de92c6f, 0x4a7484aa, 0x5cb0a9dc, 0x76f988da,
   0x983e5152, 0xa831c66d, 0xb00327c8, 0xbf597fc7, 0xc6e00bf3, 0xd5a79147, 0x06ca6351, 0x14292967,
   0x27b70a85, 0x2e1b2138, 0x4d2c6dfc, 0x53380d13, 0x650a7354, 0x766a0abb, 0x81c2c92e, 0x92722c85,
   0xa2bfe8a1, 0xa81a664b, 0xc24b8b70, 0xc76c51a3, 0xd192e819, 0xd6990624, 0xf40e3585, 0x106aa070,
   0x19a4c116, 0x1e376c08, 0x2748774c, 0x34b0bcb5, 0x391c0cb3, 0x4ed8aa4a, 0x5b9cca4f, 0x682e6ff3,
   0x748f82ee, 0x78a5636f, 0x84c87814, 0x8cc70208, 0x90befffa, 0xa4506ceb, 0xbef9a3f7, 0xc67178f2]

structure State where
  a : ℕ
  b : ℕ
  c : ℕ
  d : ℕ
  e : ℕ
  f : ℕ
  g : ℕ
  h : ℕ

def initial : State :=
  ⟨0x6a09e667, 0xbb67ae85, 0x3c6ef372, 0xa54ff53a, 0x510e527f, 0x9b05688c, 0x1f83d9ab, 0x5be0cd19⟩

/-- The message schedule, the latest word first: `n` more words behind the sixteen of the block. -/
def expand : ℕ → List ℕ → List ℕ
  | 0, ws => ws
  | n + 1, ws =>
    let s0 := let w := ws.getD 14 0; rotr w 7 ^^^ rotr w 18 ^^^ (w >>> 3)
    let s1 := let w := ws.getD 1 0; rotr w 17 ^^^ rotr w 19 ^^^ (w >>> 10)
    expand n (add (add (add (ws.getD 15 0) s0) (ws.getD 6 0)) s1 :: ws)

def round (s : State) (kw : ℕ × ℕ) : State :=
  let s1 := rotr s.e 6 ^^^ rotr s.e 11 ^^^ rotr s.e 25
  let ch := (s.e &&& s.f) ^^^ ((2 ^ 32 - 1 - s.e) &&& s.g)
  let t1 := add (add (add (add s.h s1) ch) kw.1) kw.2
  let s0 := rotr s.a 2 ^^^ rotr s.a 13 ^^^ rotr s.a 22
  let maj := (s.a &&& s.b) ^^^ (s.a &&& s.c) ^^^ (s.b &&& s.c)
  ⟨add t1 (add s0 maj), s.a, s.b, s.c, add s.d t1, s.e, s.f, s.g⟩

def compress (s : State) (block : List ℕ) : State :=
  let ws := (expand 48 block.reverse).reverse
  let t := (roundConstants.zip ws).foldl round s
  ⟨add s.a t.a, add s.b t.b, add s.c t.c, add s.d t.d, add s.e t.e, add s.f t.f, add s.g t.g, add s.h t.h⟩

/-- The last `w` bytes of a number, the high one first. -/
def beBytes : ℕ → ℕ → List UInt8
  | 0, _ => []
  | w + 1, n => beBytes w (n / 256) ++ [UInt8.ofNat n]

/-- A one bit, zeros up to a whole block, and the length in bits. -/
def pad (m : List UInt8) : List UInt8 :=
  m ++ 0x80 :: List.replicate ((119 - m.length % 64) % 64) 0 ++ beBytes 8 (8 * m.length)

def words : ℕ → List UInt8 → List ℕ
  | 0, _ => []
  | n + 1, bs => (bs.take 4).foldl (fun v b => 256 * v + b.toNat) 0 :: words n (bs.drop 4)

def blocks : ℕ → List ℕ → List (List ℕ)
  | 0, _ => []
  | n + 1, ws => ws.take 16 :: blocks n (ws.drop 16)

def digest (m : List UInt8) : List UInt8 :=
  let p := pad m
  let s := (blocks (p.length / 64) (words (p.length / 4) p)).foldl compress initial
  [s.a, s.b, s.c, s.d, s.e, s.f, s.g, s.h].flatMap fun w => beBytes 4 w

def hexDigit (n : ℕ) : Char := "0123456789abcdef".toList.getD n '0'
def hex (bs : List UInt8) : String :=
  String.ofList (bs.flatMap fun b => [hexDigit (b.toNat / 16), hexDigit (b.toNat % 16)])

def hexDigest (s : String) : String := hex (digest s.toUTF8.toList)

@[simp] theorem length_beBytes (w n : ℕ) : (beBytes w n).length = w := by
  induction w generalizing n with
  | zero => rfl
  | succ w ih => simp [beBytes, ih]

@[simp] theorem length_hex (bs : List UInt8) : (hex bs).length = 2 * bs.length := by
  simp [hex, List.length_flatMap, Nat.mul_comm]

theorem length_hexDigest (s : String) : (hexDigest s).length = 64 := by
  simp [hexDigest, digest]

example : hexDigest "abc" = "ba7816bf8f01cfea414140de5dae2223b00361a396177a9cb410ff61f20015ad" := by decide +kernel

end Sha256
