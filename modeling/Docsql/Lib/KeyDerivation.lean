import Docsql.Lib.Bytes

/-!
# SHA-256 as the standard has it

FIPS 180-4: the functions of section 4.1.2, the constants of sections 4.2.2 and 5.3.3, the
padding of section 5.1.1 and the computation of section 6.2.  Messages are byte strings; the
length field of the padding has 64 bits.
-/

namespace Docsql.Lib.Sha2

abbrev Word := BitVec 32

/-! ## Functions -/

def rotr (n : ℕ) (x : Word) : Word := (x >>> n) ||| (x <<< (32 - n))

def ch (x y z : Word) : Word := (x &&& y) ^^^ (~~~x &&& z)

def maj (x y z : Word) : Word := (x &&& y) ^^^ (x &&& z) ^^^ (y &&& z)

def bigSigma0 (x : Word) : Word := rotr 2 x ^^^ rotr 13 x ^^^ rotr 22 x

def bigSigma1 (x : Word) : Word := rotr 6 x ^^^ rotr 11 x ^^^ rotr 25 x

def smallSigma0 (x : Word) : Word := rotr 7 x ^^^ rotr 18 x ^^^ (x >>> 3)

def smallSigma1 (x : Word) : Word := rotr 17 x ^^^ rotr 19 x ^^^ (x >>> 10)

/-! ## Constants -/

def primes : List ℕ :=
  [2, 3, 5, 7, 11, 13, 17, 19, 23, 29, 31, 37, 41, 43, 47, 53, 59, 61, 67, 71, 73, 79, 83, 89, 97,
    101, 103, 107, 109, 113, 127, 131, 137, 139, 149, 151, 157, 163, 167, 173, 179, 181, 191, 193,
    197, 199, 211, 223, 227, 229, 233, 239, 241, 251, 257, 263, 269, 271, 277, 281, 283, 293, 307,
    311]

def roundConstants : List Word :=
  [0x428a2f98, 0x71374491, 0xb5c0fbcf, 0xe9b5dba5, 0x3956c25b, 0x59f111f1, 0x923f82a4, 0xab1c5ed5,
    0xd807aa98, 0x12835b01, 0x243185be, 0x550c7dc3, 0x72be5d74, 0x80deb1fe, 0x9bdc06a7, 0xc19bf174,
    0xe49b69c1, 0xefbe4786, 0x0fc19dc6, 0x240ca1cc, 0x2de92c6f, 0x4a7484aa, 0x5cb0a9dc, 0x76f988da,
    0x983e5152, 0xa831c66d, 0xb00327c8, 0xbf597fc7, 0xc6e00bf3, 0xd5a79147, 0x06ca6351, 0x14292967,
    0x27b70a85, 0x2e1b2138, 0x4d2c6dfc, 0x53380d13, 0x650a7354, 0x766a0abb, 0x81c2c92e, 0x92722c85,
    0xa2bfe8a1, 0xa81a664b, 0xc24b8b70, 0xc76c51a3, 0xd192e819, 0xd6990624, 0xf40e3585, 0x106aa070,
    0x19a4c116, 0x1e376c08, 0x2748774c, 0x34b0bcb5, 0x391c0cb3, 0x4ed8aa4a, 0x5b9cca4f, 0x682e6ff3,
    0x748f82ee, 0x78a5636f, 0x84c87814, 0x8cc70208, 0x90befffa, 0xa4506ceb, 0xbef9a3f7, 0xc67178f2]

/-- The first 32 bits of the fractional part of the `k`-th root of `p`. -/
def IsRootFraction (k p : ℕ) (x : Word) : Prop :=
  let whole := Nat.findGreatest (fun r => r ^ k ≤ p) p
  (whole * 2 ^ 32 + x.toNat) ^ k ≤ p * 2 ^ (32 * k) ∧
    p * 2 ^ (32 * k) < (whole * 2 ^ 32 + x.toNat + 1) ^ k

instance (k p : ℕ) (x : Word) : Decidable (IsRootFraction k p x) :=
  inferInstanceAs (Decidable (_ ∧ _))

/-! ## Blocks -/

/-- Big-endian bytes. -/
def toBE (w n : ℕ) : List UInt8 := (Bytes.toLE w n).reverse

def ofBE (bs : List UInt8) : ℕ := Bytes.ofLE bs.reverse

/-- The zeros between the first padding byte and the length. -/
def zeros (len : ℕ) : ℕ := (119 - len % 64) % 64

/-- A message with its padding. -/
def pad (msg : List UInt8) : List UInt8 :=
  msg ++ 0x80 :: (List.replicate (zeros msg.length) 0 ++ toBE 8 (8 * msg.length))

/-- The words of a block. -/
def wordAt (block : List UInt8) (t : ℕ) : Word :=
  BitVec.ofNat 32 (ofBE ((block.drop (4 * t)).take 4))

/-- The message schedule. -/
def schedule (block : List UInt8) (t : ℕ) : Word :=
  if t < 16 then wordAt block t
  else
    smallSigma1 (schedule block (t - 2)) + schedule block (t - 7) +
      smallSigma0 (schedule block (t - 15)) + schedule block (t - 16)

theorem schedule_lt {block : List UInt8} {t : ℕ} (h : t < 16) :
    schedule block t = wordAt block t := by
  rw [schedule, if_pos h]

theorem schedule_ge {block : List UInt8} {t : ℕ} (h : 16 ≤ t) :
    schedule block t = smallSigma1 (schedule block (t - 2)) + schedule block (t - 7) +
      smallSigma0 (schedule block (t - 15)) + schedule block (t - 16) := by
  rw [schedule, if_neg (Nat.not_lt.mpr h)]

/-- The working variables; also a hash value, word by word. -/
structure Vars where
  a : Word
  b : Word
  c : Word
  d : Word
  e : Word
  f : Word
  g : Word
  h : Word
deriving DecidableEq

def Vars.words (v : Vars) : List Word := [v.a, v.b, v.c, v.d, v.e, v.f, v.g, v.h]

def initialHash : Vars :=
  { a := 0x6a09e667, b := 0xbb67ae85, c := 0x3c6ef372, d := 0xa54ff53a, e := 0x510e527f,
    f := 0x9b05688c, g := 0x1f83d9ab, h := 0x5be0cd19 }

def round (block : List UInt8) (v : Vars) (t : ℕ) : Vars :=
  let t1 := v.h + bigSigma1 v.e + ch v.e v.f v.g + roundConstants.getD t 0 + schedule block t
  let t2 := bigSigma0 v.a + maj v.a v.b v.c
  { a := t1 + t2, b := v.a, c := v.b, d := v.c, e := v.d + t1, f := v.e, g := v.f, h := v.g }

/-- The next hash value. -/
def compress (H : Vars) (block : List UInt8) : Vars :=
  let v := (List.range 64).foldl (round block) H
  { a := v.a + H.a, b := v.b + H.b, c := v.c + H.c, d := v.d + H.d, e := v.e + H.e,
    f := v.f + H.f, g := v.g + H.g, h := v.h + H.h }

/-- The blocks of a padded message, one after the other. -/
def hashBlocks (H : Vars) (padded : List UInt8) : Vars :=
  (List.range (padded.length / 64)).foldl
    (fun H i => compress H ((padded.drop (64 * i)).take 64)) H

/-- The message digest. -/
def digest (msg : List UInt8) : List UInt8 :=
  (hashBlocks initialHash (pad msg)).words.flatMap fun x => toBE 4 x.toNat

theorem constants_roots :
    (∀ t : Fin 64, IsRootFraction 3 (primes.getD t 0) (roundConstants.getD t 0)) ∧
      ∀ j : Fin 8, IsRootFraction 2 (primes.getD j 0) (initialHash.words.getD j 0) := by
  constructor <;> decide +kernel

/-! ## Padding -/

@[simp] theorem length_toBE (w n : ℕ) : (toBE w n).length = w := by
  rw [toBE, List.length_reverse, Bytes.length_toLE]

theorem length_pad (msg : List UInt8) :
    (pad msg).length = msg.length + 1 + zeros msg.length + 8 := by
  rw [pad, List.length_append, List.length_cons, List.length_append, List.length_replicate,
    length_toBE]
  omega

/-- A padded message is a number of whole blocks. -/
theorem length_pad_mod (msg : List UInt8) : (pad msg).length % 64 = 0 := by
  rw [length_pad, zeros]
  omega

end Docsql.Lib.Sha2

/-!
# Keyed hashes and derived keys

HMAC as RFC 2104 defines it over a hash function and its block size, and PBKDF2 as RFC 8018
defines it over a pseudorandom function and its output length.
-/

namespace Docsql.Lib.KeyDerivation

open Docsql.Lib.Sha2 (toBE)

def xorBytes (xs ys : List UInt8) : List UInt8 := List.zipWith (· ^^^ ·) xs ys

theorem length_xorBytes {xs ys : List UInt8} (h : xs.length = ys.length) :
    (xorBytes xs ys).length = ys.length := by
  rw [xorBytes, List.length_zipWith, h, Nat.min_self]

/-! ## RFC 2104 -/

section Hmac

variable (H : List UInt8 → List UInt8) (B : ℕ)

/-- The key with zeros up to the block size; a longer key is hashed first. -/
def blockKey (key : List UInt8) : List UInt8 :=
  let k := if B < key.length then H key else key
  k ++ List.replicate (B - k.length) 0

def hmac (key text : List UInt8) : List UInt8 :=
  H (xorBytes (blockKey H B key) (List.replicate B 0x5c) ++
    H (xorBytes (blockKey H B key) (List.replicate B 0x36) ++ text))

end Hmac

/-! ## RFC 8018 -/

section Pbkdf2

variable (prf : List UInt8 → List UInt8 → List UInt8) (hLen : ℕ)

/-- `U_1`, `U_2`, and so on, from `U_1`. -/
def iterate (password u : List UInt8) : ℕ → List UInt8
  | 0 => u
  | n + 1 => prf password (iterate password u n)

/-- `F`: the exclusive or of the first `c` of them. -/
def blockOf (password salt : List UInt8) (c i : ℕ) : List UInt8 :=
  let u := prf password (salt ++ toBE 4 i)
  (List.range (c - 1)).foldl (fun t j => xorBytes t (iterate prf password u (j + 1))) u

/-- The derived key; `none` where it is too long. -/
def pbkdf2 (password salt : List UInt8) (c dkLen : ℕ) : Option (List UInt8) :=
  if (2 ^ 32 - 1) * hLen < dkLen then none
  else
    some (((List.range ((dkLen + hLen - 1) / hLen)).flatMap fun i =>
      blockOf prf password salt c (i + 1)).take dkLen)

end Pbkdf2

end Docsql.Lib.KeyDerivation
