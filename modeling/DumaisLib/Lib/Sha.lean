import DumaisLib.Lib.Digest

/-!
# SHA-1 and SHA-256

The digests of FIPS 180-4: the functions and constants of section 4, the message
schedules and the computations of section 6.
-/

namespace Sha

open Digest

/-! ## Functions on words -/

def ch (x y z : Word) : Word :=
  (x &&& y) ^^^ (~~~x &&& z)

def parity (x y z : Word) : Word :=
  x ^^^ y ^^^ z

def maj (x y z : Word) : Word :=
  (x &&& y) ^^^ (x &&& z) ^^^ (y &&& z)

theorem ch_eq_or (x y z : Word) : ch x y z = x &&& y ||| ~~~x &&& z := by
  ext i
  simp only [ch, BitVec.getElem_xor, BitVec.getElem_and, BitVec.getElem_not, BitVec.getElem_or]
  cases x[i] <;> simp

theorem maj_eq_or (x y z : Word) : maj x y z = x &&& y ||| x &&& z ||| y &&& z := by
  ext i
  simp only [maj, BitVec.getElem_xor, BitVec.getElem_and, BitVec.getElem_or]
  cases x[i] <;> cases y[i] <;> simp

end Sha

/-! ## SHA-1 -/

/-- The five words of the hash value, or the five working variables. -/
structure Sha1 where
  a : Digest.Word
  b : Digest.Word
  c : Digest.Word
  d : Digest.Word
  e : Digest.Word
  deriving DecidableEq

namespace Sha1

open Digest Sha

def f (t : Nat) : Word → Word → Word → Word :=
  if t < 20 then ch else if t < 40 then parity else if t < 60 then maj else parity

def K (t : Nat) : Word :=
  if t < 20 then 0x5a827999#32
  else if t < 40 then 0x6ed9eba1#32
  else if t < 60 then 0x8f1bbcdc#32
  else 0xca62c1d6#32

/-- The message schedule of a block. -/
def W (block : List Byte) (t : Nat) : Word :=
  if t < 16 then bigWord block t
  else (W block (t - 3) ^^^ W block (t - 8) ^^^ W block (t - 14) ^^^ W block (t - 16)).rotateLeft 1

def step (block : List Byte) (v : Sha1) (t : Nat) : Sha1 where
  a := v.a.rotateLeft 5 + f t v.b v.c v.d + v.e + K t + W block t
  b := v.a
  c := v.b.rotateLeft 30
  d := v.c
  e := v.d

def add (hash v : Sha1) : Sha1 where
  a := hash.a + v.a
  b := hash.b + v.b
  c := hash.c + v.c
  d := hash.d + v.d
  e := hash.e + v.e

def compress (hash : Sha1) (block : List Byte) : Sha1 :=
  hash.add ((List.range 80).foldl (step block) hash)

def initial : Sha1 where
  a := 0x67452301#32
  b := 0xefcdab89#32
  c := 0x98badcfe#32
  d := 0x10325476#32
  e := 0xc3d2e1f0#32

def words (hash : Sha1) : List Word :=
  [hash.a, hash.b, hash.c, hash.d, hash.e]

def digest (message : List Byte) : List Byte :=
  ((blocks (padded bigField message)).foldl compress initial).words.flatMap bigBytes

theorem W_lt {block : List Byte} {t : Nat} (hlt : t < 16) : W block t = bigWord block t := by
  rw [W, if_pos hlt]

theorem W_ge {block : List Byte} {t : Nat} (hge : 16 ≤ t) :
    W block t =
      (W block (t - 3) ^^^ W block (t - 8) ^^^ W block (t - 14) ^^^ W block (t - 16)).rotateLeft 1 := by
  rw [W, if_neg (Nat.not_lt.mpr hge)]

end Sha1

/-! ## SHA-256 -/

/-- The eight words of the hash value, or the eight working variables. -/
structure Sha256 where
  a : Digest.Word
  b : Digest.Word
  c : Digest.Word
  d : Digest.Word
  e : Digest.Word
  f : Digest.Word
  g : Digest.Word
  h : Digest.Word
  deriving DecidableEq

namespace Sha256

open Digest Sha

def upperSigma0 (x : Word) : Word :=
  x.rotateRight 2 ^^^ x.rotateRight 13 ^^^ x.rotateRight 22

def upperSigma1 (x : Word) : Word :=
  x.rotateRight 6 ^^^ x.rotateRight 11 ^^^ x.rotateRight 25

def sigma0 (x : Word) : Word :=
  x.rotateRight 7 ^^^ x.rotateRight 18 ^^^ x >>> 3

def sigma1 (x : Word) : Word :=
  x.rotateRight 17 ^^^ x.rotateRight 19 ^^^ x >>> 10

/-- The first 32 bits of the fractional parts of the cube roots of the first 64 primes. -/
def constants : List Word :=
  [0x428a2f98, 0x71374491, 0xb5c0fbcf, 0xe9b5dba5, 0x3956c25b, 0x59f111f1, 0x923f82a4, 0xab1c5ed5,
    0xd807aa98, 0x12835b01, 0x243185be, 0x550c7dc3, 0x72be5d74, 0x80deb1fe, 0x9bdc06a7, 0xc19bf174,
    0xe49b69c1, 0xefbe4786, 0x0fc19dc6, 0x240ca1cc, 0x2de92c6f, 0x4a7484aa, 0x5cb0a9dc, 0x76f988da,
    0x983e5152, 0xa831c66d, 0xb00327c8, 0xbf597fc7, 0xc6e00bf3, 0xd5a79147, 0x06ca6351, 0x14292967,
    0x27b70a85, 0x2e1b2138, 0x4d2c6dfc, 0x53380d13, 0x650a7354, 0x766a0abb, 0x81c2c92e, 0x92722c85,
    0xa2bfe8a1, 0xa81a664b, 0xc24b8b70, 0xc76c51a3, 0xd192e819, 0xd6990624, 0xf40e3585, 0x106aa070,
    0x19a4c116, 0x1e376c08, 0x2748774c, 0x34b0bcb5, 0x391c0cb3, 0x4ed8aa4a, 0x5b9cca4f, 0x682e6ff3,
    0x748f82ee, 0x78a5636f, 0x84c87814, 0x8cc70208, 0x90befffa, 0xa4506ceb, 0xbef9a3f7, 0xc67178f2]

def K (t : Nat) : Word :=
  constants.getD t 0

/-- The message schedule of a block. -/
def W (block : List Byte) (t : Nat) : Word :=
  if t < 16 then bigWord block t
  else sigma1 (W block (t - 2)) + W block (t - 7) + sigma0 (W block (t - 15)) + W block (t - 16)

def step (block : List Byte) (v : Sha256) (t : Nat) : Sha256 :=
  let T1 := v.h + upperSigma1 v.e + ch v.e v.f v.g + K t + W block t
  let T2 := upperSigma0 v.a + maj v.a v.b v.c
  ⟨T1 + T2, v.a, v.b, v.c, v.d + T1, v.e, v.f, v.g⟩

def add (hash v : Sha256) : Sha256 where
  a := hash.a + v.a
  b := hash.b + v.b
  c := hash.c + v.c
  d := hash.d + v.d
  e := hash.e + v.e
  f := hash.f + v.f
  g := hash.g + v.g
  h := hash.h + v.h

def compress (hash : Sha256) (block : List Byte) : Sha256 :=
  hash.add ((List.range 64).foldl (step block) hash)

def initial : Sha256 where
  a := 0x6a09e667#32
  b := 0xbb67ae85#32
  c := 0x3c6ef372#32
  d := 0xa54ff53a#32
  e := 0x510e527f#32
  f := 0x9b05688c#32
  g := 0x1f83d9ab#32
  h := 0x5be0cd19#32

def words (hash : Sha256) : List Word :=
  [hash.a, hash.b, hash.c, hash.d, hash.e, hash.f, hash.g, hash.h]

def digest (message : List Byte) : List Byte :=
  ((blocks (padded bigField message)).foldl compress initial).words.flatMap bigBytes

theorem W_lt {block : List Byte} {t : Nat} (hlt : t < 16) : W block t = bigWord block t := by
  rw [W, if_pos hlt]

theorem W_ge {block : List Byte} {t : Nat} (hge : 16 ≤ t) :
    W block t =
      sigma1 (W block (t - 2)) + W block (t - 7) + sigma0 (W block (t - 15)) + W block (t - 16) := by
  rw [W, if_neg (Nat.not_lt.mpr hge)]

end Sha256
