import DumaisLib.Lib.Digest

/-!
# MD5

The digest of RFC 1321.  Each round is written as sixteen operations, four at a
time, on the registers `A`, `B`, `C`, `D` in turn.
-/

/-- The four registers. -/
structure Md5 where
  A : Digest.Word
  B : Digest.Word
  C : Digest.Word
  D : Digest.Word
  deriving DecidableEq

namespace Md5

open Digest

/-! ## Functions on words -/

def F (x y z : Word) : Word :=
  x &&& y ||| ~~~x &&& z

def G (x y z : Word) : Word :=
  x &&& z ||| y &&& ~~~z

def H (x y z : Word) : Word :=
  x ^^^ y ^^^ z

def I (x y z : Word) : Word :=
  y ^^^ (x ||| ~~~z)

/-- The integer parts of 4294967296 times the sines of 1 to 64, without their signs. -/
def T : List Word :=
  [0xd76aa478, 0xe8c7b756, 0x242070db, 0xc1bdceee, 0xf57c0faf, 0x4787c62a, 0xa8304613, 0xfd469501,
    0x698098d8, 0x8b44f7af, 0xffff5bb1, 0x895cd7be, 0x6b901122, 0xfd987193, 0xa679438e, 0x49b40821,
    0xf61e2562, 0xc040b340, 0x265e5a51, 0xe9b6c7aa, 0xd62f105d, 0x02441453, 0xd8a1e681, 0xe7d3fbc8,
    0x21e1cde6, 0xc33707d6, 0xf4d50d87, 0x455a14ed, 0xa9e3e905, 0xfcefa3f8, 0x676f02d9, 0x8d2a4c8a,
    0xfffa3942, 0x8771f681, 0x6d9d6122, 0xfde5380c, 0xa4beea44, 0x4bdecfa9, 0xf6bb4b60, 0xbebfbc70,
    0x289b7ec6, 0xeaa127fa, 0xd4ef3085, 0x04881d05, 0xd9d4d039, 0xe6db99e5, 0x1fa27cf8, 0xc4ac5665,
    0xf4292244, 0x432aff97, 0xab9423a7, 0xfc93a039, 0x655b59c3, 0x8f0ccc92, 0xffeff47d, 0x85845dd1,
    0x6fa87e4f, 0xfe2ce6e0, 0xa3014314, 0x4e0811a1, 0xf7537e82, 0xbd3af235, 0x2ad7d2bb, 0xeb86d391]

/-! ## Rounds -/

/-- What `[abcd k s i]` stores in the first of its registers, `i` counted from 1. -/
def operation (function : Word → Word → Word → Word) (X : Nat → Word) (a b c d : Word)
    (k s i : Nat) : Word :=
  b + (a + function b c d + X k + T.getD (i - 1) 0).rotateLeft s

/-- `[ABCD k s i]  [DABC k s i+1]  [CDAB k s i+2]  [BCDA k s i+3]` -/
def quadruple (function : Word → Word → Word → Word) (X : Nat → Word)
    (k₁ s₁ k₂ s₂ k₃ s₃ k₄ s₄ i : Nat) (v : Md5) : Md5 :=
  let A := operation function X v.A v.B v.C v.D k₁ s₁ i
  let D := operation function X v.D A v.B v.C k₂ s₂ (i + 1)
  let C := operation function X v.C D A v.B k₃ s₃ (i + 2)
  let B := operation function X v.B C D A k₄ s₄ (i + 3)
  ⟨A, B, C, D⟩

def round1 (X : Nat → Word) (v : Md5) : Md5 :=
  let v := quadruple F X 0 7 1 12 2 17 3 22 1 v
  let v := quadruple F X 4 7 5 12 6 17 7 22 5 v
  let v := quadruple F X 8 7 9 12 10 17 11 22 9 v
  quadruple F X 12 7 13 12 14 17 15 22 13 v

def round2 (X : Nat → Word) (v : Md5) : Md5 :=
  let v := quadruple G X 1 5 6 9 11 14 0 20 17 v
  let v := quadruple G X 5 5 10 9 15 14 4 20 21 v
  let v := quadruple G X 9 5 14 9 3 14 8 20 25 v
  quadruple G X 13 5 2 9 7 14 12 20 29 v

def round3 (X : Nat → Word) (v : Md5) : Md5 :=
  let v := quadruple H X 5 4 8 11 11 16 14 23 33 v
  let v := quadruple H X 1 4 4 11 7 16 10 23 37 v
  let v := quadruple H X 13 4 0 11 3 16 6 23 41 v
  quadruple H X 9 4 12 11 15 16 2 23 45 v

def round4 (X : Nat → Word) (v : Md5) : Md5 :=
  let v := quadruple I X 0 6 7 10 14 15 5 21 49 v
  let v := quadruple I X 12 6 3 10 10 15 1 21 53 v
  let v := quadruple I X 8 6 15 10 6 15 13 21 57 v
  quadruple I X 4 6 11 10 2 15 9 21 61 v

def add (hash v : Md5) : Md5 where
  A := hash.A + v.A
  B := hash.B + v.B
  C := hash.C + v.C
  D := hash.D + v.D

def compress (hash : Md5) (block : List Byte) : Md5 :=
  let X := littleWord block
  hash.add (round4 X (round3 X (round2 X (round1 X hash))))

def initial : Md5 where
  A := 0x67452301#32
  B := 0xefcdab89#32
  C := 0x98badcfe#32
  D := 0x10325476#32

def words (hash : Md5) : List Word :=
  [hash.A, hash.B, hash.C, hash.D]

def digest (message : List Byte) : List Byte :=
  ((blocks (padded littleField message)).foldl compress initial).words.flatMap littleBytes

end Md5
