import DumaisLib.Lib.Md5
import DumaisLib.Utils.Hash

/-!
# MD5

The rounds rename the variables where the standard takes the registers in turn;
after four of them the names are the same again.
-/

set_option linter.dupNamespace false

namespace DumaisLib.Utils.MD5

open Digest

/-- The words of the hash, or the variables of the rounds. -/
structure Registers where
  a : Word
  b : Word
  c : Word
  d : Word
  deriving DecidableEq

def initial : Registers where
  a := 0x67452301#32
  b := 0xefcdab89#32
  c := 0x98badcfe#32
  d := 0x10325476#32

def s : List Nat :=
  [7, 12, 17, 22, 7, 12, 17, 22, 7, 12, 17, 22, 7, 12, 17, 22,
    5, 9, 14, 20, 5, 9, 14, 20, 5, 9, 14, 20, 5, 9, 14, 20,
    4, 11, 16, 23, 4, 11, 16, 23, 4, 11, 16, 23, 4, 11, 16, 23,
    6, 10, 15, 21, 6, 10, 15, 21, 6, 10, 15, 21, 6, 10, 15, 21]

def K : List Word :=
  [0xd76aa478, 0xe8c7b756, 0x242070db, 0xc1bdceee, 0xf57c0faf, 0x4787c62a, 0xa8304613, 0xfd469501,
    0x698098d8, 0x8b44f7af, 0xffff5bb1, 0x895cd7be, 0x6b901122, 0xfd987193, 0xa679438e, 0x49b40821,
    0xf61e2562, 0xc040b340, 0x265e5a51, 0xe9b6c7aa, 0xd62f105d, 0x02441453, 0xd8a1e681, 0xe7d3fbc8,
    0x21e1cde6, 0xc33707d6, 0xf4d50d87, 0x455a14ed, 0xa9e3e905, 0xfcefa3f8, 0x676f02d9, 0x8d2a4c8a,
    0xfffa3942, 0x8771f681, 0x6d9d6122, 0xfde5380c, 0xa4beea44, 0x4bdecfa9, 0xf6bb4b60, 0xbebfbc70,
    0x289b7ec6, 0xeaa127fa, 0xd4ef3085, 0x04881d05, 0xd9d4d039, 0xe6db99e5, 0x1fa27cf8, 0xc4ac5665,
    0xf4292244, 0x432aff97, 0xab9423a7, 0xfc93a039, 0x655b59c3, 0x8f0ccc92, 0xffeff47d, 0x85845dd1,
    0x6fa87e4f, 0xfe2ce6e0, 0xa3014314, 0x4e0811a1, 0xf7537e82, 0xbd3af235, 0x2ad7d2bb, 0xeb86d391]

def round (chunkWords : Nat → Word) (r : Registers) (i : Nat) : Registers :=
  let f :=
    if i < 16 then (r.b &&& r.c) ||| (~~~r.b &&& r.d)
    else if i < 32 then (r.d &&& r.b) ||| (~~~r.d &&& r.c)
    else if i < 48 then r.b ^^^ r.c ^^^ r.d
    else r.c ^^^ (r.b ||| ~~~r.d)
  let g :=
    if i < 16 then i
    else if i < 32 then (5 * i + 1) &&& 0x0F
    else if i < 48 then (3 * i + 5) &&& 0x0F
    else (7 * i) &&& 0x0F
  ⟨r.d, r.b + ROL (r.a + f + K.getD i 0 + chunkWords g) (s.getD i 0), r.b, r.c⟩

def mix (H : Registers) (words : List Byte) : Registers :=
  let r := (List.range 64).foldl (round (littleWord words)) H
  ⟨H.a + r.a, H.b + r.b, H.c + r.c, H.d + r.d⟩

def MD5 (input : List Byte) (size : Nat) : Hash :=
  let H := processChunks mix putLittleEndianSize input size initial
  ⟨16, [H.a, H.b, H.c, H.d]⟩

/-- The chunks that the constructor mixes in, in their order. -/
def chunks (input : List Byte) (size : Nat) : List (List Byte) :=
  chunksFed putLittleEndianSize input size

/-! ## The standard -/

def Registers.value (r : Registers) : Md5 :=
  ⟨r.a, r.b, r.c, r.d⟩

/-- The variables behind one operation of the standard on them, renamed. -/
def turned (function : Word → Word → Word → Word) (X : Nat → Word) (r : Registers) (k i : Nat) :
    Registers :=
  ⟨r.d, Md5.operation function X r.a r.b r.c r.d k (s.getD i 0) (i + 1), r.b, r.c⟩

section Rounds

variable (X : Nat → Word) (r : Registers) {i : Nat}

theorem rotated (x : Word) (i : Nat) : ROL x (s.getD i 0) = x.rotateLeft (s.getD i 0) := by
  apply ROL_eq
  have hall : ∀ shift ∈ s, shift < 32 := by decide
  by_cases hi : i < s.length
  · rw [List.getD_eq_getElem _ _ hi]
    exact hall _ (List.getElem_mem hi)
  · rw [List.getD_eq_default _ _ (Nat.not_lt.mp hi)]
    decide

theorem turned_eq (function : Word → Word → Word → Word) {f : Word} (hf : f = function r.b r.c r.d)
    (g : Nat) :
    (⟨r.d, r.b + ROL (r.a + f + K.getD i 0 + X g) (s.getD i 0), r.b, r.c⟩ : Registers) =
      turned function X r g i := by
  have hsum (a f k x : Word) : a + f + k + x = a + f + x + k := by ac_rfl
  rw [turned, Md5.operation, ← hf, rotated, hsum]
  rfl

theorem round_first (hlt : i < 16) : round X r i = turned Md5.F X r i i := by
  unfold round
  rw [if_pos hlt, if_pos hlt]
  exact turned_eq X r Md5.F rfl i

theorem round_second (hge : 16 ≤ i) (hlt : i < 32) :
    round X r i = turned Md5.G X r ((5 * i + 1) &&& 0x0F) i := by
  unfold round
  rw [if_neg (Nat.not_lt.mpr hge), if_neg (Nat.not_lt.mpr hge), if_pos hlt, if_pos hlt,
    BitVec.and_comm r.d, BitVec.and_comm (~~~r.d)]
  exact turned_eq X r Md5.G rfl _

theorem round_third (hge : 32 ≤ i) (hlt : i < 48) :
    round X r i = turned Md5.H X r ((3 * i + 5) &&& 0x0F) i := by
  have hfirst : ¬ i < 16 := by omega
  unfold round
  rw [if_neg hfirst, if_neg hfirst, if_neg (Nat.not_lt.mpr hge), if_neg (Nat.not_lt.mpr hge),
    if_pos hlt, if_pos hlt]
  exact turned_eq X r Md5.H rfl _

theorem round_fourth (hge : 48 ≤ i) : round X r i = turned Md5.I X r ((7 * i) &&& 0x0F) i := by
  have hfirst : ¬ i < 16 := by omega
  have hsecond : ¬ i < 32 := by omega
  unfold round
  rw [if_neg hfirst, if_neg hfirst, if_neg hsecond, if_neg hsecond, if_neg (Nat.not_lt.mpr hge),
    if_neg (Nat.not_lt.mpr hge)]
  exact turned_eq X r Md5.I rfl _

/-- The four operations of the standard from index `i` on, with the shifts of the code. -/
def quadrupleAt (function : Word → Word → Word → Word) (X : Nat → Word) (k : Nat → Nat) (i : Nat)
    (v : Md5) : Md5 :=
  Md5.quadruple function X (k i) (s.getD i 0) (k (i + 1)) (s.getD (i + 1) 0) (k (i + 2))
    (s.getD (i + 2) 0) (k (i + 3)) (s.getD (i + 3) 0) (i + 1) v

/-- Four rounds are four operations on the registers in turn. -/
theorem value_quadruple {function : Word → Word → Word → Word} {k : Nat → Nat} {i : Nat}
    (hround : ∀ r j, i ≤ j → j < i + 4 → round X r j = turned function X r (k j) j) :
    ((List.range' i 4).foldl (round X) r).value = quadrupleAt function X k i r.value := by
  simp only [List.range', List.foldl_cons, List.foldl_nil]
  rw [hround _ i (by omega) (by omega), hround _ (i + 1) (by omega) (by omega),
    hround _ (i + 2) (by omega) (by omega), hround _ (i + 3) (by omega) (by omega)]
  rfl

/-- Sixteen rounds with one function are a round of the standard. -/
theorem value_sixteen {function : Word → Word → Word → Word} {k : Nat → Nat} {start : Nat}
    (hround : ∀ r j, start ≤ j → j < start + 16 → round X r j = turned function X r (k j) j) :
    ((List.range' start 16).foldl (round X) r).value =
      quadrupleAt function X k (start + 12) (quadrupleAt function X k (start + 8)
        (quadrupleAt function X k (start + 4) (quadrupleAt function X k start r.value))) := by
  have hquad (i : Nat) (hge : start ≤ i) (hle : i + 4 ≤ start + 16) (r : Registers) :
      ((List.range' i 4).foldl (round X) r).value = quadrupleAt function X k i r.value :=
    value_quadruple X r fun r j hj hlt => hround r j (by omega) (by omega)
  have hsplit : List.range' start 16 = List.range' start 4 ++ (List.range' (start + 4) 4 ++
      (List.range' (start + 8) 4 ++ List.range' (start + 12) 4)) := rfl
  rw [hsplit, List.foldl_append, List.foldl_append, List.foldl_append,
    hquad (start + 12) (by omega) (by omega), hquad (start + 8) (by omega) (by omega),
    hquad (start + 4) (by omega) (by omega), hquad start (by omega) (by omega)]

theorem value_first : ((List.range' 0 16).foldl (round X) r).value = Md5.round1 X r.value := by
  have hsixteen := value_sixteen X r fun r _ _ hlt => round_first X r hlt
  rw [hsixteen]
  rfl

theorem value_second : ((List.range' 16 16).foldl (round X) r).value = Md5.round2 X r.value := by
  have hsixteen := value_sixteen X r fun r _ hge hlt => round_second X r hge hlt
  rw [hsixteen]
  rfl

theorem value_third : ((List.range' 32 16).foldl (round X) r).value = Md5.round3 X r.value := by
  have hsixteen := value_sixteen X r fun r _ hge hlt => round_third X r hge hlt
  rw [hsixteen]
  rfl

theorem value_fourth : ((List.range' 48 16).foldl (round X) r).value = Md5.round4 X r.value := by
  have hsixteen := value_sixteen X r fun r _ hge _ => round_fourth X r hge
  rw [hsixteen]
  rfl

theorem value_rounds :
    ((List.range 64).foldl (round X) r).value =
      Md5.round4 X (Md5.round3 X (Md5.round2 X (Md5.round1 X r.value))) := by
  have hsplit : List.range 64 = List.range' 0 16 ++ (List.range' 16 16 ++
      (List.range' 32 16 ++ List.range' 48 16)) := rfl
  rw [hsplit, List.foldl_append, List.foldl_append, List.foldl_append, value_fourth, value_third,
    value_second, value_first]

end Rounds

theorem value_mix (H : Registers) (words : List Byte) :
    (mix H words).value = Md5.compress H.value words := by
  rw [Md5.compress, ← value_rounds]
  rfl

theorem getDigest_MD5 (message behind : List Byte) (hsize : message.length ≤ 2 ^ 32 - 73) :
    (MD5 (message ++ behind) message.length).getDigest = Md5.digest message := by
  have hstate := value_processChunks value_mix (fun _ => rfl)
    (fun size words _ => putLittleEndianSize_eq size words) message behind hsize initial
  rw [Md5.digest]
  exact congrArg (fun hash => hash.words.flatMap littleBytes) hstate

theorem chunks_eq (message behind : List Byte) (hsize : message.length ≤ 2 ^ 32 - 73) :
    chunks (message ++ behind) message.length = blocks (padded littleField message) :=
  chunksFed_eq (fun _ => rfl) (fun size words _ => putLittleEndianSize_eq size words) message behind hsize

theorem length_getDigest (input : List Byte) (size : Nat) : (MD5 input size).getDigest.length = 16 :=
  rfl

theorem toHex_MD5 (message behind : List Byte) (hsize : message.length ≤ 2 ^ 32 - 73) :
    (MD5 (message ++ behind) message.length).toHex = hex (Md5.digest message) := by
  rw [Hash.toHex_eq _ (length_getDigest _ _), getDigest_MD5 message behind hsize]

end DumaisLib.Utils.MD5
