import DumaisLib.Lib.Sha
import DumaisLib.Utils.Hash

/-!
# SHA-256

Each chunk is expanded to 64 words and mixed into the eight words of the hash.
-/

set_option linter.dupNamespace false

namespace DumaisLib.Utils.SHA256

open Digest

/-- The words of the hash, or the variables of the rounds. -/
structure Registers where
  a : Word
  b : Word
  c : Word
  d : Word
  e : Word
  f : Word
  g : Word
  h : Word
  deriving DecidableEq

def initial : Registers where
  a := 0x6a09e667#32
  b := 0xbb67ae85#32
  c := 0x3c6ef372#32
  d := 0xa54ff53a#32
  e := 0x510e527f#32
  f := 0x9b05688c#32
  g := 0x1f83d9ab#32
  h := 0x5be0cd19#32

def K : List Word :=
  [0x428a2f98, 0x71374491, 0xb5c0fbcf, 0xe9b5dba5, 0x3956c25b, 0x59f111f1, 0x923f82a4, 0xab1c5ed5,
    0xd807aa98, 0x12835b01, 0x243185be, 0x550c7dc3, 0x72be5d74, 0x80deb1fe, 0x9bdc06a7, 0xc19bf174,
    0xe49b69c1, 0xefbe4786, 0x0fc19dc6, 0x240ca1cc, 0x2de92c6f, 0x4a7484aa, 0x5cb0a9dc, 0x76f988da,
    0x983e5152, 0xa831c66d, 0xb00327c8, 0xbf597fc7, 0xc6e00bf3, 0xd5a79147, 0x06ca6351, 0x14292967,
    0x27b70a85, 0x2e1b2138, 0x4d2c6dfc, 0x53380d13, 0x650a7354, 0x766a0abb, 0x81c2c92e, 0x92722c85,
    0xa2bfe8a1, 0xa81a664b, 0xc24b8b70, 0xc76c51a3, 0xd192e819, 0xd6990624, 0xf40e3585, 0x106aa070,
    0x19a4c116, 0x1e376c08, 0x2748774c, 0x34b0bcb5, 0x391c0cb3, 0x4ed8aa4a, 0x5b9cca4f, 0x682e6ff3,
    0x748f82ee, 0x78a5636f, 0x84c87814, 0x8cc70208, 0x90befffa, 0xa4506ceb, 0xbef9a3f7, 0xc67178f2]

/-- The word behind the first `i` ones. -/
def nextWord (w : List Word) (i : Nat) : Word :=
  let s0 := ROR (w.getD (i - 15) 0) 7 ^^^ ROR (w.getD (i - 15) 0) 18 ^^^ (w.getD (i - 15) 0 >>> 3)
  let s1 := ROR (w.getD (i - 2) 0) 17 ^^^ ROR (w.getD (i - 2) 0) 19 ^^^ (w.getD (i - 2) 0 >>> 10)
  w.getD (i - 16) 0 + s0 + w.getD (i - 7) 0 + s1

def expand (chunkWords : Nat → Word) : List Word :=
  (List.range' 16 48).foldl (fun w i => w ++ [nextWord w i])
    ((List.range 16).map fun i => MOVEBE (chunkWords i))

def round (w : List Word) (r : Registers) (i : Nat) : Registers :=
  let s1 := ROR r.e 6 ^^^ ROR r.e 11 ^^^ ROR r.e 25
  let ch := (r.e &&& r.f) ^^^ (~~~r.e &&& r.g)
  let t1 := r.h + s1 + ch + K.getD i 0 + w.getD i 0
  let s0 := ROR r.a 2 ^^^ ROR r.a 13 ^^^ ROR r.a 22
  let maj := (r.a &&& r.b) ^^^ (r.a &&& r.c) ^^^ (r.b &&& r.c)
  let t2 := s0 + maj
  ⟨t1 + t2, r.a, r.b, r.c, r.d + t1, r.e, r.f, r.g⟩

def mix (H : Registers) (words : List Byte) : Registers :=
  let w := expand (littleWord words)
  let r := (List.range 64).foldl (round w) H
  ⟨H.a + r.a, H.b + r.b, H.c + r.c, H.d + r.d, H.e + r.e, H.f + r.f, H.g + r.g, H.h + r.h⟩

def SHA256 (input : List Byte) (size : Nat) : Hash :=
  let H := processChunks mix putBigEndianSize input size initial
  ⟨32, [H.a, H.b, H.c, H.d, H.e, H.f, H.g, H.h].map MOVEBE⟩

/-- The chunks that the constructor mixes in, in their order. -/
def chunks (input : List Byte) (size : Nat) : List (List Byte) :=
  chunksFed putBigEndianSize input size

/-! ## The standard -/

def Registers.value (r : Registers) : Sha256 :=
  ⟨r.a, r.b, r.c, r.d, r.e, r.f, r.g, r.h⟩

theorem expand_eq (words : List Byte) :
    expand (littleWord words) = (List.range 64).map (Sha256.W words) := by
  have hfirst : (List.range 16).map (fun i => MOVEBE (littleWord words i)) =
      (List.range 16).map (Sha256.W words) := by
    refine List.map_congr_left fun i hi => ?_
    rw [MOVEBE_littleWord, Sha256.W_lt (List.mem_range.mp hi)]
  have hnext (t : Nat) (hge : 16 ≤ t) :
      nextWord ((List.range t).map (Sha256.W words)) t = Sha256.W words t := by
    have hsum (w16 s0 w7 s1 : Word) : w16 + s0 + w7 + s1 = s1 + w7 + s0 + w16 := by ac_rfl
    rw [nextWord, getD_range_map _ _ (by omega), getD_range_map _ _ (by omega),
      getD_range_map _ _ (by omega), getD_range_map _ _ (by omega), hsum, Sha256.W_ge hge]
    rfl
  rw [expand, hfirst, foldl_table hnext]

theorem value_round (words : List Byte) (r : Registers) {i : Nat} (hlt : i < 64) :
    (round (expand (littleWord words)) r i).value = Sha256.step words r.value i := by
  have hword : (expand (littleWord words)).getD i 0 = Sha256.W words i := by
    rw [expand_eq, getD_range_map _ _ hlt]
  unfold round
  rw [hword]
  rfl

theorem value_mix (H : Registers) (words : List Byte) :
    (mix H words).value = Sha256.compress H.value words := by
  have hrounds := foldl_value (fun r i hi => value_round words r (List.mem_range.mp hi)) H
  rw [Sha256.compress, ← hrounds]
  rfl

theorem getDigest_SHA256 (message behind : List Byte) (hsize : message.length ≤ 2 ^ 32 - 73) :
    (SHA256 (message ++ behind) message.length).getDigest = Sha256.digest message := by
  have hstate := value_processChunks value_mix (fun _ => rfl) (fun size _ => putBigEndianSize_eq size)
    message behind hsize initial
  rw [Sha256.digest]
  refine (Hash.getDigest_MOVEBE _ _).trans ?_
  exact congrArg (fun hash => hash.words.flatMap bigBytes) hstate

theorem chunks_eq (message behind : List Byte) (hsize : message.length ≤ 2 ^ 32 - 73) :
    chunks (message ++ behind) message.length = blocks (padded bigField message) :=
  chunksFed_eq (fun _ => rfl) (fun size _ => putBigEndianSize_eq size) message behind hsize

theorem length_getDigest (input : List Byte) (size : Nat) : (SHA256 input size).getDigest.length = 32 :=
  rfl

theorem toHex_SHA256 (message behind : List Byte) (hsize : message.length ≤ 2 ^ 32 - 73) :
    (SHA256 (message ++ behind) message.length).toHex = hex (Sha256.digest message) := by
  rw [Hash.toHex_eq _ (length_getDigest _ _), getDigest_SHA256 message behind hsize]

end DumaisLib.Utils.SHA256
