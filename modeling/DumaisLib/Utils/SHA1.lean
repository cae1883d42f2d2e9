import DumaisLib.Lib.Sha
import DumaisLib.Utils.Hash

/-!
# SHA-1

Each chunk is expanded to 80 words and mixed into the five words of the hash.
-/

set_option linter.dupNamespace false

namespace DumaisLib.Utils.SHA1

open Digest

/-- The words of the hash, or the variables of the rounds. -/
structure Registers where
  a : Word
  b : Word
  c : Word
  d : Word
  e : Word
  deriving DecidableEq

def initial : Registers where
  a := 0x67452301#32
  b := 0xEFCDAB89#32
  c := 0x98BADCFE#32
  d := 0x10325476#32
  e := 0xC3D2E1F0#32

/-- The word behind the first `i` ones. -/
def nextWord (w : List Word) (i : Nat) : Word :=
  ROL (w.getD (i - 3) 0 ^^^ w.getD (i - 8) 0 ^^^ w.getD (i - 14) 0 ^^^ w.getD (i - 16) 0) 1

def expand (chunkWords : Nat → Word) : List Word :=
  (List.range' 16 64).foldl (fun w i => w ++ [nextWord w i])
    ((List.range 16).map fun i => MOVEBE (chunkWords i))

def round (w : List Word) (r : Registers) (i : Nat) : Registers :=
  let f :=
    if i < 20 then (r.b &&& r.c) ||| (~~~r.b &&& r.d)
    else if i < 40 then r.b ^^^ r.c ^^^ r.d
    else if i < 60 then (r.b &&& r.c) ||| (r.b &&& r.d) ||| (r.c &&& r.d)
    else r.b ^^^ r.c ^^^ r.d
  let k :=
    if i < 20 then 0x5a827999#32
    else if i < 40 then 0x6ed9eba1#32
    else if i < 60 then 0x8f1bbcdc#32
    else 0xca62c1d6#32
  ⟨ROL r.a 5 + f + r.e + k + w.getD i 0, r.a, ROL r.b 30, r.c, r.d⟩

def mix (H : Registers) (words : List Byte) : Registers :=
  let w := expand (littleWord words)
  let r := (List.range 80).foldl (round w) H
  ⟨H.a + r.a, H.b + r.b, H.c + r.c, H.d + r.d, H.e + r.e⟩

def SHA1 (input : List Byte) (size : Nat) : Hash :=
  let H := processChunks mix putBigEndianSize input size initial
  ⟨20, [H.a, H.b, H.c, H.d, H.e].map MOVEBE⟩

/-- The chunks that the constructor mixes in, in their order. -/
def chunks (input : List Byte) (size : Nat) : List (List Byte) :=
  chunksFed putBigEndianSize input size

/-! ## The standard -/

def Registers.value (r : Registers) : Sha1 :=
  ⟨r.a, r.b, r.c, r.d, r.e⟩

theorem expand_eq (words : List Byte) :
    expand (littleWord words) = (List.range 80).map (Sha1.W words) := by
  have hfirst : (List.range 16).map (fun i => MOVEBE (littleWord words i)) =
      (List.range 16).map (Sha1.W words) := by
    refine List.map_congr_left fun i hi => ?_
    rw [MOVEBE_littleWord, Sha1.W_lt (List.mem_range.mp hi)]
  have hnext (t : Nat) (hge : 16 ≤ t) :
      nextWord ((List.range t).map (Sha1.W words)) t = Sha1.W words t := by
    rw [nextWord, ROL_eq _ (by decide), Sha1.W_ge hge, getD_range_map _ _ (by omega),
      getD_range_map _ _ (by omega), getD_range_map _ _ (by omega), getD_range_map _ _ (by omega)]
  rw [expand, hfirst, foldl_table hnext]

theorem value_round (words : List Byte) (r : Registers) {i : Nat} (hlt : i < 80) :
    (round (expand (littleWord words)) r i).value = Sha1.step words r.value i := by
  have hword : (expand (littleWord words)).getD i 0 = Sha1.W words i := by
    rw [expand_eq, getD_range_map _ _ hlt]
  unfold round Sha1.step Registers.value
  rw [hword, ROL_eq _ (by decide), ROL_eq _ (by decide), Sha1.f, Sha1.K, ← Sha.ch_eq_or,
    ← Sha.maj_eq_or]
  split
  · rfl
  · split
    · rfl
    · split
      · rfl
      · rfl

theorem value_mix (H : Registers) (words : List Byte) :
    (mix H words).value = Sha1.compress H.value words := by
  have hrounds := foldl_value (fun r i hi => value_round words r (List.mem_range.mp hi)) H
  rw [Sha1.compress, ← hrounds]
  rfl

theorem getDigest_SHA1 (message behind : List Byte) (hsize : message.length ≤ 2 ^ 32 - 73) :
    (SHA1 (message ++ behind) message.length).getDigest = Sha1.digest message := by
  have hstate := value_processChunks value_mix (fun _ => rfl) (fun size _ => putBigEndianSize_eq size)
    message behind hsize initial
  rw [Sha1.digest]
  refine (Hash.getDigest_MOVEBE _ _).trans ?_
  exact congrArg (fun hash => hash.words.flatMap bigBytes) hstate

theorem chunks_eq (message behind : List Byte) (hsize : message.length ≤ 2 ^ 32 - 73) :
    chunks (message ++ behind) message.length = blocks (padded bigField message) :=
  chunksFed_eq (fun _ => rfl) (fun size _ => putBigEndianSize_eq size) message behind hsize

theorem length_getDigest (input : List Byte) (size : Nat) : (SHA1 input size).getDigest.length = 20 :=
  rfl

theorem toHex_SHA1 (message behind : List Byte) (hsize : message.length ≤ 2 ^ 32 - 73) :
    (SHA1 (message ++ behind) message.length).toHex = hex (Sha1.digest message) := by
  rw [Hash.toHex_eq _ (length_getDigest _ _), getDigest_SHA1 message behind hsize]

end DumaisLib.Utils.SHA1
