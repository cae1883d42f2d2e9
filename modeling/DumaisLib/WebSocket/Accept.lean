import DumaisLib.Utils.Base64
import DumaisLib.Utils.SHA1
import DumaisLib.WebSocket.HTTPProtocolParser

/-!
# The accept value of the handshake

The 20 bytes of the digest end in a group of two, whose last digit takes two
bits of whatever lies behind the digest in memory.
-/

namespace DumaisLib.WebSocket

open DumaisLib.Utils DumaisLib.Utils.Base64

/-- The digest that `switchProtocol` computes of the key and the magic text. -/
def acceptDigest (accept : Text) : List Byte :=
  (SHA1.SHA1 (Text.toBytes accept) (accept.length % 2 ^ 32)).getDigest

/-- The accept value, with what lies behind the digest in memory. -/
def acceptValue (behind : Nat → Byte) (accept : Text) : Text :=
  encode (memory (acceptDigest accept) behind) 20

/-- The accept value of the standard. -/
def standardAccept (accept : Text) : Text :=
  Rfc4648.base64 (acceptDigest accept)

theorem acceptValue_iff (behind : Nat → Byte) (accept : Text) :
    acceptValue behind accept = standardAccept accept ↔ (behind 0).toNat < 64 := by
  have hlength : (acceptDigest accept).length = 20 := SHA1.length_getDigest _ _
  have hiff := encode_iff (acceptDigest accept) behind
  rw [hlength] at hiff
  rw [acceptValue, standardAccept, hiff, Clear]
  simp

theorem switchProtocol_inj {digest digest' : Text → Text} (key protocol : Text) :
    HTTPProtocolParser.switchProtocol digest key protocol =
        HTTPProtocolParser.switchProtocol digest' key protocol ↔
      digest (key ++ MAGIC) = digest' (key ++ MAGIC) := by
  unfold HTTPProtocolParser.switchProtocol
  simp only [List.append_cancel_right_eq, List.append_cancel_left_eq]

/--
For every string and every content of the memory behind it, the text is the
encoding of the string exactly when the bits that the last group takes of the
next byte are zero; for the accept value these are the upper two.
-/
theorem encode_standard_iff (behind : Nat → Byte) :
    (∀ bytes : List Byte, encode (memory bytes behind) bytes.length = Rfc4648.base64 bytes ↔
      Clear bytes.length (behind 0)) ∧
    ∀ key protocol : Text,
      HTTPProtocolParser.switchProtocol (acceptValue behind) key protocol =
          HTTPProtocolParser.switchProtocol standardAccept key protocol ↔
        (behind 0).toNat < 64 :=
  ⟨fun bytes => encode_iff bytes behind, fun key protocol => by
    rw [switchProtocol_inj, acceptValue_iff]⟩

/-- The same byte in front of different ones, and the same key. -/
theorem encode_not_standard :
    encode (memory [0x66#8] fun _ => 0xFF#8) 1 = "Zv==".toList ∧
      encode (memory [0x66#8] fun _ => 0#8) 1 = "Zg==".toList ∧
      Rfc4648.base64 [0x66#8] = "Zg==".toList ∧
      acceptValue (fun _ => 0xFF#8) ("dGhlIHNhbXBsZSBub25jZQ==".toList ++ MAGIC) =
        "s3pPLMBiTxaQ9kYGzzhZRbK+xOr=".toList ∧
      acceptValue (fun _ => 0#8) ("dGhlIHNhbXBsZSBub25jZQ==".toList ++ MAGIC) =
        "s3pPLMBiTxaQ9kYGzzhZRbK+xOo=".toList := by
  decide +kernel

end DumaisLib.WebSocket
