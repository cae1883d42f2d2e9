import DumaisLib.Utils.MD5
import DumaisLib.Utils.SHA1
import DumaisLib.Utils.SHA256

/-!
# The digests of messages

The three hashes take the blocks of the padded message, whatever lies behind it
in memory, and give the digests of their standards.
-/

namespace DumaisLib.Utils

open Digest

/--
For every message that is not too long for the computation of the number of
chunks, the chunks are the blocks of the padded message, and the text is the
digest of the standard.
-/
theorem digests_standard (message behind : List Byte) (hsize : message.length ≤ 2 ^ 32 - 73) :
    (SHA1.chunks (message ++ behind) message.length = blocks (padded bigField message) ∧
      (SHA1.SHA1 (message ++ behind) message.length).toHex = hex (Sha1.digest message)) ∧
    (SHA256.chunks (message ++ behind) message.length = blocks (padded bigField message) ∧
      (SHA256.SHA256 (message ++ behind) message.length).toHex = hex (Sha256.digest message)) ∧
    (MD5.chunks (message ++ behind) message.length = blocks (padded littleField message) ∧
      (MD5.MD5 (message ++ behind) message.length).toHex = hex (Md5.digest message)) :=
  ⟨⟨SHA1.chunks_eq message behind hsize, SHA1.toHex_SHA1 message behind hsize⟩,
    ⟨SHA256.chunks_eq message behind hsize, SHA256.toHex_SHA256 message behind hsize⟩,
    ⟨MD5.chunks_eq message behind hsize, MD5.toHex_MD5 message behind hsize⟩⟩

/-- The four bytes of `test`. -/
def testMessage : List Byte :=
  [0x74, 0x65, 0x73, 0x74]

theorem digests_standard_test :
    (SHA1.chunks (testMessage ++ [0#8]) 4 = blocks (padded bigField testMessage) ∧
      (SHA1.SHA1 (testMessage ++ [0#8]) 4).toHex = hex (Sha1.digest testMessage)) ∧
    (SHA256.chunks (testMessage ++ [0#8]) 4 = blocks (padded bigField testMessage) ∧
      (SHA256.SHA256 (testMessage ++ [0#8]) 4).toHex = hex (Sha256.digest testMessage)) ∧
    (MD5.chunks (testMessage ++ [0#8]) 4 = blocks (padded littleField testMessage) ∧
      (MD5.MD5 (testMessage ++ [0#8]) 4).toHex = hex (Md5.digest testMessage)) :=
  digests_standard testMessage [0#8] (by decide)

example : (SHA1.SHA1 testMessage 4).toHex = "a94a8fe5ccb19ba61c4c0873d391e987982fbbd3".toList := by
  decide +kernel

example : (MD5.MD5 testMessage 4).toHex = "098f6bcd4621d373cade4e832627b4f6".toList := by
  decide +kernel

end DumaisLib.Utils
