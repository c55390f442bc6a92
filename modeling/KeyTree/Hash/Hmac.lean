import KeyTree.Hash.Sha256
import KeyTree.Hash.Sha512

/-!
# Message authentication codes

HMAC over a SHA-2 function. The key is brought to the width of a block, and the message is taken in
parts. Main statement: `Hmac.foldl_update`, the parts count only through what they join to.
-/

namespace KeyTree

namespace Hmac

open Sha2

variable {W : Type} [Word W]

/-- The key as one block: a key longer than a block is replaced by its digest, and zeros fill up. -/
@[specialize] def blockKey (H : Sha2 W) (key : Bytes) : Bytes :=
  let key := if key.length ≤ blockBytes W then key else (H.digest key).toList
  key ++ List.replicate (blockBytes W - key.length) 0

/-- The code of a message that comes in parts. -/
@[specialize] def code (H : Sha2 W) (key : Bytes) (parts : List Bytes) :
    Vector UInt8 (8 * Word.bytes W) :=
  let key := blockKey H key
  let inner := parts.foldl (Hasher.update H) (H.start.update H (key.map (· ^^^ 0x36)))
  H.digest (key.map (· ^^^ 0x5c) ++ (inner.finish H).toList)

/-- Taking the parts one after another is taking what they join to. -/
theorem foldl_update (H : Sha2 W) (h : Hasher W) (parts : List Bytes) :
    parts.foldl (Hasher.update H) h = h.update H parts.flatten := by
  induction parts generalizing h with
  | nil => rfl
  | cons part parts ih => simp [ih, Hasher.update_append]

end Hmac

/-- HMAC-SHA256 of a message that comes in parts. -/
def hmacSha256 (key : Bytes) (parts : List Bytes) : Vector UInt8 32 :=
  Hmac.code Sha2.sha256 key parts

/-- HMAC-SHA512 of a message that comes in parts. -/
def hmacSha512 (key : Bytes) (parts : List Bytes) : Vector UInt8 64 :=
  Hmac.code Sha2.sha512 key parts

end KeyTree
