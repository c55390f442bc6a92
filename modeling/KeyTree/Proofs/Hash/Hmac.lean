import KeyTree.Hash.Hmac
import KeyTree.Proofs.Hash.Blocks

/-!
# The code of a message by one formula

A code is computed while the message comes in: the key is brought to the width of a block, and the
parts are fed to a hasher one after another. `formula` is the value that comes out, said of the key
and of the message as a whole, with two digests of whole byte strings. It holds for keys of every
length, so that there is no key without a code.

* `code_eq_formula`: the hasher computes the formula, however the message is cut.
* `blockKey_append_zeros`, `blockKey_digest`: which keys are one key.
* `hmacSha512_eq_formula`: all of it for SHA-512, where a block has 128 bytes.
-/

namespace KeyTree.Hmac

open Sha2

/-! ## The formula -/

/-- Exclusive or, byte by byte. -/
def xorBytes (xs ys : Bytes) : Bytes := List.zipWith (· ^^^ ·) xs ys

section Formula

variable {W : Type} [Word W]

/-- The code of a message under a key of the width of a block. -/
def formula (H : Sha2 W) (key message : Bytes) : Vector UInt8 (8 * Word.bytes W) :=
  let outerPad := List.replicate (blockBytes W) 0x5c
  let innerPad := List.replicate (blockBytes W) 0x36
  H.blockDigest (xorBytes key outerPad ++
    (H.blockDigest (xorBytes key innerPad ++ message)).toList)

/-- Adding one byte over and over adds it to each byte. -/
theorem xorBytes_replicate {bytes : Bytes} {n : ℕ} (h : bytes.length = n) (b : UInt8) :
    xorBytes bytes (List.replicate n b) = bytes.map (· ^^^ b) := by
  subst h
  unfold xorBytes
  induction bytes with
  | nil => rfl
  | cons c bytes ih => simp [List.replicate_succ, ih]

/-! ## The key -/

variable (H : Sha2 W)

/-- A key that fits into a block is filled up with zeros. -/
theorem blockKey_of_le {key : Bytes} (h : key.length ≤ blockBytes W) :
    blockKey H key = key ++ List.replicate (blockBytes W - key.length) 0 := by
  unfold blockKey
  rw [if_pos h]

/-- A key that does not fit into a block is replaced by its digest, filled up with zeros. -/
theorem blockKey_of_lt {key : Bytes} (h : blockBytes W < key.length) :
    blockKey H key = (H.digest key).toList ++
      List.replicate (blockBytes W - (H.digest key).toList.length) 0 := by
  unfold blockKey
  rw [if_neg (Nat.not_le.2 h)]

/-- A digest takes half a block. -/
theorem length_digest_le (message : Bytes) : (H.digest message).toList.length ≤ blockBytes W := by
  rw [Vector.length_toList]
  unfold blockBytes
  omega

/-- What a key is turned into fills one block. -/
theorem length_blockKey (key : Bytes) : (blockKey H key).length = blockBytes W := by
  rcases Nat.lt_or_ge (blockBytes W) key.length with hlong | hshort
  · have hle := length_digest_le H key
    rw [blockKey_of_lt H hlong, List.length_append, List.length_replicate]
    omega
  · rw [blockKey_of_le H hshort, List.length_append, List.length_replicate]
    omega

/-- Zeros behind a key do not change it, as long as it is no longer than a block. -/
theorem blockKey_append_zeros {key : Bytes} {n : ℕ} (h : key.length + n ≤ blockBytes W) :
    blockKey H (key ++ List.replicate n 0) = blockKey H key := by
  have hlength : (key ++ List.replicate n (0 : UInt8)).length = key.length + n := by
    rw [List.length_append, List.length_replicate]
  have hzeros : n + (blockBytes W - (key.length + n)) = blockBytes W - key.length := by omega
  rw [blockKey_of_le H (by omega), blockKey_of_le H (by omega), hlength, List.append_assoc,
    List.replicate_append_replicate, hzeros]

/-- A key longer than a block is the same key as its digest. -/
theorem blockKey_digest {key : Bytes} (h : blockBytes W < key.length) :
    blockKey H (H.digest key).toList = blockKey H key := by
  rw [blockKey_of_le H (length_digest_le H key), blockKey_of_lt H h]

/-! ## The code -/

/-- The hasher computes the formula, however the message is cut. -/
theorem code_eq_formula (hW : 0 < blockBytes W) (key : Bytes) (parts : List Bytes) :
    code H key parts = formula H (blockKey H key) parts.flatten := by
  have hlength := length_blockKey H key
  unfold code formula
  dsimp only
  rw [xorBytes_replicate hlength, xorBytes_replicate hlength, foldl_update, ← Hasher.update_append,
    ← digest_eq_blockDigest hW, ← digest_eq_blockDigest hW]
  rfl

/-- Keys that are brought to one block have the same codes, and so do messages that join to one. -/
theorem code_congr (hW : 0 < blockBytes W) {key key' : Bytes} {parts parts' : List Bytes}
    (hkey : blockKey H key = blockKey H key') (hparts : parts.flatten = parts'.flatten) :
    code H key parts = code H key' parts' := by
  rw [code_eq_formula H hW, code_eq_formula H hW, hkey, hparts]

end Formula

/-! ## SHA-512 -/

theorem blockBytes_pos : 0 < blockBytes UInt64 := by decide

/-- HMAC-SHA512 is the formula, for every key and every message in parts: a key of at most 128 bytes
is filled up with zeros, and a longer one is replaced by its digest. The parts count only through
what they join to. A key of more than 128 bytes has the codes of its digest, and a shorter one has
the codes of its extensions by zeros up to 128 bytes. -/
theorem hmacSha512_eq_formula (key : Bytes) (parts : List Bytes) :
    (∀ message, sha512 message = Sha2.sha512.blockDigest message) ∧
    (key.length ≤ 128 → hmacSha512 key parts =
      formula Sha2.sha512 (key ++ List.replicate (128 - key.length) 0) parts.flatten) ∧
    (128 < key.length → hmacSha512 key parts =
      formula Sha2.sha512 ((sha512 key).toList ++ List.replicate 64 0) parts.flatten) ∧
    (∀ parts' : List Bytes, parts'.flatten = parts.flatten →
      hmacSha512 key parts' = hmacSha512 key parts) ∧
    (128 < key.length → hmacSha512 (sha512 key).toList parts = hmacSha512 key parts) ∧
    ∀ n, key.length + n ≤ 128 →
      hmacSha512 (key ++ List.replicate n 0) parts = hmacSha512 key parts := by
  have hcode := code_eq_formula Sha2.sha512 blockBytes_pos key parts
  refine ⟨?_, ?_, ?_, ?_, ?_, ?_⟩
  · intro message
    exact digest_eq_blockDigest blockBytes_pos Sha2.sha512 message
  · intro hshort
    rw [blockKey_of_le Sha2.sha512 hshort] at hcode
    exact hcode
  · intro hlong
    rw [blockKey_of_lt Sha2.sha512 hlong, Vector.length_toList] at hcode
    exact hcode
  · intro parts' hparts
    exact code_congr Sha2.sha512 blockBytes_pos rfl hparts
  · intro hlong
    exact code_congr Sha2.sha512 blockBytes_pos (blockKey_digest Sha2.sha512 hlong) rfl
  · intro n hn
    exact code_congr Sha2.sha512 blockBytes_pos (blockKey_append_zeros Sha2.sha512 hn) rfl

/-- A key of one byte, one that is a byte longer than a block, and a message in parts. -/
theorem hmacSha512_eq_formula_long :
    hmacSha512 [0xaa] [[1], [2, 3]] =
      formula Sha2.sha512 ([0xaa] ++ List.replicate 127 0) [1, 2, 3] ∧
    hmacSha512 ([0xaa] ++ List.replicate 127 0) [[1], [2, 3]] = hmacSha512 [0xaa] [[1], [2, 3]] ∧
    hmacSha512 [0xaa] [[], [1, 2], [3]] = hmacSha512 [0xaa] [[1], [2, 3]] ∧
    hmacSha512 (List.replicate 129 0xaa) [[1], [2, 3]] =
      formula Sha2.sha512 ((sha512 (List.replicate 129 0xaa)).toList ++ List.replicate 64 0)
        [1, 2, 3] ∧
    hmacSha512 (sha512 (List.replicate 129 0xaa)).toList [[1], [2, 3]] =
      hmacSha512 (List.replicate 129 0xaa) [[1], [2, 3]] := by
  have hlength : 128 < (List.replicate 129 (0xaa : UInt8)).length := by simp
  obtain ⟨-, hshort, -, hparts, -, hzeros⟩ := hmacSha512_eq_formula [0xaa] [[1], [2, 3]]
  obtain ⟨-, -, hlong, -, hdigest, -⟩ :=
    hmacSha512_eq_formula (List.replicate 129 0xaa) [[1], [2, 3]]
  exact ⟨hshort (by decide), hzeros 127 (by decide), hparts [[], [1, 2], [3]] rfl, hlong hlength,
    hdigest hlength⟩

end KeyTree.Hmac
