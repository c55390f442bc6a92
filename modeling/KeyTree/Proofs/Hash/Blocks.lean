import KeyTree.Hash.Sha2
import Mathlib

/-!
# Hashing by blocks

A hasher takes its input byte by byte and keeps the bytes that do not fill a block yet, so that it
never holds the message as a whole. `blockDigest` is the function that it computes, said of the
message as a whole: the message is padded, cut into blocks, and the blocks are compressed one after
another.

* `Absorbed.push`, `Absorbed.update`: what a hasher holds after one byte more, and after a piece.
* `digest_eq_blockDigest`: the hasher computes the digest of the padded message, block by block.
-/

namespace KeyTree.Sha2

variable {W : Type} [Word W]

/-! ## The digest of a whole message -/

/-- The first `n` blocks of a byte string. -/
def blocks (W : Type) [Word W] : (n : ℕ) → Bytes → List Bytes
  | 0, _ => []
  | n + 1, bytes => bytes.take (blockBytes W) :: blocks W n (bytes.drop (blockBytes W))

/-- A message with its padding. -/
def padded (W : Type) [Word W] (message : Bytes) : Bytes :=
  message ++ padding W message.length

/-- The digest of a message that is given as a whole. -/
def blockDigest (H : Sha2 W) (message : Bytes) : Vector UInt8 (8 * Word.bytes W) :=
  let count := (padded W message).length / blockBytes W
  ((blocks W count (padded W message)).foldl H.compress H.initial).toBytes

/-- What was joined from blocks is cut into the same blocks. -/
theorem blocks_flatten {full : List Bytes} (h : ∀ block ∈ full, block.length = blockBytes W) :
    blocks W full.length full.flatten = full := by
  induction full with
  | nil => rfl
  | cons block full ih =>
    have hblock : block.length = blockBytes W := h block List.mem_cons_self
    have hfull : ∀ b ∈ full, b.length = blockBytes W := by
      intro b hb
      exact h b (List.mem_cons_of_mem block hb)
    rw [List.length_cons, List.flatten_cons, blocks, List.take_left' hblock,
      List.drop_left' hblock, ih hfull]

theorem length_flatten_blocks {full : List Bytes}
    (h : ∀ block ∈ full, block.length = blockBytes W) :
    full.flatten.length = full.length * blockBytes W := by
  rw [List.length_flatten, List.sum_eq_card_nsmul _ (blockBytes W) (by simpa using h),
    List.length_map, smul_eq_mul]

/-- What a length lacks to the next multiple of the width of a block. -/
theorem add_fill_mod {n width : ℕ} (h : 0 < width) :
    (n + (width - n % width) % width) % width = 0 := by
  have hrest := Nat.mod_lt n h
  have hdiv := Nat.div_add_mod n width
  have hsum : n + (width - n % width) = width * (n / width + 1) := by
    rw [Nat.mul_add, Nat.mul_one]
    omega
  rw [Nat.add_mod_mod, hsum, Nat.mul_mod_right]

/-- Padding fills the last block to its end. -/
theorem length_padded_mod (hW : 0 < blockBytes W) (message : Bytes) :
    (padded W message).length % blockBytes W = 0 := by
  have hlength : (padded W message).length = message.length + 1 + 2 * Word.bytes W +
      (blockBytes W - (message.length + 1 + 2 * Word.bytes W) % blockBytes W) % blockBytes W := by
    unfold padded padding
    simp only [List.length_append, List.length_cons, List.length_replicate, Vector.length_toList]
    omega
  rw [hlength]
  exact add_fill_mod hW

/-! ## What a hasher holds -/

/-- A hasher that has taken the message: the blocks that are full are in the chain, and the bytes
behind them are pending. -/
structure Absorbed (H : Sha2 W) (full : List Bytes) (h : Hasher W) (message : Bytes) : Prop where
  length_block : ∀ block ∈ full, block.length = blockBytes W
  chain_eq : h.chain = full.foldl H.compress H.initial
  pending_lt : h.pending.size < blockBytes W
  message_eq : message = full.flatten ++ h.pending.toList
  length_eq : h.length = message.length

section Absorbed

variable {H : Sha2 W} {full : List Bytes} {h : Hasher W} {message : Bytes}

/-- A hasher at the start has taken the empty message. -/
theorem absorbed_start (hW : 0 < blockBytes W) : Absorbed H [] H.start [] where
  length_block := by simp
  chain_eq := rfl
  pending_lt := hW
  message_eq := rfl
  length_eq := rfl

/-- One byte more: it is pending, or it is the last one of a block. -/
theorem Absorbed.push (habs : Absorbed H full h message) (b : UInt8) :
    ∃ full', Absorbed H full' (h.push H b) (message ++ [b]) := by
  have hlt := habs.pending_lt
  have hsize : (h.pending.push b).size = h.pending.size + 1 := Array.size_push b
  have hmessage : message ++ [b] = full.flatten ++ (h.pending.push b).toList := by
    rw [habs.message_eq, Array.toList_push, List.append_assoc]
  unfold Hasher.push
  dsimp only
  split
  · -- the pending bytes and this one are a block, and nothing is pending behind it
    rename_i hfull
    refine ⟨full ++ [(h.pending.push b).toList], ?_, ?_, ?_, ?_, ?_⟩
    · intro block hblock
      rcases List.mem_append.1 hblock with hold | hnew
      · exact habs.length_block block hold
      · rw [List.mem_singleton.1 hnew, Array.length_toList]
        exact hfull
    · rw [List.foldl_append, ← habs.chain_eq]
      rfl
    · simp only [List.size_toArray, List.length_nil]
      omega
    · rw [hmessage]
      simp
    · simp [habs.length_eq]
  · refine ⟨full, habs.length_block, habs.chain_eq, ?_, hmessage, ?_⟩
    · show (h.pending.push b).size < blockBytes W
      omega
    · simp [habs.length_eq]

/-- A piece of the message, by its bytes. -/
theorem Absorbed.update (habs : Absorbed H full h message) (bytes : Bytes) :
    ∃ full', Absorbed H full' (h.update H bytes) (message ++ bytes) := by
  induction bytes generalizing full h message with
  | nil => exact ⟨full, by simpa using habs⟩
  | cons b bytes ih =>
    rcases habs.push b with ⟨full', habs'⟩
    rcases ih habs' with ⟨full'', habs''⟩
    rw [List.append_assoc] at habs''
    exact ⟨full'', habs''⟩

/-- When the length is a multiple of the width of a block, nothing is pending, and the chain is that
of the blocks into which the message is cut. -/
theorem Absorbed.chain_of_mod (habs : Absorbed H full h message) (hW : 0 < blockBytes W)
    (hmod : message.length % blockBytes W = 0) :
    h.chain = (blocks W (message.length / blockBytes W) message).foldl H.compress H.initial := by
  have hlt := habs.pending_lt
  have hlength : message.length = full.length * blockBytes W + h.pending.size := by
    have hrest : h.pending.toList.length = h.pending.size := Array.length_toList
    rw [habs.message_eq, List.length_append, length_flatten_blocks habs.length_block, hrest]
  have hpending : h.pending.size = 0 := by
    rw [hlength, Nat.mul_add_mod_self_right, Nat.mod_eq_of_lt hlt] at hmod
    exact hmod
  have hempty : h.pending = #[] := Array.eq_empty_of_size_eq_zero hpending
  have hmessage : message = full.flatten := by
    rw [habs.message_eq, hempty, List.append_nil]
  have hcount : message.length / blockBytes W = full.length := by
    rw [hlength, hpending, Nat.add_zero, Nat.mul_div_cancel _ hW]
  rw [habs.chain_eq, hcount, hmessage, blocks_flatten habs.length_block]

end Absorbed

/-! ## The hasher computes the digest -/

/-- The digest does not depend on how the bytes came in: it is that of the padded message, block by
block. -/
theorem digest_eq_blockDigest (hW : 0 < blockBytes W) (H : Sha2 W) (message : Bytes) :
    H.digest message = H.blockDigest message := by
  rcases (absorbed_start hW).update (H := H) message with ⟨full, habs⟩
  rcases habs.update (padding W message.length) with ⟨full', hpadded⟩
  have hlength : (H.start.update H message).length = message.length := habs.length_eq
  have hchain := hpadded.chain_of_mod hW (length_padded_mod hW message)
  unfold digest Hasher.finish blockDigest
  rw [hlength, hchain]
  rfl

end KeyTree.Sha2
