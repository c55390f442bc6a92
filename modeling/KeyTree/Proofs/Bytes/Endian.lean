import KeyTree.Bytes.Endian
import Mathlib

/-!
# Numbers in bytes, digit by digit

`decode` taken apart at the front: the leading byte is the quotient by a power of 256 and the rest
is the remainder, so that bounds on a number are bounds on its leading bytes.
-/

namespace KeyTree

/-- The numbers of `w` bytes are those of `8 w` bits. -/
theorem byteLimit_eq (w : ℕ) : byteLimit w = 2 ^ (8 * w) := by
  unfold byteLimit
  rw [Nat.one_shiftLeft]

theorem byteLimit_pos (w : ℕ) : 0 < byteLimit w := by
  rw [byteLimit_eq]
  positivity

theorem byteLimit_le {v w : ℕ} (h : v ≤ w) : byteLimit v ≤ byteLimit w := by
  rw [byteLimit_eq, byteLimit_eq]
  exact Nat.pow_le_pow_right (by norm_num) (by omega)

namespace BigEndian

/-- The string in front is shifted by the bytes behind it. -/
theorem decode_append (xs ys : Bytes) :
    decode (xs ++ ys) = decode xs * byteLimit ys.length + decode ys := by
  induction ys using List.reverseRecOn with
  | nil => simp
  | append_singleton ys y ih =>
    rw [← List.append_assoc, decode_concat, decode_concat, ih, List.length_append,
      List.length_singleton, byteLimit_succ]
    ring

/-- The byte in front is the highest digit in base 256. -/
theorem decode_cons (b : UInt8) (bytes : Bytes) :
    decode (b :: bytes) = b.toNat * byteLimit bytes.length + decode bytes := by
  have h := decode_append [b] bytes
  rw [List.singleton_append] at h
  rw [h]
  simp [decode]

/-- A number in front of fewer bytes than `B` counts is below `k * B` when its quotient is below
`k`. -/
theorem mul_add_lt_iff {q t k B : ℕ} (h : t < B) : q * B + t < k * B ↔ q < k := by
  constructor
  · intro hlt
    by_contra hk
    have hmul : k * B ≤ q * B := Nat.mul_le_mul_right B (by omega)
    omega
  · intro hlt
    have hmul : (q + 1) * B ≤ k * B := Nat.mul_le_mul_right B (by omega)
    rw [add_mul, one_mul] at hmul
    omega

/-- The leading byte is below `k` when the number is. -/
theorem decode_cons_lt_iff {b : UInt8} {bytes : Bytes} {k : ℕ} :
    decode (b :: bytes) < k * byteLimit bytes.length ↔ b.toNat < k := by
  rw [decode_cons]
  exact mul_add_lt_iff (decode_lt bytes)

/-- A byte string is the encoding, in its own width, of the number that it writes. -/
theorem toList_encode_decode (bytes : Bytes) :
    (encode bytes.length (decode bytes)).toList = bytes := by
  exact congrArg Vector.toList (encode_decode ⟨bytes.toArray, by simp⟩)

end BigEndian

end KeyTree
