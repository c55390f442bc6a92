/-!
# Byte strings and the numbers they write

A byte string of any length is a list of bytes; one whose width is part of its meaning (a key,
a digest, a chain code) is a vector. `BigEndian` and `LittleEndian` write a number in a given
width and read it back. Main statements: `BigEndian.decode_encode` (a number that fits is read
back) and `BigEndian.encode_decode` (so is every byte string).
-/

namespace KeyTree

/-- A byte string of any length. -/
abbrev Bytes := List UInt8

/-- The number of byte strings of a width, which is the least number that does not fit into it. -/
def byteLimit (w : Nat) : Nat := 1 <<< (8 * w)

@[simp] theorem byteLimit_zero : byteLimit 0 = 1 := rfl

/-- One more byte holds 256 times as many numbers. -/
theorem byteLimit_succ (w : Nat) : byteLimit (w + 1) = 256 * byteLimit w := by
  simp only [byteLimit, Nat.one_shiftLeft, Nat.mul_add, Nat.pow_add]
  omega

/-! ## Most significant byte first -/

namespace BigEndian

/-- The `w` low bytes of a number, the most significant one first. -/
def encode : (w : Nat) → Nat → Vector UInt8 w
  | 0, _ => #v[]
  | w + 1, n => (encode w (n / 256)).push (UInt8.ofNat n)

/-- The number that a byte string writes. -/
def decode (bytes : Bytes) : Nat :=
  bytes.foldl (fun n b => 256 * n + b.toNat) 0

@[simp] theorem decode_nil : decode [] = 0 := rfl

/-- A byte behind a string is its last digit in base 256. -/
@[simp] theorem decode_concat (bytes : Bytes) (b : UInt8) :
    decode (bytes ++ [b]) = 256 * decode bytes + b.toNat := by
  simp [decode]

/-- A string writes a number that fits into as many bytes. -/
theorem decode_lt (bytes : Bytes) : decode bytes < byteLimit bytes.length := by
  have h (n : Nat) : bytes.foldl (fun n b => 256 * n + b.toNat) n
      < (n + 1) * byteLimit bytes.length := by
    induction bytes generalizing n with
    | nil => simp
    | cons b bytes ih =>
      have hb : 256 * n + b.toNat + 1 ≤ (n + 1) * 256 := by have := b.toNat_lt; omega
      calc _ < (256 * n + b.toNat + 1) * byteLimit bytes.length := ih _
        _ ≤ (n + 1) * 256 * byteLimit bytes.length := Nat.mul_le_mul_right _ hb
        _ = _ := by rw [List.length_cons, byteLimit_succ, Nat.mul_assoc]
  simpa [decode] using h 0

/-- A number that fits into `w` bytes is read back. -/
theorem decode_encode {w n : Nat} (h : n < byteLimit w) : decode (encode w n).toList = n := by
  induction w generalizing n with
  | zero => simp_all [encode]
  | succ w ih =>
    have hq : n / 256 < byteLimit w := by rw [byteLimit_succ] at h; omega
    simp only [encode, Vector.toList_push, decode_concat, ih hq, UInt8.toNat_ofNat']
    omega

/-- A string of `w` bytes is the encoding of the number that it writes. -/
theorem encode_decode {w : Nat} (bytes : Vector UInt8 w) :
    encode w (decode bytes.toList) = bytes := by
  induction w with
  | zero => exact Vector.ext (by omega)
  | succ w ih =>
    obtain ⟨bytes, b, rfl⟩ := @Vector.exists_push _ _ bytes
    have := b.toNat_lt
    simp only [Vector.toList_push, decode_concat, encode]
    rw [show (256 * decode bytes.toList + b.toNat) / 256 = decode bytes.toList by omega, ih]
    congr 1
    exact UInt8.toNat_inj.1 (by simp)

end BigEndian

/-! ## Least significant byte first -/

namespace LittleEndian

/-- The `w` low bytes of a number, the least significant one first. -/
def encode (w n : Nat) : Vector UInt8 w :=
  (BigEndian.encode w n).reverse

/-- The number that a byte string writes. -/
def decode (bytes : Bytes) : Nat :=
  BigEndian.decode bytes.reverse

/-- A number that fits into `w` bytes is read back. -/
theorem decode_encode {w n : Nat} (h : n < byteLimit w) : decode (encode w n).toList = n := by
  simp [decode, encode, BigEndian.decode_encode h]

/-- A string of `w` bytes is the encoding of the number that it writes. -/
theorem encode_decode {w : Nat} (bytes : Vector UInt8 w) :
    encode w (decode bytes.toList) = bytes := by
  have h := BigEndian.encode_decode bytes.reverse
  simp only [Vector.toList_reverse] at h
  simp [decode, encode, h]

end LittleEndian

end KeyTree
