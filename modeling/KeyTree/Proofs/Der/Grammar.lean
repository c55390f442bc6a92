import KeyTree.Der
import Mathlib.Data.Int.ModEq

/-!
# The grammar of strict encodings

What a strict encoding is, said without a reader or a writer. A length is one byte, or a byte that
counts the bytes of the length, and takes no more of them than it has to. An integer is in two's
complement: it is congruent to the number that its bytes write, and it would not fit into fewer. A
pair is a sequence that holds two integers and nothing else.
-/

namespace KeyTree.Der

open BigEndian

/-! ## Lengths and elements -/

/-- The bytes write the length, and no fewer would do. Of the byte that counts the others, 127 is
reserved. -/
inductive WritesLength : Bytes → ℕ → Prop
  | short {b : UInt8} (h : b.toNat < 128) : WritesLength [b] b.toNat
  | long {count : UInt8} {digits : Bytes} (hcount : count.toNat = 128 + digits.length)
      (hfew : digits.length < 127) (hhead : digits.headD 0 ≠ 0) (hlong : 128 ≤ decode digits) :
      WritesLength (count :: digits) (decode digits)

/-- The bytes are an element with this tag and content. -/
def WritesElement (tag : UInt8) (content bytes : Bytes) : Prop :=
  ∃ length, WritesLength length content.length ∧ bytes = tag :: (length ++ content)

/-! ## Integers and pairs -/

/-- Two's complement of `w` bytes holds the integer. -/
def Fits (w : ℕ) (v : ℤ) : Prop := -(byteLimit w : ℤ) ≤ 2 * v ∧ 2 * v < byteLimit w

/-- The bytes write the integer in two's complement, and no fewer would do. -/
structure WritesContent (content : Bytes) (v : ℤ) : Prop where
  ne_nil : content ≠ []
  fits : Fits content.length v
  congr : (decode content : ℤ) ≡ v [ZMOD byteLimit content.length]
  shortest : ∀ w, 0 < w → Fits w v → content.length ≤ w

/-- The bytes are the encoding of the integer. -/
def WritesInteger (bytes : Bytes) (v : ℤ) : Prop :=
  ∃ content, WritesContent content v ∧ WritesElement 0x02 content bytes

/-- The bytes are the encoding of the sequence of the two integers. -/
def WritesPair (bytes : Bytes) (r s : ℤ) : Prop :=
  ∃ first second, WritesInteger first r ∧ WritesInteger second s ∧
    WritesElement 0x30 (first ++ second) bytes

end KeyTree.Der
