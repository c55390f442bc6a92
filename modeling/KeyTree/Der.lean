import KeyTree.Bytes.Endian

/-!
# Distinguished encoding of a pair of integers

An element is a tag, the length of its content, and the content. The distinguished rules leave one
form for each value: a length takes as few bytes as it can, and so does an integer in two's
complement. `encodePair` writes a sequence of two integers, and `readPair?` takes no other form, so
it refuses a longer length, a needless leading byte, and anything before, between or behind.
-/

namespace KeyTree.Der

/-! ## Writing -/

/-- The number of binary digits. -/
def bitLength (n : Nat) : Nat := if n = 0 then 0 else n.log2 + 1

/-- The bytes of a number, as few as will hold it. -/
def minimalBytes (n : Nat) : Bytes := (BigEndian.encode ((bitLength n + 7) / 8) n).toList

/-- A length below 128 is one byte; any other is written in as few bytes as will hold it, behind
a byte that counts them. -/
def encodeLength (n : Nat) : Bytes :=
  if n < 128 then [UInt8.ofNat n]
  else UInt8.ofNat (128 + (minimalBytes n).length) :: minimalBytes n

/-- An element with this tag and content. -/
def encodeElement (tag : UInt8) (content : Bytes) : Bytes :=
  tag :: encodeLength content.length ++ content

/-- The width of an integer in two's complement: its digits and a sign bit. -/
def width (v : Int) : Nat :=
  bitLength (if 0 ≤ v then v.toNat else (-v - 1).toNat) / 8 + 1

/-- The content of an integer: two's complement in as few bytes as will hold it. -/
def integerContent (v : Int) : Bytes :=
  (BigEndian.encode (width v) (v % byteLimit (width v)).toNat).toList

/-- The tag of an integer. -/
def integerTag : UInt8 := 0x02

/-- The tag of a sequence. -/
def sequenceTag : UInt8 := 0x30

/-- The encoding of an integer. -/
def encodeInteger (v : Int) : Bytes := encodeElement integerTag (integerContent v)

/-- The encoding of a sequence of two integers. -/
def encodePair (r s : Int) : Bytes :=
  encodeElement sequenceTag (encodeInteger r ++ encodeInteger s)

/-! ## Reading

Each reader answers what it has read and the bytes behind it. -/

/-- Reads a length. The first byte is refused when it announces no bytes (a length that is left
open) or 127 of them (which the rules reserve); the bytes behind it when there are too few of them,
when the first of them is zero, or when one byte would have done. -/
def readLength? : Bytes → Option (Nat × Bytes)
  | [] => none
  | b :: rest =>
    if b < 0x80 then some (b.toNat, rest)
    else
      let count := b.toNat - 0x80
      let n := BigEndian.decode (rest.take count)
      if count = 0 ∨ count = 127 ∨ rest.length < count then none
      else if rest.headD 0 = 0 ∨ n < 128 then none
      else some (n, rest.drop count)

/-- Reads an element with this tag, and answers its content. -/
def readElement? (tag : UInt8) : Bytes → Option (Bytes × Bytes)
  | [] => none
  | t :: rest =>
    if t = tag then do
      let (n, rest) ← readLength? rest
      if n ≤ rest.length then some (rest.take n, rest.drop n) else none
    else none

/-- The first byte repeats the sign that the second one shows already. -/
def isPadded : Bytes → Bool
  | b :: c :: _ => (b = 0x00 && c < 0x80) || (b = 0xFF && 0x80 ≤ c)
  | _ => false

/-- The number that two's complement writes. -/
def signed (content : Bytes) : Int :=
  if content.headD 0 < 0x80 then BigEndian.decode content
  else BigEndian.decode content - byteLimit content.length

/-- Reads an integer. -/
def readInteger? (bytes : Bytes) : Option (Int × Bytes) := do
  let (content, rest) ← readElement? integerTag bytes
  if content = [] ∨ isPadded content then none else some (signed content, rest)

/-- Reads a byte string that is a sequence of two integers and nothing else. -/
def readPair? (bytes : Bytes) : Option (Int × Int) := do
  let (content, rest) ← readElement? sequenceTag bytes
  let (r, content) ← readInteger? content
  let (s, content) ← readInteger? content
  if rest = [] ∧ content = [] then some (r, s) else none

end KeyTree.Der
