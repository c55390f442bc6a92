import KeyTree.Bytes.Endian
import KeyTree.Error

/-!
# Indices

A child is told from its siblings by an index: a word of 32 bits whose top bit says that the child
is hardened, and whose 31 other bits are its number. Normal indices come before hardened ones.
-/

namespace KeyTree

/-- The index of a child. -/
structure Index where
  /-- The word with the hardened bit. -/
  value : UInt32
deriving DecidableEq

namespace Index

/-- The weight of the top bit, which marks a hardened index. -/
def hardenedBit : UInt32 := 0x80000000

/-- The normal index of a number. -/
def normal (number : UInt32) : Except Error Index :=
  if number < hardenedBit then .ok ⟨number⟩
  else .error (.invalidIndex ("normal index " ++ Nat.repr number.toNat ++ " must be below 2^31"))

/-- The hardened index of a number. -/
def hardened (number : UInt32) : Except Error Index :=
  if number < hardenedBit then .ok ⟨number + hardenedBit⟩
  else .error (.invalidIndex ("hardened index " ++ Nat.repr number.toNat ++ " overflows 32 bits"))

/-- The top bit is set. -/
def isHardened (i : Index) : Bool := hardenedBit ≤ i.value

/-- The number without the top bit. -/
def number (i : Index) : UInt32 := i.value % hardenedBit

/-- The word as four bytes, the form in which an index enters a derivation. -/
def toBytes (i : Index) : Vector UInt8 4 := BigEndian.encode 4 i.value.toNat

/-! ## Order -/

instance : LE Index := ⟨fun i j => i.value ≤ j.value⟩

instance (i j : Index) : Decidable (i ≤ j) := inferInstanceAs (Decidable (i.value ≤ j.value))

/-- The indices in ascending order. -/
def sort (is : List Index) : List Index := is.mergeSort fun i j => i ≤ j

/-! ## Text -/

/-- The character that is written behind the number of a hardened index. -/
def hardenedMark : Char := '\x27'

/-- The number in decimal digits, with a mark if the index is hardened. -/
def toChars (i : Index) : List Char :=
  Nat.toDigits 10 i.number.toNat ++ if i.isHardened then [hardenedMark] else []

/-- The text of an index. -/
def render (i : Index) : String := String.ofList i.toChars

/-- The characters that mark a hardened index when text is read. -/
def isMark (c : Char) : Bool := c = hardenedMark || c = 'h' || c = 'H'

/-- A text without the mark at its end, and whether there was one. -/
def splitMark (text : List Char) : List Char × Bool :=
  match text.getLast? with
  | some c => if isMark c then (text.dropLast, true) else (text, false)
  | none => (text, false)

/-- The number of a text that holds nothing but decimal digits, at least one, if it is a word. -/
def readNumber? (text : List Char) : Option UInt32 :=
  if text ≠ [] ∧ text.all Char.isDigit then
    let n := Nat.ofDigitChars 10 text 0
    if n < UInt32.size then some (UInt32.ofNat n) else none
  else none

/-- Reads an index: digits, then a mark if it is hardened. -/
def ofChars (text : List Char) : Except Error Index :=
  let (digits, marked) := splitMark text
  match readNumber? digits with
  | none => .error (.invalidPath ("Invalid derivation path component: " ++ String.ofList text))
  | some n => if marked then hardened n else normal n

end Index

end KeyTree
