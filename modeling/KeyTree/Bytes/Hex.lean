import KeyTree.Bytes.Endian

/-!
# Hexadecimal text

Each byte is written as two digits, the high half first. Writing uses lower-case letters; reading
takes either case, and refuses an odd number of digits and any other character. Main statements:
`decode?_encode`, written text is read back, and `encode_inj`, different byte strings have different
texts.
-/

namespace KeyTree.Hex

/-- The two digits of a byte. -/
def digits (b : UInt8) : List Char :=
  [Nat.digitChar (b.toNat / 16), Nat.digitChar (b.toNat % 16)]

/-- The lower-case hexadecimal text of a byte string. -/
def encode (bytes : Bytes) : String :=
  String.ofList (bytes.flatMap digits)

/-- The hexadecimal text in brackets behind the name of what it shows. -/
def tagged (name : String) (bytes : Bytes) : String :=
  name ++ "(" ++ encode bytes ++ ")"

/-- The value of one digit, in either case. -/
def digitValue? (c : Char) : Option Nat :=
  if '0' ≤ c ∧ c ≤ '9' then some (c.toNat - '0'.toNat)
  else if 'a' ≤ c ∧ c ≤ 'f' then some (c.toNat - 'a'.toNat + 10)
  else if 'A' ≤ c ∧ c ≤ 'F' then some (c.toNat - 'A'.toNat + 10)
  else none

/-- The bytes that a list of digits writes, two digits each. -/
def ofDigits? : List Char → Option Bytes
  | [] => some []
  | [_] => none
  | hi :: lo :: rest => do
    let h ← digitValue? hi
    let l ← digitValue? lo
    let bytes ← ofDigits? rest
    return UInt8.ofNat (16 * h + l) :: bytes

/-- The byte string that a hexadecimal text writes. -/
def decode? (text : String) : Option Bytes :=
  ofDigits? text.toList

/-- A digit that was written is read as its number. -/
theorem digitValue?_digitChar : ∀ n < 16, digitValue? (Nat.digitChar n) = some n := by
  decide

/-- The digits of a byte string are read as that byte string. -/
theorem ofDigits?_flatMap_digits (bytes : Bytes) :
    ofDigits? (bytes.flatMap digits) = some bytes := by
  induction bytes with
  | nil => rfl
  | cons b bytes ih =>
    have hb := b.toNat_lt
    have h1 := digitValue?_digitChar (b.toNat / 16) (by omega)
    have h2 := digitValue?_digitChar (b.toNat % 16) (by omega)
    simp only [List.flatMap_cons, digits, List.cons_append, List.nil_append, ofDigits?, h1, h2, ih]
    exact congrArg (fun b => some (b :: bytes)) (UInt8.toNat_inj.1 (by simp; omega))

/-- Written text is read back. -/
theorem decode?_encode (bytes : Bytes) : decode? (encode bytes) = some bytes := by
  simp [decode?, encode, ofDigits?_flatMap_digits]

/-- Different byte strings have different texts. -/
theorem encode_inj {a b : Bytes} : encode a = encode b ↔ a = b := by
  constructor
  · intro h
    have hread := decode?_encode a
    rw [h, decode?_encode, Option.some.injEq] at hread
    exact hread.symm
  · rintro rfl
    rfl

end KeyTree.Hex
