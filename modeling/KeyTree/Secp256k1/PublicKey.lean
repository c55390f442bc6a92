import KeyTree.Bytes.Endian
import KeyTree.Bytes.Hex
import KeyTree.Error
import KeyTree.Secp256k1.Domain

/-!
# Public keys on secp256k1

A public key is a point of the curve other than infinity; the type holds any point, and `Valid` says
that it is a key. A key has a compressed form, the x coordinate behind a tag that tells the parity
of y, and an uncompressed one with both coordinates. The reader also takes the hybrid form: both
coordinates behind a tag that tells the parity of y once more.
-/

namespace KeyTree.Secp256k1

/-- A public key. -/
structure PublicKey where
  point : Weierstrass.Point fieldPrime
deriving DecidableEq

namespace PublicKey

/-- The point is on the curve, and not infinity. -/
def Valid (key : PublicKey) : Prop := key.point ≠ .infinity ∧ domain.curve.OnCurve key.point

instance : DecidablePred Valid := fun _ => inferInstanceAs (Decidable (_ ∧ _))

/-! ## Writing -/

/-- The tag that tells the parity of y. -/
def parityTag (y : Coordinate) : UInt8 := if y.val % 2 = 0 then 0x02 else 0x03

/-- The tag in front of two coordinates. -/
def uncompressedTag : UInt8 := 0x04

/-- A coordinate in 32 bytes. -/
def coordinateBytes (x : Coordinate) : Bytes := (BigEndian.encode 32 x.val).toList

/-- The compressed form, 33 bytes. Infinity, which is no key, is one zero byte. -/
def compressed (key : PublicKey) : Bytes :=
  match key.point with
  | .infinity => [0]
  | .affine x y => parityTag y :: coordinateBytes x

/-- The uncompressed form, 65 bytes. Infinity, which is no key, is one zero byte. -/
def uncompressed (key : PublicKey) : Bytes :=
  match key.point with
  | .infinity => [0]
  | .affine x y => uncompressedTag :: (coordinateBytes x ++ coordinateBytes y)

/-- A description that shows the compressed form. -/
def describe (key : PublicKey) : String := Hex.tagged "PublicKey" key.compressed

/-! ## Reading -/

/-- Reads a coordinate. -/
def coordinate? (bytes : Bytes) : Option Coordinate :=
  if h : BigEndian.decode bytes < fieldPrime then some ⟨BigEndian.decode bytes, h⟩ else none

/-- The point with this x coordinate whose y coordinate has the parity of a tag. -/
def lift? (tag : UInt8) (x : Coordinate) : Option PublicKey := do
  let y ← Modular.sqrt? (domain.curve.rightSide x)
  return ⟨.affine x (if parityTag y = tag then y else -y)⟩

/-- The tag of a hybrid form that tells the parity of y. -/
def hybridTag (y : Coordinate) : UInt8 := if y.val % 2 = 0 then 0x06 else 0x07

/-- Reads a public key: the tag and the width tell which form it is. -/
def ofBytes? : Bytes → Option PublicKey
  | [] => none
  | tag :: body =>
    if body.length = 32 ∧ (tag = 0x02 ∨ tag = 0x03) then do
      let x ← coordinate? body
      lift? tag x
    else if body.length = 64 then do
      let x ← coordinate? (body.take 32)
      let y ← coordinate? (body.drop 32)
      if domain.curve.OnCurve (.affine x y) ∧ (tag = uncompressedTag ∨ tag = hybridTag y) then
        some ⟨.affine x y⟩
      else none
    else none

/-- Reads a public key. -/
def ofBytes (bytes : Bytes) : Except Error PublicKey :=
  match ofBytes? bytes with
  | some key => .ok key
  | none => .error .invalidPublicKey

end PublicKey

end KeyTree.Secp256k1
