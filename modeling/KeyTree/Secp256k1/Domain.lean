import KeyTree.Ecdsa.Basic

/-!
# The curve secp256k1

The curve `y² = x³ + 7`, its base point, and the number of its points, which is prime.
-/

namespace KeyTree.Secp256k1

/-- The prime modulo which coordinates are computed. -/
def fieldPrime : Nat := 0xfffffffffffffffffffffffffffffffffffffffffffffffffffffffefffffc2f

/-- The number of points, and the order of the base point. -/
def order : Nat := 0xfffffffffffffffffffffffffffffffebaaedce6af48a03bbfd25e8cd0364141

instance : Modulus fieldPrime := ⟨by decide⟩

instance : Modulus order := ⟨by decide⟩

/-- A coordinate. -/
abbrev Coordinate := Fin fieldPrime

/-- A number modulo the order. -/
abbrev Scalar := Fin order

/-- The curve and its base point. -/
def domain : Ecdsa fieldPrime order where
  curve := { a := 0, b := 7 }
  base := .affine 0x79be667ef9dcbbac55a06295ce870b07029bfcdb2dce28d959f2815b16f81798
    0x483ada7726a3c4655da4fbfc0e1108a8fd17b448a68554199c47d08ffb10d4b8

end KeyTree.Secp256k1
