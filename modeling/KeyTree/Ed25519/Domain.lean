import KeyTree.Eddsa

/-!
# The curve ed25519

The curve `-x² + y² = 1 + d x² y²` with `d = -121665 / 121666`, and a base point of prime order. The
whole group is eight times as large.
-/

namespace KeyTree.Ed25519

/-- The prime modulo which coordinates are computed. -/
def fieldPrime : Nat := 0x7fffffffffffffffffffffffffffffffffffffffffffffffffffffffffffffed

/-- The order of the base point. -/
def order : Nat := 0x1000000000000000000000000000000014def9dea2f79cd65812631a5cf5d3ed

instance : Modulus fieldPrime := ⟨by decide⟩

instance : Modulus order := ⟨by decide⟩

/-- The curve and its base point, the one with `y = 4 / 5` and an even `x`. -/
def domain : Eddsa fieldPrime order where
  curve := { d := 0x52036cee2b6ffe738cc740797779e89800700a4d4141d8ab75eb4dca135978a3 }
  base := {
    x := 0x216936d3cd6e53fec0a4e231fdd6dc5c692cc7609525a7b2c9562d608f25d51a
    y := 0x6666666666666666666666666666666666666666666666666666666666666658 }

end KeyTree.Ed25519
