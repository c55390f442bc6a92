import KeyTree.EllipticCurve.Jacobian

/-!
# The elliptic curve digital signature algorithm

Signatures over a group of points that a base point of order `n` generates. Numbers modulo `n` are
scalars: a private key, a nonce, a message digest and the two halves of a signature are scalars,
and a public key is a point.
-/

namespace KeyTree

/-- A curve and the base point of the group: coordinates are modulo `p`, scalars modulo `n`. -/
structure Ecdsa (p n : Nat) where
  curve : Weierstrass p
  base : Weierstrass.Point p

namespace Ecdsa

variable {p n : Nat} [Modulus p] [Modulus n]

/-- The multiple of the base point by a scalar. -/
def baseMultiple (D : Ecdsa p n) (k : Fin n) : Weierstrass.Point p := D.curve.multiple k.val D.base

/-- The x coordinate as a scalar; none at infinity. -/
def xScalar? : Weierstrass.Point p → Option (Fin n)
  | .infinity => none
  | .affine x _ => some (Modular.residue n x.val)

/-- The signature of the digest `z` under the key `d` with the nonce `k`. A few nonces give none,
since neither half of a signature may be zero. -/
def signWith? (D : Ecdsa p n) (z d k : Fin n) : Option (Fin n × Fin n) := do
  let r ← xScalar? (D.baseMultiple k)
  let s := Modular.inverse k * (z + r * d)
  if r = 0 ∨ s = 0 then none else some (r, s)

/-- The point whose x coordinate a signature of the digest `z` has to show. -/
def verificationPoint (D : Ecdsa p n) (z : Fin n) (Q : Weierstrass.Point p) (r s : Fin n) :
    Weierstrass.Point p :=
  let w := Modular.inverse s
  D.curve.add (D.baseMultiple (z * w)) (D.curve.multiple (r * w).val Q)

/-- The pair `(r, s)` is a signature of the digest `z` under the public key `Q`. -/
def accepts (D : Ecdsa p n) (z : Fin n) (Q : Weierstrass.Point p) (r s : Fin n) : Bool :=
  r ≠ 0 && s ≠ 0 && xScalar? (D.verificationPoint z Q r s) == some r

end Ecdsa

end KeyTree
