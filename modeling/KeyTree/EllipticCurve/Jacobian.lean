import KeyTree.EllipticCurve.Weierstrass

/-!
# Jacobian coordinates

A point `(x, y)` is held as any `(X, Y, Z)` with `x = X / Z²` and `y = Y / Z³`, and the point at
infinity as any triple with `Z = 0`. Sums then need no inverse, so that a multiple of a point costs
one inverse at its end; `Weierstrass.multiple` is computed in this way.
-/

namespace KeyTree

/-- Jacobian coordinates of a point. -/
structure Jacobian (p : Nat) where
  x : Fin p
  y : Fin p
  z : Fin p

namespace Jacobian

open Weierstrass

variable {p : Nat} [Modulus p]

/-- The point at infinity. -/
def infinity : Jacobian p := ⟨1, 1, 0⟩

/-- Coordinates of a point, with `Z = 1` away from infinity. -/
def ofPoint : Point p → Jacobian p
  | .infinity => infinity
  | .affine x y => ⟨x, y, 1⟩

/-- The point that the coordinates stand for. -/
def toPoint (P : Jacobian p) : Point p :=
  if P.z = 0 then .infinity
  else
    let i := Modular.inverse P.z
    .affine (P.x * (i * i)) (P.y * (i * i * i))

/-- The sum of a point with itself, from the tangent. -/
def double (E : Weierstrass p) (P : Jacobian p) : Jacobian p :=
  let yy := P.y * P.y
  let zz := P.z * P.z
  let s := 4 * P.x * yy
  let m := 3 * P.x * P.x + E.a * (zz * zz)
  let x := m * m - 2 * s
  ⟨x, m * (s - x) - 8 * (yy * yy), 2 * P.y * P.z⟩

/-- The sum of two points: from the chord if their x coordinates differ. -/
def add (E : Weierstrass p) (P Q : Jacobian p) : Jacobian p :=
  if P.z = 0 then Q
  else if Q.z = 0 then P
  else
    let z₁ := P.z * P.z
    let z₂ := Q.z * Q.z
    let u := P.x * z₂
    let s := P.y * (z₂ * Q.z)
    let h := Q.x * z₁ - u
    let r := Q.y * (z₁ * P.z) - s
    if h = 0 then
      if r = 0 then P.double E else infinity
    else
      let hh := h * h
      let v := u * hh
      let x := r * r - hh * h - 2 * v
      ⟨x, r * (v - x) - s * (hh * h), P.z * Q.z * h⟩

end Jacobian

/-- The `n`-fold sum of a point. -/
def Weierstrass.multiple {p : Nat} [Modulus p] (E : Weierstrass p) (n : Nat)
    (P : Weierstrass.Point p) : Weierstrass.Point p :=
  (DoubleAndAdd.multiple (Jacobian.double E) (Jacobian.add E (Jacobian.ofPoint P))
    Jacobian.infinity n).toPoint

end KeyTree
