import KeyTree.EllipticCurve.Edwards

/-!
# Extended coordinates

A point `(x, y)` of a twisted Edwards curve is held as any `(X, Y, Z, T)` with `x = X / Z`,
`y = Y / Z` and `T = X Y / Z`. Sums then need no inverse, so that a multiple of a point costs one
inverse at its end; `Edwards.multiple` is computed in this way.
-/

namespace KeyTree

/-- Extended coordinates of a point. -/
structure Extended (p : Nat) where
  x : Fin p
  y : Fin p
  z : Fin p
  t : Fin p

namespace Extended

open Edwards

variable {p : Nat} [Modulus p]

/-- Coordinates of a point, with `Z = 1`. -/
def ofPoint (P : Point p) : Extended p := ⟨P.x, P.y, 1, P.x * P.y⟩

/-- The point that the coordinates stand for. -/
def toPoint (P : Extended p) : Point p :=
  let i := Modular.inverse P.z
  ⟨P.x * i, P.y * i⟩

/-- The sum of two points, the same or not. -/
def add (E : Edwards p) (P Q : Extended p) : Extended p :=
  let a := (P.y - P.x) * (Q.y - Q.x)
  let b := (P.y + P.x) * (Q.y + Q.x)
  let c := 2 * E.d * (P.t * Q.t)
  let d := 2 * (P.z * Q.z)
  ⟨(b - a) * (d - c), (d + c) * (b + a), (d - c) * (d + c), (b - a) * (b + a)⟩

end Extended

/-- The `n`-fold sum of a point. -/
def Edwards.multiple {p : Nat} [Modulus p] (E : Edwards p) (n : Nat) (P : Edwards.Point p) :
    Edwards.Point p :=
  (DoubleAndAdd.multiple (fun Q => Q.add E Q) (Extended.add E (Extended.ofPoint P))
    (Extended.ofPoint Edwards.neutral) n).toPoint

end KeyTree
