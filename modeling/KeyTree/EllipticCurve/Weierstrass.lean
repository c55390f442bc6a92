import KeyTree.Arith.Modular

/-!
# Curves in short Weierstrass form

The points of `y² = x³ + a x + b` over the numbers modulo a prime, with the chord and tangent
addition. `Point` says nothing about the curve; `OnCurve` does. The two modular coordinates of a
point are all that addition looks at, so a point can be added before it is known to be on the curve.
-/

namespace KeyTree

/-- The coefficients of `y² = x³ + a x + b`. -/
structure Weierstrass (p : Nat) where
  a : Fin p
  b : Fin p

namespace Weierstrass

/-- A pair of coordinates, or the point at infinity. -/
inductive Point (p : Nat) where
  | infinity
  | affine (x y : Fin p)
deriving DecidableEq

variable {p : Nat}

/-- The reflection in the x axis. -/
def Point.neg : Point p → Point p
  | .infinity => .infinity
  | .affine x y => .affine x (-y)

instance : Neg (Point p) := ⟨Point.neg⟩

@[simp] theorem neg_infinity : -(Point.infinity : Point p) = .infinity := rfl

@[simp] theorem neg_affine (x y : Fin p) : -Point.affine x y = .affine x (-y) := rfl

variable [Modulus p]

/-- The right side of the curve equation. -/
def rightSide (E : Weierstrass p) (x : Fin p) : Fin p := x * x * x + E.a * x + E.b

/-- The point is on the curve. -/
def OnCurve (E : Weierstrass p) : Point p → Prop
  | .infinity => True
  | .affine x y => y * y = E.rightSide x

instance (E : Weierstrass p) : DecidablePred E.OnCurve
  | .infinity => isTrue trivial
  | .affine _ _ => inferInstanceAs (Decidable (_ = _))

/-- The slope of the line through two points, the tangent if they are the same; none for a
vertical line. -/
def slope? (E : Weierstrass p) (x₁ y₁ x₂ y₂ : Fin p) : Option (Fin p) :=
  if x₁ ≠ x₂ then some ((y₂ - y₁) * Modular.inverse (x₂ - x₁))
  else if y₁ + y₂ = 0 then none
  else some ((3 * x₁ * x₁ + E.a) * Modular.inverse (2 * y₁))

/-- The sum of two points: the line through them meets the curve once more, and the sum is the
reflection of that point. -/
def add (E : Weierstrass p) : Point p → Point p → Point p
  | .infinity, Q => Q
  | P, .infinity => P
  | .affine x₁ y₁, .affine x₂ y₂ =>
    match E.slope? x₁ y₁ x₂ y₂ with
    | none => .infinity
    | some l =>
      let x := l * l - x₁ - x₂
      .affine x (l * (x₁ - x) - y₁)

@[simp] theorem infinity_add (E : Weierstrass p) (P : Point p) : E.add .infinity P = P := rfl

@[simp] theorem add_infinity (E : Weierstrass p) (P : Point p) : E.add P .infinity = P := by
  cases P <;> rfl

end Weierstrass

end KeyTree
