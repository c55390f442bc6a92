import KeyTree.Arith.Modular

/-!
# Curves in twisted Edwards form

The points of `-x² + y² = 1 + d x² y²` over the numbers modulo a prime. When `-1` is a square and
`d` is not, one formula adds any two points, with no point at infinity and no case for equal points.
-/

namespace KeyTree

/-- The coefficient of `-x² + y² = 1 + d x² y²`. -/
structure Edwards (p : Nat) where
  d : Fin p

namespace Edwards

/-- A pair of coordinates. -/
structure Point (p : Nat) where
  x : Fin p
  y : Fin p
deriving DecidableEq

variable {p : Nat}

/-- The reflection in the y axis. -/
def Point.neg (P : Point p) : Point p := ⟨-P.x, P.y⟩

instance : Neg (Point p) := ⟨Point.neg⟩

variable [Modulus p]

/-- The point is on the curve. -/
def OnCurve (E : Edwards p) (P : Point p) : Prop :=
  P.y * P.y - P.x * P.x = 1 + E.d * (P.x * P.x) * (P.y * P.y)

instance (E : Edwards p) : DecidablePred E.OnCurve := fun _ => inferInstanceAs (Decidable (_ = _))

/-- The neutral point of addition. -/
def neutral : Point p := ⟨0, 1⟩

/-- The sum of two points. -/
def add (E : Edwards p) (P Q : Point p) : Point p :=
  let t := E.d * (P.x * Q.x) * (P.y * Q.y)
  ⟨(P.x * Q.y + P.y * Q.x) * Modular.inverse (1 + t),
    (P.y * Q.y + P.x * Q.x) * Modular.inverse (1 - t)⟩

end Edwards

end KeyTree
