import KeyTree.EllipticCurve.Weierstrass
import KeyTree.Proofs.Arith.PrimeField

/-!
# The group of a curve

The points of an elliptic curve over a prime field form a group; Mathlib proves it for
`WeierstrassCurve`. `coords` writes a group element in the coordinates that the library computes
with. It is injective, its range is the set of points on the curve, and it takes the sum and the
negative of the group to the chord and tangent construction:

* `add_coords`: `E.add` is the addition of the group.
* `coords_neg`: the reflection in the x axis is the negative.
* `onCurve_iff`: the points on the curve are the group elements.

Nothing here needs the order of the group.
-/

namespace KeyTree.Weierstrass

open KeyTree.Modular WeierstrassCurve.Affine

variable {p : ℕ} [Fact p.Prime] (E : Weierstrass p)

/-- The curve over the field of `p` elements. -/
def toCurve : WeierstrassCurve (ZMod p) := ⟨0, 0, 0, toZMod E.a, toZMod E.b⟩

/-- The group of the curve. -/
abbrev Group : Type := E.toCurve.toAffine.Point

/-! ## The curve equation -/

/-- The equation of the curve, without the coefficients that a short form does not have. -/
theorem equation_iff {x y : ZMod p} :
    E.toCurve.toAffine.Equation x y ↔ y * y = x * x * x + toZMod E.a * x + toZMod E.b := by
  rw [WeierstrassCurve.Affine.equation_iff]
  simp only [toCurve, zero_mul, add_zero]
  constructor
  · intro h
    linear_combination h
  · intro h
    linear_combination h

@[simp] theorem negY_toCurve (x y : ZMod p) : E.toCurve.toAffine.negY x y = -y := by
  simp [toCurve]

@[simp] theorem addX_toCurve (x₁ x₂ l : ZMod p) :
    E.toCurve.toAffine.addX x₁ x₂ l = l * l - x₁ - x₂ := by
  simp [toCurve, sq]

@[simp] theorem addY_toCurve (x₁ x₂ y₁ l : ZMod p) :
    E.toCurve.toAffine.addY x₁ x₂ y₁ l = l * (x₁ - (l * l - x₁ - x₂)) - y₁ := by
  rw [addY, negY_toCurve, negAddY, addX_toCurve]
  ring

/-- The right side of the equation, over the field. -/
theorem toZMod_rightSide (x : Fin p) :
    toZMod (E.rightSide x) =
      toZMod x * toZMod x * toZMod x + toZMod E.a * toZMod x + toZMod E.b := by
  unfold rightSide
  simp only [toZMod_add, toZMod_mul]

/-- The discriminant of a short equation. -/
theorem Δ_toCurve : E.toCurve.Δ =
    -(16 * (4 * toZMod E.a ^ 3 + 27 * toZMod E.b ^ 2)) := by
  simp only [WeierstrassCurve.Δ, WeierstrassCurve.b₂, WeierstrassCurve.b₄, WeierstrassCurve.b₆,
    WeierstrassCurve.b₈, toCurve]
  ring

/-- A curve whose discriminant is not zero is elliptic. -/
theorem isElliptic_of_ne_zero (h : 16 * (4 * toZMod E.a ^ 3 + 27 * toZMod E.b ^ 2) ≠ 0) :
    E.toCurve.IsElliptic := by
  constructor
  rw [isUnit_iff_ne_zero, Δ_toCurve]
  exact neg_ne_zero.2 h

/-! ## Coordinates -/

/-- The point that a group element is. -/
def coords : E.Group → Point p
  | .zero => .infinity
  | .some x y _ => .affine (ofZMod x) (ofZMod y)

@[simp] theorem coords_zero : E.coords 0 = .infinity := rfl

@[simp] theorem coords_some {x y : ZMod p} (h : E.toCurve.toAffine.Nonsingular x y) :
    E.coords (.some x y h) = .affine (ofZMod x) (ofZMod y) := rfl

theorem coords_injective : Function.Injective E.coords := by
  rintro (_ | ⟨x, y, h⟩) (_ | ⟨x', y', h'⟩) heq
  · rfl
  · exact absurd heq (by simp [coords])
  · exact absurd heq (by simp [coords])
  · rw [coords_some, coords_some, Point.affine.injEq, ofZMod_inj, ofZMod_inj] at heq
    rcases heq with ⟨rfl, rfl⟩
    rfl

/-- Only zero is at infinity. -/
@[simp] theorem coords_eq_infinity {P : E.Group} : E.coords P = .infinity ↔ P = 0 := by
  rw [← coords_zero, E.coords_injective.eq_iff]

/-- The reflection in the x axis is the negative. -/
theorem coords_neg (P : E.Group) : E.coords (-P) = -E.coords P := by
  rcases P with _ | ⟨x, y, h⟩
  · rfl
  · rw [Point.neg_some, coords_some, coords_some, neg_affine, negY_toCurve, ofZMod_neg]

/-- A group element is on the curve. -/
theorem onCurve_coords (P : E.Group) : E.OnCurve (E.coords P) := by
  rcases P with _ | ⟨x, y, h⟩
  · trivial
  · show ofZMod y * ofZMod y = E.rightSide (ofZMod x)
    rw [← toZMod_inj, toZMod_mul, toZMod_rightSide, toZMod_ofZMod, toZMod_ofZMod]
    exact E.equation_iff.1 h.left

/-- The points on the curve are the group elements. -/
theorem onCurve_iff [E.toCurve.IsElliptic] {P : Point p} :
    E.OnCurve P ↔ ∃ Q : E.Group, E.coords Q = P := by
  constructor
  · intro h
    rcases P with _ | ⟨x, y⟩
    · exact ⟨0, rfl⟩
    · have heq : E.toCurve.toAffine.Equation (toZMod x) (toZMod y) := by
        have h' := congrArg toZMod (show y * y = E.rightSide x from h)
        rw [toZMod_mul, toZMod_rightSide] at h'
        exact E.equation_iff.2 h'
      exact ⟨.mk heq, by rw [Point.mk, coords_some, ofZMod_toZMod, ofZMod_toZMod]⟩
  · intro h
    rcases h with ⟨Q, rfl⟩
    exact E.onCurve_coords Q

/-- The group element of a point on the curve. -/
noncomputable def element [E.toCurve.IsElliptic] {P : Point p} (h : E.OnCurve P) : E.Group :=
  (E.onCurve_iff.1 h).choose

@[simp] theorem coords_element [E.toCurve.IsElliptic] {P : Point p} (h : E.OnCurve P) :
    E.coords (E.element h) = P :=
  (E.onCurve_iff.1 h).choose_spec

/-! ## Addition -/

variable [Modulus p]

/-- There is no slope exactly where one point is the negative of the other. -/
theorem slope?_eq_none_iff {x₁ y₁ x₂ y₂ : ZMod p} :
    E.slope? (ofZMod x₁) (ofZMod y₁) (ofZMod x₂) (ofZMod y₂) = none ↔ x₁ = x₂ ∧ y₁ = -y₂ := by
  have hy : ofZMod y₁ + ofZMod y₂ = 0 ↔ y₁ = -y₂ := by
    rw [← toZMod_eq_zero, toZMod_add, toZMod_ofZMod, toZMod_ofZMod, eq_neg_iff_add_eq_zero]
  unfold slope?
  by_cases hx : x₁ = x₂
  · rw [if_neg (not_not.2 (ofZMod_inj.2 hx))]
    by_cases h0 : y₁ = -y₂
    · rw [if_pos (hy.2 h0)]
      exact iff_of_true rfl ⟨hx, h0⟩
    · rw [if_neg fun h => h0 (hy.1 h)]
      exact iff_of_false (Option.some_ne_none _) fun h => h0 h.2
  · rw [if_pos fun h => hx (ofZMod_inj.1 h)]
    exact iff_of_false (Option.some_ne_none _) fun h => hx h.1

/-- Everywhere else the slope is the one of the line through the two points. -/
theorem slope?_eq_some {x₁ y₁ x₂ y₂ : ZMod p}
    (h₁ : E.toCurve.toAffine.Equation x₁ y₁) (h₂ : E.toCurve.toAffine.Equation x₂ y₂)
    (hxy : ¬(x₁ = x₂ ∧ y₁ = -y₂)) :
    E.slope? (ofZMod x₁) (ofZMod y₁) (ofZMod x₂) (ofZMod y₂) =
      some (ofZMod (E.toCurve.toAffine.slope x₁ x₂ y₁ y₂)) := by
  unfold slope?
  by_cases hx : x₁ = x₂
  · subst hx
    have hne : y₁ ≠ E.toCurve.toAffine.negY x₁ y₂ := by
      rw [negY_toCurve]
      exact fun h => hxy ⟨rfl, h⟩
    -- two points with one x coordinate that are not opposite are the same point
    have hy : y₁ = y₂ := Y_eq_of_Y_ne h₁ h₂ rfl hne
    subst hy
    have hy0 : 2 * y₁ ≠ 0 := by
      intro h0
      apply hne
      rw [negY_toCurve]
      linear_combination h0
    have hsum : ¬ofZMod y₁ + ofZMod y₁ = 0 := by
      rw [← toZMod_eq_zero, toZMod_add, toZMod_ofZMod, ← two_mul]
      exact hy0
    have hden : (2 : Fin p) * ofZMod y₁ ≠ 0 := by
      rw [ne_eq, ← toZMod_eq_zero, toZMod_mul, toZMod_ofNat, toZMod_ofZMod]
      exact hy0
    rw [if_neg (by simp), if_neg hsum, Option.some.injEq, eq_ofZMod_iff, slope_of_Y_ne rfl hne,
      toZMod_mul, toZMod_inverse hden, negY_toCurve]
    simp only [toZMod_add, toZMod_mul, toZMod_ofNat, toZMod_ofZMod, toCurve]
    ring
  · have hden : ofZMod x₂ - ofZMod x₁ ≠ 0 := by
      rw [ne_eq, ← toZMod_eq_zero, toZMod_sub, toZMod_ofZMod, toZMod_ofZMod, sub_eq_zero]
      exact fun h => hx h.symm
    have hx' : x₂ - x₁ ≠ 0 := sub_ne_zero.2 fun h => hx h.symm
    have hx'' : x₁ - x₂ ≠ 0 := sub_ne_zero.2 hx
    rw [if_pos (by rwa [ne_eq, ofZMod_inj]), Option.some.injEq, eq_ofZMod_iff, slope_of_X_ne hx,
      toZMod_mul, toZMod_inverse hden]
    simp only [toZMod_sub, toZMod_ofZMod]
    field_simp
    ring

/-- The chord and tangent construction is the addition of the group. -/
theorem add_coords (P Q : E.Group) :
    E.add (E.coords P) (E.coords Q) = E.coords (P + Q) := by
  rcases P with _ | ⟨x₁, y₁, h₁⟩
  · rw [← Point.zero_def, zero_add, coords_zero, infinity_add]
  · rcases Q with _ | ⟨x₂, y₂, h₂⟩
    · rw [← Point.zero_def, add_zero, coords_zero, add_infinity]
    · by_cases hxy : x₁ = x₂ ∧ y₁ = -y₂
      · -- opposite points
        have hy : y₁ = E.toCurve.toAffine.negY x₂ y₂ := by
          rw [negY_toCurve]
          exact hxy.2
        rw [Point.add_of_Y_eq hxy.1 hy, coords_some, coords_some, coords_zero, add,
          (E.slope?_eq_none_iff).2 hxy]
      · have hxy' : ¬(x₁ = x₂ ∧ y₁ = E.toCurve.toAffine.negY x₂ y₂) := by
          rwa [negY_toCurve]
        rw [Point.add_some hxy', coords_some, coords_some, coords_some, add,
          E.slope?_eq_some h₁.left h₂.left hxy, Point.affine.injEq, eq_ofZMod_iff,
          eq_ofZMod_iff]
        rw [addX_toCurve, addY_toCurve]
        simp only [toZMod_sub, toZMod_mul, toZMod_ofZMod, and_self]

end KeyTree.Weierstrass
