import KeyTree.EllipticCurve.Jacobian
import KeyTree.Proofs.EllipticCurve.Group

/-!
# Multiples of a point

Multiples are computed in Jacobian coordinates, with doublings and additions that never divide.
`Represents` says which group element a triple stands for. Each of the two operations keeps it
(`represents_double`, `represents_add`), the walk over the digits keeps it by induction, and one
inversion at the end reads off the coordinates:

* `multiple_coords`: `E.multiple n` is the `n`-fold sum in the group, for every point and every `n`.
-/

namespace KeyTree

open KeyTree.Modular KeyTree.Weierstrass WeierstrassCurve.Affine

variable {p : ℕ} [Modulus p] [Fact p.Prime] {E : Weierstrass p}

namespace Jacobian

/-- The triple stands for the group element. The denominators are multiplied out, so that the
formulas can be compared without a division. -/
def Represents (J : Jacobian p) : E.Group → Prop
  | .zero => J.z = 0
  | .some x y _ =>
    J.z ≠ 0 ∧ toZMod J.x = x * toZMod J.z ^ 2 ∧ toZMod J.y = y * toZMod J.z ^ 3

/-- The triples with a last coordinate of zero stand for zero. -/
theorem represents_zero {J : Jacobian p} : J.Represents (0 : E.Group) ↔ J.z = 0 := Iff.rfl

/-- A triple stands for a point when the square and the cube of its last coordinate scale x and
y. -/
theorem represents_some {J : Jacobian p} {x y : ZMod p} {h : E.toCurve.toAffine.Nonsingular x y} :
    J.Represents (.some x y h : E.Group) ↔
      J.z ≠ 0 ∧ toZMod J.x = x * toZMod J.z ^ 2 ∧ toZMod J.y = y * toZMod J.z ^ 3 := Iff.rfl

theorem represents_infinity : (infinity : Jacobian p).Represents (0 : E.Group) := by
  exact represents_zero.2 rfl

/-- The triple that a walk starts from stands for its point. -/
theorem represents_ofPoint (Q : E.Group) : (ofPoint (E.coords Q)).Represents Q := by
  rcases Q with _ | ⟨x, y, h⟩
  · exact represents_infinity
  · have h1 : toZMod (1 : Fin p) ≠ 0 := by
      rw [toZMod_one]
      exact one_ne_zero
    refine ⟨fun h0 => h1 (toZMod_eq_zero.2 h0), ?_, ?_⟩
    · simp [ofPoint, coords]
    · simp [ofPoint, coords]

/-! ## One doubling -/

/-- Doubling a triple doubles the group element. -/
theorem represents_double {J : Jacobian p} {Q : E.Group} (hJ : J.Represents Q) :
    (J.double E).Represents (Q + Q) := by
  have hz : toZMod (J.double E).z = 2 * toZMod J.y * toZMod J.z := by
    simp [double]
  rcases Q with _ | ⟨x, y, h⟩
  · rw [← Point.zero_def, represents_zero] at hJ
    rw [← Point.zero_def, add_zero, represents_zero, ← toZMod_eq_zero, hz, hJ, toZMod_zero,
      mul_zero]
  · rcases represents_some.1 hJ with ⟨hJz, hJx, hJy⟩
    have hz0 : toZMod J.z ≠ 0 := fun h0 => hJz (toZMod_eq_zero.1 h0)
    rw [hJy] at hz
    by_cases hy : y = E.toCurve.toAffine.negY x y
    · -- a point of order two: the tangent is vertical
      have hy2 : 2 * y = 0 := by
        rw [negY_toCurve] at hy
        linear_combination hy
      rw [Point.add_self_of_Y_eq hy, represents_zero, ← toZMod_eq_zero, hz]
      linear_combination toZMod J.z ^ 4 * hy2
    · have hy2 : 2 * y ≠ 0 := by
        intro h0
        apply hy
        rw [negY_toCurve]
        linear_combination h0
      -- the slope of the tangent, with its denominator multiplied out
      have hl : E.toCurve.toAffine.slope x x y y * (2 * y) = 3 * x ^ 2 + toZMod E.a := by
        rw [slope_of_Y_ne rfl hy, negY_toCurve]
        have hd : y - -y ≠ 0 := by
          rw [sub_neg_eq_add, ← two_mul]
          exact hy2
        rw [div_mul_eq_mul_div, div_eq_iff hd]
        simp only [toCurve]
        ring
      rw [Point.add_self_of_Y_ne hy, represents_some, addX_toCurve, addY_toCurve]
      generalize E.toCurve.toAffine.slope x x y y = l at hl
      refine ⟨?_, ?_, ?_⟩
      · rw [ne_eq, ← toZMod_eq_zero, hz]
        intro h0
        apply mul_ne_zero hy2 (pow_ne_zero 4 hz0)
        linear_combination h0
      · rw [hz]
        simp only [double, toZMod_sub, toZMod_add, toZMod_mul, toZMod_ofNat, hJx, hJy]
        linear_combination (-(toZMod J.z ^ 8) * (3 * x ^ 2 + toZMod E.a + l * (2 * y))) * hl
      · rw [hz]
        simp only [double, toZMod_sub, toZMod_add, toZMod_mul, toZMod_ofNat, hJx, hJy]
        linear_combination (-(toZMod J.z ^ 12) * (12 * x * y ^ 2 - ((3 * x ^ 2 + toZMod E.a) ^ 2
          + (3 * x ^ 2 + toZMod E.a) * (l * (2 * y)) + (l * (2 * y)) ^ 2))) * hl

/-! ## One addition -/

/-- Adding two triples adds the group elements. -/
theorem represents_add {J K : Jacobian p} {P Q : E.Group} (hJ : J.Represents P)
    (hK : K.Represents Q) : (J.add E K).Represents (P + Q) := by
  rcases P with _ | ⟨x₁, y₁, h₁⟩
  · have hJz : J.z = 0 := hJ
    rw [← Point.zero_def, zero_add]
    unfold add
    rw [if_pos hJz]
    exact hK
  rcases Q with _ | ⟨x₂, y₂, h₂⟩
  · have hKz : K.z = 0 := hK
    have hJz : J.z ≠ 0 := hJ.1
    rw [← Point.zero_def, add_zero]
    unfold add
    rw [if_neg hJz, if_pos hKz]
    exact hJ
  rcases represents_some.1 hJ with ⟨hJz, hJx, hJy⟩
  rcases represents_some.1 hK with ⟨hKz, hKx, hKy⟩
  have hz₁ : toZMod J.z ≠ 0 := fun h0 => hJz (toZMod_eq_zero.1 h0)
  have hz₂ : toZMod K.z ≠ 0 := fun h0 => hKz (toZMod_eq_zero.1 h0)
  -- the two differences that the formulas branch on, over a common denominator
  have hdx : toZMod (K.x * (J.z * J.z) - J.x * (K.z * K.z)) =
      (x₂ - x₁) * (toZMod J.z ^ 2 * toZMod K.z ^ 2) := by
    simp only [toZMod_sub, toZMod_mul, hJx, hKx]
    ring
  have hdy : toZMod (K.y * (J.z * J.z * J.z) - J.y * (K.z * K.z * K.z)) =
      (y₂ - y₁) * (toZMod J.z ^ 3 * toZMod K.z ^ 3) := by
    simp only [toZMod_sub, toZMod_mul, hJy, hKy]
    ring
  have hx0 : K.x * (J.z * J.z) - J.x * (K.z * K.z) = 0 ↔ x₂ = x₁ := by
    rw [← toZMod_eq_zero, hdx, mul_eq_zero, sub_eq_zero]
    exact or_iff_left (mul_ne_zero (pow_ne_zero 2 hz₁) (pow_ne_zero 2 hz₂))
  have hy0 : K.y * (J.z * J.z * J.z) - J.y * (K.z * K.z * K.z) = 0 ↔ y₂ = y₁ := by
    rw [← toZMod_eq_zero, hdy, mul_eq_zero, sub_eq_zero]
    exact or_iff_left (mul_ne_zero (pow_ne_zero 3 hz₁) (pow_ne_zero 3 hz₂))
  unfold add
  rw [if_neg hJz, if_neg hKz]
  dsimp only
  by_cases hx : x₂ = x₁
  · rw [if_pos (hx0.2 hx)]
    by_cases hy : y₂ = y₁
    · rw [if_pos (hy0.2 hy)]
      subst hx hy
      exact represents_double hJ
    · rw [if_neg fun h0 => hy (hy0.1 h0)]
      -- one x coordinate and two y coordinates: the points are opposite
      have hneg : y₁ = E.toCurve.toAffine.negY x₂ y₂ := by
        by_contra hne
        exact hy (Y_eq_of_Y_ne h₁.left h₂.left hx.symm hne).symm
      rw [Point.add_of_Y_eq hx.symm hneg]
      exact represents_infinity
  · rw [if_neg fun h0 => hx (hx0.1 h0)]
    have hx' : x₁ ≠ x₂ := fun h0 => hx h0.symm
    have hl : E.toCurve.toAffine.slope x₁ x₂ y₁ y₂ * (x₂ - x₁) = y₂ - y₁ := by
      rw [slope_of_X_ne hx', div_mul_eq_mul_div, div_eq_iff (sub_ne_zero.2 hx')]
      ring
    rw [Point.add_of_X_ne hx', represents_some, addX_toCurve, addY_toCurve]
    generalize E.toCurve.toAffine.slope x₁ x₂ y₁ y₂ = l at hl
    refine ⟨?_, ?_, ?_⟩
    · rw [ne_eq, ← toZMod_eq_zero, toZMod_mul, toZMod_mul, hdx]
      exact mul_ne_zero (mul_ne_zero hz₁ hz₂) (mul_ne_zero (sub_ne_zero.2 hx)
        (mul_ne_zero (pow_ne_zero 2 hz₁) (pow_ne_zero 2 hz₂)))
    · simp only [toZMod_sub, toZMod_mul, toZMod_ofNat, hJx, hJy, hKx, hKy]
      linear_combination (-(toZMod J.z ^ 6 * toZMod K.z ^ 6 * (y₂ - y₁ + l * (x₂ - x₁)))) * hl
    · simp only [toZMod_sub, toZMod_mul, toZMod_ofNat, hJx, hJy, hKx, hKy]
      linear_combination (-(toZMod J.z ^ 9 * toZMod K.z ^ 9 *
        ((x₂ - x₁) ^ 2 * (2 * x₁ + x₂) - ((y₂ - y₁) ^ 2 + (y₂ - y₁) * (l * (x₂ - x₁))
          + (l * (x₂ - x₁)) ^ 2)))) * hl

/-! ## Reading off the point -/

/-- The division at the end gives the coordinates of the point that was stood for. -/
theorem toPoint_eq_coords {J : Jacobian p} {Q : E.Group} (hJ : J.Represents Q) :
    J.toPoint = E.coords Q := by
  rcases Q with _ | ⟨x, y, h⟩
  · have hJz : J.z = 0 := hJ
    unfold toPoint
    rw [if_pos hJz]
    rfl
  · rcases represents_some.1 hJ with ⟨hJz, hJx, hJy⟩
    have hz0 : toZMod J.z ≠ 0 := fun h0 => hJz (toZMod_eq_zero.1 h0)
    unfold toPoint
    rw [if_neg hJz, coords_some, Point.affine.injEq, eq_ofZMod_iff, eq_ofZMod_iff]
    simp only [toZMod_mul, toZMod_inverse hJz, hJx, hJy]
    constructor
    · field_simp
    · field_simp

end Jacobian

/-- The multiple of a point is its multiple in the group. -/
theorem Weierstrass.multiple_coords (n : ℕ) (Q : E.Group) :
    E.multiple n (E.coords Q) = E.coords (n • Q) := by
  unfold multiple
  apply Jacobian.toPoint_eq_coords
  -- the invariant of the walk: after the digits of `n` the triple stands for `n • Q`
  refine DoubleAndAdd.multiple_rel (R := fun n (J : Jacobian p) => J.Represents (n • Q)) ?_ ?_ ?_ n
  · rw [zero_nsmul]
    exact Jacobian.represents_infinity
  · intro n J hJ
    rw [two_mul, add_nsmul]
    exact Jacobian.represents_double hJ
  · intro n J hJ
    rw [succ_nsmul']
    exact Jacobian.represents_add (Jacobian.represents_ofPoint Q) hJ

end KeyTree
