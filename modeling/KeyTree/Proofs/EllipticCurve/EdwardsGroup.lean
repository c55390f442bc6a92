import KeyTree.EllipticCurve.Extended
import KeyTree.Proofs.Arith.PrimeField
import KeyTree.Proofs.EllipticCurve.EdwardsLaw

/-!
# The group of a twisted Edwards curve

The group of the addition law, in the coordinates that the library computes with. Sums are computed
with an inversion for each, and multiples in extended coordinates with one inversion at the end;
`Represents` says which group element extended coordinates stand for, one addition keeps it, and the
walk over the digits keeps it by induction.

* `add_coords`, `coords_neg`: the formulas are the operations of the group.
* `onCurve_iff`: the points on the curve are the group elements.
* `multiple_coords`: `E.multiple n` is the `n`-fold sum in the group, for every point and every `n`.
-/

namespace KeyTree

open KeyTree.Modular

namespace Edwards

variable {p : ℕ} [Fact p.Prime] (E : Edwards p)

/-- The group of the curve. -/
abbrev Group : Type := Element (toZMod E.d)

/-! ## Coordinates -/

/-- The point that a group element is. -/
def coords (P : E.Group) : Point p := ⟨ofZMod P.x, ofZMod P.y⟩

theorem coords_injective : Function.Injective E.coords := by
  intro P Q h
  rw [coords, coords, Point.mk.injEq, ofZMod_inj, ofZMod_inj] at h
  exact Element.ext h.1 h.2

theorem coords_neg (P : E.Group) : E.coords (-P) = -E.coords P := by
  show E.coords (-P) = ⟨-ofZMod P.x, ofZMod P.y⟩
  rw [coords, Element.x_neg, Element.y_neg, ofZMod_neg]

variable [Modulus p]

@[simp] theorem coords_zero : E.coords 0 = neutral := by
  rw [coords, neutral, Point.mk.injEq, Element.x_zero, Element.y_zero]
  exact ⟨Eq.symm (eq_ofZMod_iff.2 toZMod_zero), Eq.symm (eq_ofZMod_iff.2 toZMod_one)⟩

/-- The test on numbers is the equation of the curve over the field. -/
theorem onCurve_iff_toZMod {P : Point p} : E.OnCurve P ↔
    toZMod P.y * toZMod P.y - toZMod P.x * toZMod P.x =
      1 + toZMod E.d * (toZMod P.x * toZMod P.x) * (toZMod P.y * toZMod P.y) := by
  unfold OnCurve
  rw [← toZMod_inj]
  simp only [toZMod_sub, toZMod_add, toZMod_mul, toZMod_one]

/-- The points on the curve are the group elements. -/
theorem onCurve_iff {P : Point p} : E.OnCurve P ↔ ∃ Q : E.Group, E.coords Q = P := by
  rw [onCurve_iff_toZMod]
  constructor
  · intro h
    refine ⟨⟨toZMod P.x, toZMod P.y, h⟩, ?_⟩
    rw [coords, ofZMod_toZMod, ofZMod_toZMod]
  · rintro ⟨Q, rfl⟩
    rw [coords, toZMod_ofZMod, toZMod_ofZMod]
    exact Q.equation

/-- The group element of a point on the curve. -/
noncomputable def element {P : Point p} (h : E.OnCurve P) : E.Group := (E.onCurve_iff.1 h).choose

@[simp] theorem coords_element {P : Point p} (h : E.OnCurve P) : E.coords (E.element h) = P :=
  (E.onCurve_iff.1 h).choose_spec

/-! ## Addition -/

variable [Complete (toZMod E.d)]

/-- The formula is the addition of the group. -/
theorem add_coords (P Q : E.Group) : E.add (E.coords P) (E.coords Q) = E.coords (P + Q) := by
  have hproduct : toZMod (E.d * (ofZMod P.x * ofZMod Q.x) * (ofZMod P.y * ofZMod Q.y)) =
      Element.product P Q := by
    simp only [toZMod_mul, toZMod_ofZMod]
    rfl
  have hplus : (1 + E.d * (ofZMod P.x * ofZMod Q.x) * (ofZMod P.y * ofZMod Q.y) : Fin p) ≠ 0 := by
    rw [ne_eq, ← toZMod_eq_zero, toZMod_add, toZMod_one, hproduct]
    exact Element.one_add_product_ne_zero P Q
  have hminus : (1 - E.d * (ofZMod P.x * ofZMod Q.x) * (ofZMod P.y * ofZMod Q.y) : Fin p) ≠ 0 := by
    rw [ne_eq, ← toZMod_eq_zero, toZMod_sub, toZMod_one, hproduct]
    exact Element.one_sub_product_ne_zero P Q
  unfold add coords
  rw [Point.mk.injEq, eq_ofZMod_iff, eq_ofZMod_iff, toZMod_mul, toZMod_inverse hplus, toZMod_mul,
    toZMod_inverse hminus, toZMod_add 1, toZMod_sub 1, hproduct, toZMod_one]
  simp only [toZMod_add, toZMod_mul, toZMod_ofZMod]
  exact ⟨(div_eq_mul_inv _ _).symm, (div_eq_mul_inv _ _).symm⟩

end Edwards

/-! ## Extended coordinates -/

namespace Extended

open Edwards

variable {p : ℕ} [Modulus p] [Fact p.Prime] {E : Edwards p}

/-- The coordinates stand for the group element. The denominators are multiplied out, so that the
formulas can be compared without a division. -/
structure Represents (J : Extended p) (Q : E.Group) : Prop where
  z_ne_zero : toZMod J.z ≠ 0
  x_eq : toZMod J.x = Q.x * toZMod J.z
  y_eq : toZMod J.y = Q.y * toZMod J.z
  t_eq : toZMod J.t = Q.x * Q.y * toZMod J.z

/-- The extended coordinates of a point stand for it. -/
theorem represents_ofPoint (Q : E.Group) : (ofPoint (E.coords Q)).Represents Q := by
  have hz : toZMod (ofPoint (E.coords Q)).z = 1 := toZMod_one
  constructor
  case z_ne_zero =>
    rw [hz]
    exact one_ne_zero
  case x_eq =>
    rw [hz, mul_one]
    exact toZMod_ofZMod Q.x
  case y_eq =>
    rw [hz, mul_one]
    exact toZMod_ofZMod Q.y
  case t_eq =>
    rw [hz, mul_one]
    simp only [ofPoint, coords, toZMod_mul, toZMod_ofZMod]

/-- The division at the end gives the coordinates of the point that was stood for. -/
theorem toPoint_eq_coords {J : Extended p} {Q : E.Group} (hJ : J.Represents Q) :
    J.toPoint = E.coords Q := by
  rcases hJ with ⟨hz, hx, hy, -⟩
  have hz0 : J.z ≠ 0 := fun h => hz (toZMod_eq_zero.2 h)
  unfold toPoint coords
  rw [Point.mk.injEq, eq_ofZMod_iff, eq_ofZMod_iff, toZMod_mul, toZMod_mul, toZMod_inverse hz0, hx,
    hy]
  exact ⟨mul_inv_cancel_right₀ hz _, mul_inv_cancel_right₀ hz _⟩

variable [Complete (toZMod E.d)]

/-- Adding extended coordinates adds the group elements. -/
theorem represents_add {J K : Extended p} {P Q : E.Group} (hJ : J.Represents P)
    (hK : K.Represents Q) : (J.add E K).Represents (P + Q) := by
  rcases hJ with ⟨hJz, hJx, hJy, hJt⟩
  rcases hK with ⟨hKz, hKx, hKy, hKt⟩
  -- each coordinate is a product of two of four numbers, which are the numerators and the
  -- denominators of the sum, all times one number
  have hxnum : toZMod ((J.y + J.x) * (K.y + K.x) - (J.y - J.x) * (K.y - K.x)) =
      2 * (toZMod J.z * toZMod K.z) * Element.crossedX P Q := by
    simp only [toZMod_add, toZMod_sub, toZMod_mul, hJx, hKx, hJy, hKy]
    unfold Element.crossedX
    ring
  have hynum : toZMod ((J.y + J.x) * (K.y + K.x) + (J.y - J.x) * (K.y - K.x)) =
      2 * (toZMod J.z * toZMod K.z) * Element.crossedY P Q := by
    simp only [toZMod_add, toZMod_sub, toZMod_mul, hJx, hKx, hJy, hKy]
    unfold Element.crossedY
    ring
  have hxden : toZMod (2 * (J.z * K.z) + 2 * E.d * (J.t * K.t)) =
      2 * (toZMod J.z * toZMod K.z) * (1 + Element.product P Q) := by
    simp only [toZMod_add, toZMod_mul, toZMod_ofNat, hJt, hKt]
    unfold Element.product
    ring
  have hyden : toZMod (2 * (J.z * K.z) - 2 * E.d * (J.t * K.t)) =
      2 * (toZMod J.z * toZMod K.z) * (1 - Element.product P Q) := by
    simp only [toZMod_sub, toZMod_mul, toZMod_ofNat, hJt, hKt]
    unfold Element.product
    ring
  have hscale : 2 * (toZMod J.z * toZMod K.z) ≠ 0 :=
    mul_ne_zero (Complete.two_ne_zero (toZMod E.d)) (mul_ne_zero hJz hKz)
  unfold add
  constructor
  case z_ne_zero =>
    dsimp only
    rw [toZMod_mul, hxden, hyden]
    exact mul_ne_zero (mul_ne_zero hscale (Element.one_sub_product_ne_zero P Q))
      (mul_ne_zero hscale (Element.one_add_product_ne_zero P Q))
  case x_eq =>
    dsimp only
    rw [toZMod_mul, toZMod_mul, hxnum, hxden, hyden, ← Element.x_add_mul P Q]
    ring
  case y_eq =>
    dsimp only
    rw [toZMod_mul, toZMod_mul, hynum, hxden, hyden, ← Element.y_add_mul P Q]
    ring
  case t_eq =>
    dsimp only
    rw [toZMod_mul, toZMod_mul, hxnum, hynum, hxden, hyden, ← Element.x_add_mul P Q,
      ← Element.y_add_mul P Q]
    ring

end Extended

/-- The multiple of a point is its multiple in the group. -/
theorem Edwards.multiple_coords {p : ℕ} [Modulus p] [Fact p.Prime] {E : Edwards p}
    [Edwards.Complete (toZMod E.d)] (n : ℕ) (Q : E.Group) :
    E.multiple n (E.coords Q) = E.coords (n • Q) := by
  unfold multiple
  apply Extended.toPoint_eq_coords
  -- the invariant of the walk: after the digits of `n` the coordinates stand for `n • Q`
  refine DoubleAndAdd.multiple_rel (R := fun n (J : Extended p) => J.Represents (n • Q)) ?_ ?_ ?_ n
  · rw [zero_nsmul, ← E.coords_zero]
    exact Extended.represents_ofPoint 0
  · intro n J hJ
    rw [two_mul, add_nsmul]
    exact Extended.represents_add hJ hJ
  · intro n J hJ
    rw [succ_nsmul']
    exact Extended.represents_add (Extended.represents_ofPoint Q) hJ

end KeyTree
