import Mathlib

/-!
# The addition law of twisted Edwards curves

The solutions of `-x² + y² = 1 + d x² y²` in a field where `-1` is a square and `d` is not. There
the addition formula has no zero denominator, and the solutions are a commutative group under it.
The identities are written with `area`, `sumSq` and `diffSq`, which stand for `x y`, `x² + y²` and
`y² - x²`; the equation then says that `diffSq` is one more than `d` times the square of `area`.

* `product_mul_self_ne_one`: the denominators are not zero.
* `eq_or_eq_neg_of_y_eq`: solutions with one y coordinate are equal or opposite.
* `crossed_equation`: the sum of two solutions is a solution.
* `numerator_mul_denominator`, `x_add_add`: a sum of three solutions has the same x coordinate when
  it is added up from the other end.
* `rotate_add`, `y_add_add`: adding the solution `(i, 0)` exchanges the coordinates up to `i`, so
  the same holds for y.
* `instAddCommGroup`: the group.
-/

namespace KeyTree.Edwards

variable {K : Type*} [Field K]

/-- A solution of `-x² + y² = 1 + d x² y²`. -/
@[ext] structure Element (d : K) where
  x : K
  y : K
  equation : y * y - x * x = 1 + d * (x * x) * (y * y)

/-- No denominator of the addition can be zero: `-1` is a square and `d` is none. -/
class Complete (d : K) : Prop where
  two_ne_zero : (2 : K) ≠ 0
  isSquare_neg_one : IsSquare (-1 : K)
  not_isSquare : ¬IsSquare d

namespace Element

variable {d : K}

/-! ## Zero and negatives -/

instance instZero : Zero (Element d) := ⟨⟨0, 1, by ring⟩⟩

instance instNeg : Neg (Element d) := ⟨fun P => ⟨-P.x, P.y, by linear_combination P.equation⟩⟩

@[simp] theorem x_zero : (0 : Element d).x = 0 := rfl

@[simp] theorem y_zero : (0 : Element d).y = 1 := rfl

@[simp] theorem x_neg (P : Element d) : (-P).x = -P.x := rfl

@[simp] theorem y_neg (P : Element d) : (-P).y = P.y := rfl

/-! ## Identities of the coordinates -/

/-- The product of the coordinates. -/
def area (P : Element d) : K := P.x * P.y

def sumSq (P : Element d) : K := P.x * P.x + P.y * P.y

def diffSq (P : Element d) : K := P.y * P.y - P.x * P.x

/-- The equation, in terms of the area. -/
theorem diffSq_eq (P : Element d) : diffSq P = 1 + d * area P ^ 2 := by
  unfold diffSq area
  linear_combination P.equation

/-- The term that the two denominators of a sum add to one and take from one. -/
def product (P Q : Element d) : K := d * (P.x * Q.x) * (P.y * Q.y)

theorem product_comm (P Q : Element d) : product P Q = product Q P := by
  unfold product
  ring

/-- If the term is one or its negative, then a square is `d` times a square. -/
theorem sq_eq_of_product {P Q : Element d} {i : K} (hi : i * i = -1)
    (hone : product P Q * product P Q = 1) :
    (i * P.x + product P Q * P.y) ^ 2 = d * (area P * (i * Q.x + Q.y)) ^ 2 := by
  unfold product at hone ⊢
  unfold area
  linear_combination (P.x ^ 2 - d * P.x ^ 2 * P.y ^ 2 * Q.x ^ 2) * hi + P.equation -
    d * P.x ^ 2 * P.y ^ 2 * Q.equation + (P.y ^ 2 - 1) * hone

/-- The numerator of the x coordinate of a sum. -/
def crossedX (P Q : Element d) : K := P.x * Q.y + P.y * Q.x

/-- The numerator of the y coordinate of a sum. -/
def crossedY (P Q : Element d) : K := P.y * Q.y + P.x * Q.x

theorem crossedX_comm (P Q : Element d) : crossedX P Q = crossedX Q P := by
  unfold crossedX
  ring

theorem crossedY_comm (P Q : Element d) : crossedY P Q = crossedY Q P := by
  unfold crossedY
  ring

/-- The equation of the sum, with its denominators multiplied out. -/
theorem crossed_equation (P Q : Element d) :
    (crossedY P Q * (1 + product P Q)) ^ 2 - (crossedX P Q * (1 - product P Q)) ^ 2 =
      ((1 + product P Q) * (1 - product P Q)) ^ 2 + d * (crossedX P Q * crossedY P Q) ^ 2 := by
  have hidentity :
      (crossedY P Q * (1 + product P Q)) ^ 2 - (crossedX P Q * (1 - product P Q)) ^ 2 -
          (((1 + product P Q) * (1 - product P Q)) ^ 2 + d * (crossedX P Q * crossedY P Q) ^ 2) =
        (diffSq Q * (1 + (d * area P * area Q) ^ 2) -
            d * area Q ^ 2 * (diffSq P + 1 + d * area P ^ 2)) *
          (diffSq P - (1 + d * area P ^ 2)) +
        (1 + d * area P ^ 2 * ((d * area P * area Q) ^ 2 - diffSq Q)) *
          (diffSq Q - (1 + d * area Q ^ 2)) := by
    unfold crossedX crossedY product area diffSq
    ring
  rw [← sub_eq_zero, hidentity, ← diffSq_eq P, ← diffSq_eq Q]
  ring

/-- What is left of the x coordinate of a sum of three if `d` is zero. -/
def crossedX₃ (P Q R : Element d) : K :=
  P.x * Q.y * R.y + P.y * Q.x * R.y + P.y * Q.y * R.x + P.x * Q.x * R.x

/-- The numerator of the x coordinate of a sum of three. -/
def numerator (P Q R : Element d) : K :=
  crossedX₃ P Q R + d * area P * area Q * crossedX₃ (-P) (-Q) R

/-- The denominator of the x coordinate of a sum of three. -/
def denominator (P Q R : Element d) : K :=
  1 - (d * area P * area Q) ^ 2 + d * area R * (area P * sumSq Q + area Q * sumSq P)

/-- The cofactor of the equation of the first solution in `numerator_mul_denominator`. -/
def outerCofactor (P Q R : Element d) : K :=
  area Q * crossedX₃ P Q R + (area Q * sumSq R + area R * sumSq Q) * crossedX₃ (-P) (-Q) R +
    d * area Q ^ 2 * area R * crossedX₃ (-R) (-Q) P

/-- One half of the cofactor of the equation of the second solution; the other half has the first
and the last solution exchanged. -/
def innerCofactor (P Q R : Element d) : K :=
  area P * (diffSq R - 1) * crossedX₃ (-P) (-Q) R

/-- The quotient does not change when the first and the last solution are exchanged. -/
theorem numerator_mul_denominator (P Q R : Element d) :
    numerator P Q R * denominator R Q P = numerator R Q P * denominator P Q R := by
  have hidentity : numerator P Q R * denominator R Q P - numerator R Q P * denominator P Q R =
      d * area Q *
        (outerCofactor R Q P * (diffSq R - (1 + d * area R ^ 2)) -
          outerCofactor P Q R * (diffSq P - (1 + d * area P ^ 2)) +
          (innerCofactor P Q R - innerCofactor R Q P) * (diffSq Q - (1 + d * area Q ^ 2))) := by
    unfold numerator denominator outerCofactor innerCofactor crossedX₃ area sumSq diffSq
    simp only [x_neg, y_neg]
    ring
  -- each of the three differences is zero on the curve
  rw [← sub_eq_zero, hidentity, ← diffSq_eq P, ← diffSq_eq Q, ← diffSq_eq R]
  ring

/-- The sum of a solution and `(i, 0)`. -/
def rotate {i : K} (hi : i * i = -1) (P : Element d) : Element d where
  x := i * P.y
  y := i * P.x
  equation := by
    linear_combination P.equation +
      (P.x * P.x - P.y * P.y - d * (P.x * P.x) * (P.y * P.y) * (i * i - 1)) * hi

/-- The solution `(i, 0)` changes the sign of the term in the denominators. -/
theorem product_rotate {i : K} (hi : i * i = -1) (P Q : Element d) :
    product (rotate hi P) Q = -product P Q := by
  unfold product rotate
  linear_combination (d * (P.x * Q.x) * (P.y * Q.y)) * hi

/-- The numerator for x becomes the one for y, up to `i`. -/
theorem crossedX_rotate {i : K} (hi : i * i = -1) (P Q : Element d) :
    crossedX (rotate hi P) Q = i * crossedY P Q := by
  unfold crossedX crossedY rotate
  ring

/-- The numerator for y becomes the one for x, up to `i`. -/
theorem crossedY_rotate {i : K} (hi : i * i = -1) (P Q : Element d) :
    crossedY (rotate hi P) Q = i * crossedX P Q := by
  unfold crossedX crossedY rotate
  ring

/-! ## Denominators -/

variable [Complete d]

/-- If the term is one or its negative, then `i x + y` is zero for the second solution: otherwise it
would show `d` to be a square. -/
theorem eq_zero_of_product {P Q : Element d} {i : K} (hi : i * i = -1)
    (hone : product P Q * product P Q = 1) : i * Q.x + Q.y = 0 := by
  by_contra hne
  have harea : area P ≠ 0 := by
    intro hzero
    have hproduct : product P Q = d * area P * area Q := by
      unfold product area
      ring
    rw [hproduct, hzero, mul_zero, zero_mul, mul_zero] at hone
    exact zero_ne_one hone
  have hden : area P * (i * Q.x + Q.y) ≠ 0 := mul_ne_zero harea hne
  apply Complete.not_isSquare (d := d)
  refine ⟨(i * P.x + product P Q * P.y) / (area P * (i * Q.x + Q.y)), ?_⟩
  rw [← sq, div_pow, sq_eq_of_product hi hone, mul_div_cancel_right₀ d (pow_ne_zero 2 hden)]

/-- The term is neither one nor its negative. -/
theorem product_mul_self_ne_one (P Q : Element d) : product P Q * product P Q ≠ 1 := by
  intro hone
  rcases Complete.isSquare_neg_one d with ⟨i, hi⟩
  -- both roots of `-1` tell the same, so y is zero and with it the term
  have hplus := eq_zero_of_product hi.symm hone
  have hminus := eq_zero_of_product (i := -i) (by rw [neg_mul_neg, ← hi]) hone
  have hy : Q.y = 0 := by
    have htwo : 2 * Q.y = 0 := by linear_combination hplus + hminus
    exact (mul_eq_zero.1 htwo).resolve_left (Complete.two_ne_zero d)
  unfold product at hone
  rw [hy, mul_zero, mul_zero, mul_zero] at hone
  exact zero_ne_one hone

/-- The denominator of the x coordinate is not zero. -/
theorem one_add_product_ne_zero (P Q : Element d) : 1 + product P Q ≠ 0 := by
  intro hzero
  apply product_mul_self_ne_one P Q
  linear_combination (product P Q - 1) * hzero

/-- The denominator of the y coordinate is not zero. -/
theorem one_sub_product_ne_zero (P Q : Element d) : 1 - product P Q ≠ 0 := by
  intro hzero
  apply product_mul_self_ne_one P Q
  linear_combination (-(product P Q) - 1) * hzero

/-! ## Solutions with one y coordinate -/

/-- What stands at the square of x in the equation is not zero: `d` would be the square of `i` over
y. -/
theorem one_add_mul_ne_zero (y : K) : 1 + d * (y * y) ≠ 0 := by
  intro hzero
  rcases Complete.isSquare_neg_one d with ⟨i, hi⟩
  have hy : y ≠ 0 := by
    rintro rfl
    rw [mul_zero, mul_zero, add_zero] at hzero
    exact one_ne_zero hzero
  apply Complete.not_isSquare (d := d)
  refine ⟨i / y, ?_⟩
  rw [div_mul_div_comm, eq_div_iff (mul_ne_zero hy hy)]
  linear_combination hzero + hi

/-- The equation tells the square of x from y. -/
theorem eq_or_eq_neg_of_y_eq {P Q : Element d} (h : P.y = Q.y) : P = Q ∨ P = -Q := by
  have hsquare : (P.x * P.x - Q.x * Q.x) * (1 + d * (Q.y * Q.y)) = 0 := by
    have hP := P.equation
    rw [h] at hP
    linear_combination Q.equation - hP
  have hx : P.x * P.x = Q.x * Q.x := by
    rcases mul_eq_zero.1 hsquare with hdiff | hfactor
    · exact sub_eq_zero.1 hdiff
    · exact absurd hfactor (one_add_mul_ne_zero Q.y)
  rcases mul_self_eq_mul_self_iff.1 hx with hsame | hopposite
  · exact .inl (Element.ext hsame h)
  · exact .inr (Element.ext hopposite h)

/-! ## Sums -/

instance instAdd : Add (Element d) where
  add P Q := {
    x := crossedX P Q / (1 + product P Q)
    y := crossedY P Q / (1 - product P Q)
    equation := by
      have hplus := one_add_product_ne_zero P Q
      have hminus := one_sub_product_ne_zero P Q
      field_simp
      linear_combination crossed_equation P Q }

theorem x_add (P Q : Element d) : (P + Q).x = crossedX P Q / (1 + product P Q) := rfl

theorem y_add (P Q : Element d) : (P + Q).y = crossedY P Q / (1 - product P Q) := rfl

/-- The x coordinate of a sum, with its denominator multiplied out. -/
theorem x_add_mul (P Q : Element d) : (P + Q).x * (1 + product P Q) = crossedX P Q :=
  div_mul_cancel₀ _ (one_add_product_ne_zero P Q)

/-- The y coordinate of a sum, with its denominator multiplied out. -/
theorem y_add_mul (P Q : Element d) : (P + Q).y * (1 - product P Q) = crossedY P Q :=
  div_mul_cancel₀ _ (one_sub_product_ne_zero P Q)

protected theorem add_comm (P Q : Element d) : P + Q = Q + P := by
  apply Element.ext
  · rw [x_add, x_add, product_comm, crossedX_comm]
  · rw [y_add, y_add, product_comm, crossedY_comm]

protected theorem zero_add (P : Element d) : 0 + P = P := by
  apply Element.ext
  · simp [x_add, crossedX, product]
  · simp [y_add, crossedY, product]

/-- The equation makes numerator and denominator of the y coordinate the same. -/
protected theorem neg_add_cancel (P : Element d) : -P + P = 0 := by
  have hx : crossedX (-P) P = 0 := by
    unfold crossedX
    rw [x_neg, y_neg]
    ring
  have hy : crossedY (-P) P = 1 - product (-P) P := by
    unfold crossedY product
    rw [x_neg, y_neg]
    linear_combination P.equation
  apply Element.ext
  · rw [x_add, hx, zero_div, x_zero]
  · rw [y_add, hy, div_self (one_sub_product_ne_zero (-P) P), y_zero]

/-! ## Three solutions -/

/-- The denominator for three solutions is the product of those of the two additions. -/
theorem denominator_eq (P Q R : Element d) :
    denominator P Q R = (1 + product P Q) * (1 - product P Q) * (1 + product (P + Q) R) := by
  have hx := x_add_mul P Q
  have hy := y_add_mul P Q
  -- the product of both coordinates of the sum, with its denominators multiplied out
  have hxy : (P + Q).x * (P + Q).y * ((1 + product P Q) * (1 - product P Q)) =
      crossedX P Q * crossedY P Q := by
    rw [← hx, ← hy]
    ring
  have hexpand : denominator P Q R =
      (1 + product P Q) * (1 - product P Q) + d * (crossedX P Q * crossedY P Q) * (R.x * R.y) := by
    unfold denominator area sumSq crossedX crossedY product
    ring
  rw [hexpand, ← hxy]
  unfold product
  ring

/-- The denominator for three solutions is not zero, since none of its factors is. -/
theorem denominator_ne_zero (P Q R : Element d) : denominator P Q R ≠ 0 := by
  rw [denominator_eq]
  exact mul_ne_zero (mul_ne_zero (one_add_product_ne_zero P Q) (one_sub_product_ne_zero P Q))
    (one_add_product_ne_zero (P + Q) R)

/-- The x coordinate of a sum of three is the quotient of the numerator and the denominator. -/
theorem x_add_add_mul (P Q R : Element d) :
    (P + Q + R).x * denominator P Q R = numerator P Q R := by
  have hexpand : numerator P Q R =
      crossedX P Q * (1 - product P Q) * R.y + crossedY P Q * (1 + product P Q) * R.x := by
    unfold numerator crossedX₃ area crossedX crossedY product
    simp only [x_neg, y_neg]
    ring
  have hsum := x_add_mul (P + Q) R
  rw [hexpand, ← x_add_mul P Q, ← y_add_mul P Q, denominator_eq]
  unfold crossedX at hsum
  linear_combination ((1 + product P Q) * (1 - product P Q)) * hsum

/-- Adding up from the other end gives the same x coordinate. -/
theorem x_add_add (P Q R : Element d) : (P + Q + R).x = (R + Q + P).x := by
  apply mul_right_cancel₀ (mul_ne_zero (denominator_ne_zero P Q R) (denominator_ne_zero R Q P))
  linear_combination denominator R Q P * x_add_add_mul P Q R -
    denominator P Q R * x_add_add_mul R Q P + numerator_mul_denominator P Q R

/-! ## Exchanging the coordinates -/

/-- Adding `(i, 0)` to a summand adds it to the sum. -/
theorem rotate_add {i : K} (hi : i * i = -1) (P Q : Element d) :
    rotate hi P + Q = rotate hi (P + Q) := by
  apply Element.ext
  · rw [x_add, product_rotate, crossedX_rotate, ← sub_eq_add_neg]
    exact mul_div_assoc i _ _
  · rw [y_add, product_rotate, crossedY_rotate, sub_neg_eq_add]
    exact mul_div_assoc i _ _

/-- Adding up from the other end gives the same y coordinate: it is the x coordinate after `(i, 0)`
has been added. -/
theorem y_add_add (P Q R : Element d) : (P + Q + R).y = (R + Q + P).y := by
  rcases Complete.isSquare_neg_one d with ⟨i, hi⟩
  have hi0 : i ≠ 0 := by
    rintro rfl
    rw [mul_zero, neg_eq_zero] at hi
    exact one_ne_zero hi
  have hx := x_add_add (rotate hi.symm P) Q R
  rw [rotate_add, rotate_add, Element.add_comm (R + Q), rotate_add, Element.add_comm P (R + Q)]
    at hx
  exact mul_left_cancel₀ hi0 hx

/-! ## The group -/

/-- Both coordinates stay when a sum of three is added up from the other end, which is all that is
left once addition commutes. -/
protected theorem add_assoc (P Q R : Element d) : P + Q + R = P + (Q + R) := by
  rw [Element.add_comm Q R, Element.add_comm P (R + Q)]
  exact Element.ext (x_add_add P Q R) (y_add_add P Q R)

instance instAddCommGroup : AddCommGroup (Element d) where
  add_assoc := Element.add_assoc
  zero_add := Element.zero_add
  add_zero P := by rw [Element.add_comm, Element.zero_add]
  neg_add_cancel := Element.neg_add_cancel
  add_comm := Element.add_comm
  nsmul := nsmulRec
  zsmul := zsmulRec

end Element

end KeyTree.Edwards
