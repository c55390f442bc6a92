import KeyTree.Ecdsa.Basic
import KeyTree.Proofs.EllipticCurve.Multiple

/-!
# The equation of a signature

Over a group of prime order the scalars are a field that acts on the points, and a signature
`(r, s)` of the digest `z` under the key `Q` is one for which `(z / s) • G + (r / s) • Q` shows `r`
in its x coordinate. This module takes the verifier to that equation and draws two consequences.

* `accepts_coords_iff`: the verifier checks the equation.
* `accepts_neg`: negating `s` negates the point, which keeps its x coordinate.
* `accepts_of_signWith?`: a signature made with any nonce satisfies the equation.
-/

namespace KeyTree.Ecdsa

open KeyTree.Modular KeyTree.Weierstrass

variable {p n : ℕ}

/-- A point and its negative show the same scalar. -/
theorem xScalar?_neg [Modulus n] (P : Point p) :
    (xScalar? (-P) : Option (Fin n)) = xScalar? P := by
  cases P with
  | infinity => rfl
  | affine x y => rfl

/-- What a group element shows. -/
theorem xScalar?_coords_eq_some_iff [Fact p.Prime] [Modulus n] {E : Weierstrass p} {P : E.Group}
    {r : Fin n} :
    xScalar? (E.coords P) = some r ↔ ∃ x y h, P = .some x y h ∧ x.val % n = r.val := by
  constructor
  · intro hx
    rcases P with _ | ⟨x, y, h⟩
    · exact absurd hx (by simp [coords, xScalar?])
    · rw [coords_some] at hx
      have hres : residue n x.val = r := by simpa [xScalar?] using hx
      exact ⟨x, y, h, rfl, by rw [← hres, val_residue]⟩
  · intro h
    rcases h with ⟨x, y, h, rfl, hx⟩
    rw [coords_some]
    exact congrArg some (Fin.ext hx)

/-- What a signature made with the nonce `k` consists of. -/
theorem signWith?_eq_some_iff [Modulus p] [Modulus n] {D : Ecdsa p n} {z d k r s : Fin n} :
    D.signWith? z d k = some (r, s) ↔
      xScalar? (D.baseMultiple k) = some r ∧ r ≠ 0 ∧ s ≠ 0 ∧ s = inverse k * (z + r * d) := by
  unfold signWith?
  cases hx : (xScalar? (D.baseMultiple k) : Option (Fin n)) with
  | none => simp
  | some r' =>
    rw [Option.bind_eq_bind, Option.bind_some]
    by_cases hbad : r' = 0 ∨ inverse k * (z + r' * d) = 0
    · rw [if_pos hbad]
      constructor
      · intro h
        exact absurd h (by simp)
      · intro h
        rcases h with ⟨hr, hr0, hs0, rfl⟩
        cases hr
        exact absurd hbad (not_or.2 ⟨hr0, hs0⟩)
    · rw [if_neg hbad]
      rcases not_or.1 hbad with ⟨hr0, hs0⟩
      constructor
      · intro h
        cases h
        exact ⟨rfl, hr0, hs0, rfl⟩
      · intro h
        rcases h with ⟨hr, -, -, rfl⟩
        cases hr
        rfl

variable [Fact p.Prime]

/-- The points are a group of prime order `n`, and the base point is one other than zero. -/
class PrimeOrder (D : Ecdsa p n) where
  generator : D.curve.Group
  coords_generator : D.curve.coords generator = D.base
  generator_ne_zero : generator ≠ 0
  order_nsmul : ∀ P : D.curve.Group, n • P = 0

variable (D : Ecdsa p n) [D.PrimeOrder]

/-- Scalars act on points. -/
noncomputable instance : Module (ZMod n) D.curve.Group :=
  AddCommGroup.zmodModule (PrimeOrder.order_nsmul (D := D))

/-- The base point as an element of the group. -/
def generator : D.curve.Group := PrimeOrder.generator

theorem coords_generator : D.curve.coords D.generator = D.base := PrimeOrder.coords_generator

theorem generator_ne_zero : D.generator ≠ 0 := PrimeOrder.generator_ne_zero

/-- Different scalars give different multiples of the base point. -/
theorem smul_generator_injective [Fact n.Prime] :
    Function.Injective fun k : ZMod n => k • D.generator :=
  smul_left_injective (ZMod n) D.generator_ne_zero

/-- Scalars act on points as numbers do. -/
theorem val_nsmul (k : Fin n) (P : D.curve.Group) : k.val • P = toZMod k • P := by
  exact (Nat.cast_smul_eq_nsmul (ZMod n) k.val P).symm

/-! ## The point of the equation -/

section Point

variable [Fact n.Prime]

/-- The point that the equation is about. -/
noncomputable def equationPoint (z : Fin n) (Q : D.curve.Group) (r s : Fin n) : D.curve.Group :=
  (toZMod z / toZMod s) • D.generator + (toZMod r / toZMod s) • Q

/-- Negating the second half negates the point. -/
theorem equationPoint_neg (z : Fin n) (Q : D.curve.Group) (r s : Fin n) :
    D.equationPoint z Q r (-s) = -D.equationPoint z Q r s := by
  unfold equationPoint
  rw [toZMod_neg, div_neg, div_neg, neg_smul, neg_smul, neg_add]

end Point

/-! ## Multiples by scalars -/

variable [Modulus p]

/-- The multiple of a point by a scalar is that of the group element. -/
theorem multiple_val_coords (k : Fin n) (P : D.curve.Group) :
    D.curve.multiple k.val (D.curve.coords P) = D.curve.coords (toZMod k • P) := by
  rw [multiple_coords, val_nsmul]

/-- The multiple of the base point by a scalar is that of the generator. -/
theorem baseMultiple_eq (k : Fin n) :
    D.baseMultiple k = D.curve.coords (toZMod k • D.generator) := by
  unfold baseMultiple
  rw [← coords_generator, multiple_val_coords]

/-! ## Verification -/

variable [Modulus n] [Fact n.Prime]

/-- The point that a verifier computes is the one of the equation. -/
theorem verificationPoint_coords (z : Fin n) (Q : D.curve.Group) (r : Fin n) {s : Fin n}
    (hs : s ≠ 0) :
    D.verificationPoint z (D.curve.coords Q) r s =
      D.curve.coords (D.equationPoint z Q r s) := by
  unfold verificationPoint equationPoint
  dsimp only
  rw [baseMultiple_eq, multiple_val_coords, add_coords, toZMod_mul, toZMod_mul, toZMod_inverse hs,
    div_eq_mul_inv, div_eq_mul_inv]

/-- The verifier checks the equation. -/
theorem accepts_coords_iff (z : Fin n) (Q : D.curve.Group) (r s : Fin n) :
    D.accepts z (D.curve.coords Q) r s = true ↔
      r ≠ 0 ∧ s ≠ 0 ∧ xScalar? (D.curve.coords (D.equationPoint z Q r s)) = some r := by
  unfold accepts
  by_cases hs : s = 0
  · simp [hs]
  · simp [hs, D.verificationPoint_coords z Q r hs]

/-- A pair and the one with the negated second half get the same verdict. -/
theorem accepts_neg (z : Fin n) (Q : D.curve.Group) (r s : Fin n) :
    D.accepts z (D.curve.coords Q) r (-s) = D.accepts z (D.curve.coords Q) r s := by
  rw [Bool.eq_iff_iff, accepts_coords_iff, accepts_coords_iff, equationPoint_neg, coords_neg,
    xScalar?_neg, ne_eq, ne_eq, ne_eq, neg_eq_zero_iff]

/-! ## Signatures with a given nonce -/

/-- The scalar zero leads to infinity. -/
theorem baseMultiple_zero : D.baseMultiple 0 = .infinity := by
  have hzero : (0 : ZMod n) • D.generator = 0 := zero_smul (ZMod n) D.generator
  rw [baseMultiple_eq, toZMod_zero, hzero, coords_zero]

/-- A signature made with any nonce is accepted under the public key. -/
theorem accepts_of_signWith? {z d k r s : Fin n} (h : D.signWith? z d k = some (r, s)) :
    D.accepts z (D.baseMultiple d) r s = true := by
  rcases signWith?_eq_some_iff.1 h with ⟨hr, hr0, hs0, hs⟩
  have hk0 : k ≠ 0 := by
    rintro rfl
    rw [baseMultiple_zero] at hr
    exact absurd hr (by simp [xScalar?])
  have hk : toZMod k ≠ 0 := fun h0 => hk0 (toZMod_eq_zero.1 h0)
  have hs' : toZMod s ≠ 0 := fun h0 => hs0 (toZMod_eq_zero.1 h0)
  have hsk : toZMod s * toZMod k = toZMod z + toZMod r * toZMod d := by
    rw [hs, toZMod_mul, toZMod_inverse hk0, toZMod_add, toZMod_mul]
    field_simp
  -- the equation leads back to the multiple by the nonce
  have hpoint : D.equationPoint z (toZMod d • D.generator) r s = toZMod k • D.generator := by
    unfold equationPoint
    rw [smul_smul, ← add_smul]
    congr 1
    field_simp
    linear_combination -hsk
  rw [D.baseMultiple_eq d, accepts_coords_iff, hpoint, ← baseMultiple_eq]
  exact ⟨hr0, hs0, hr⟩

end KeyTree.Ecdsa
