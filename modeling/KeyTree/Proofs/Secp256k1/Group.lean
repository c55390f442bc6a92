import KeyTree.Proofs.Arith.Primality
import KeyTree.Proofs.Ecdsa.Equation
import KeyTree.Proofs.EllipticCurve.Order
import KeyTree.Secp256k1.Domain
import Mathlib

/-!
# The group of secp256k1

The points of the curve form a group of prime order that the base point generates. Nothing of it is
assumed: the two primes have certificates, the kernel computes that the order kills the base point,
and the count of the points follows since `-7` is no cube and so no point has order two.

* `natCard_group`: there are `order` points.
* `primeOrder`: the order kills every point, so that scalars act on points.
-/

namespace KeyTree.Secp256k1

open KeyTree.Modular KeyTree.Weierstrass KeyTree.Primality

/-! ## The two primes -/

/-- The primes below `10^5` that the certificate starts from. -/
def smallPrimes : List ℕ :=
  [2, 3, 5, 7, 11, 17, 19, 29, 31, 41, 53, 59, 97, 109, 113, 149, 293, 461, 631, 797, 971, 1373,
    1627, 1871, 2011, 2621, 2657, 2731, 4051, 4423, 5323, 7723, 9349, 13441, 16699, 20113, 24809,
    28181, 41201, 85831, 96557]

/-- A certificate for the field prime, and behind it the steps that the order needs. -/
def certificate : List Step :=
  [⟨13331831, 13, [2, 5, 971, 1373]⟩,
    ⟨173378833005251801, 6, [2, 2, 2, 5, 5, 2621, 24809, 13331831]⟩,
    ⟨22149492674086928081353, 5, [2, 2, 2, 3, 5323, 173378833005251801]⟩,
    ⟨132896956044521568488119, 6, [2, 3, 22149492674086928081353]⟩,
    ⟨1206781, 10, [2, 2, 3, 5, 20113]⟩,
    ⟨7240687, 3, [2, 3, 1206781]⟩,
    ⟨107590001, 3, [2, 2, 2, 2, 5, 5, 5, 5, 7, 29, 53]⟩,
    ⟨255515944373312847190720520512484175977, 3,
      [2, 2, 2, 7, 7, 11, 1627, 2657, 4423, 41201, 96557, 7240687, 107590001]⟩,
    ⟨205115282021455665897114700593932402728804164701536103180137503955397371, 10,
      [2, 3, 5, 29, 29, 31, 7723, 132896956044521568488119,
        255515944373312847190720520512484175977]⟩,
    ⟨fieldPrime, 3,
      [2, 3, 7, 13441,
        205115282021455665897114700593932402728804164701536103180137503955397371]⟩,
    ⟨4681609, 23, [2, 2, 2, 3, 97, 2011]⟩,
    ⟨107361793816595537, 3, [2, 2, 2, 2, 16699, 85831, 4681609]⟩,
    ⟨120233, 3, [2, 2, 2, 7, 19, 113]⟩,
    ⟨44706919, 6, [2, 3, 797, 9349]⟩,
    ⟨174723607534414371449, 3, [2, 2, 2, 17, 59, 4051, 120233, 44706919]⟩,
    ⟨305873, 3, [2, 2, 2, 2, 7, 2731]⟩,
    ⟨545358713, 5, [2, 2, 2, 41, 59, 28181]⟩,
    ⟨1627771, 3, [2, 3, 5, 29, 1871]⟩,
    ⟨297159362677, 2, [2, 2, 3, 3, 11, 461, 1627771]⟩,
    ⟨29047611873442575647497758179, 2, [2, 293, 305873, 545358713, 297159362677]⟩,
    ⟨341948486974166000522343609283189, 2,
      [2, 2, 3, 3, 3, 109, 29047611873442575647497758179]⟩,
    ⟨order, 7,
      [2, 2, 2, 2, 2, 2, 3, 149, 631, 107361793816595537, 174723607534414371449,
        341948486974166000522343609283189]⟩]

theorem smallPrimes_prime : ∀ q ∈ smallPrimes, q.Prime := by
  unfold smallPrimes
  norm_num

/-- Each step of the certificate follows from those in front of it; the kernel computes the
powers. -/
theorem chain_certificate : Chain smallPrimes certificate := by
  decide +kernel

theorem certificate_prime : ∀ m ∈ certificate.map Step.number, m.Prime :=
  chain_certificate.prime smallPrimes_prime

instance factFieldPrime : Fact fieldPrime.Prime := ⟨certificate_prime _ (by decide)⟩

instance factOrderPrime : Fact order.Prime := ⟨certificate_prime _ (by decide)⟩

/-! ## The curve -/

/-- A number that the field prime does not divide is not zero in the field. -/
theorem natCast_ne_zero {n : ℕ} (h : n % fieldPrime ≠ 0) : (n : ZMod fieldPrime) ≠ 0 := by
  intro h0
  exact h (Nat.mod_eq_zero_of_dvd ((ZMod.natCast_eq_zero_iff n fieldPrime).1 h0))

@[simp] theorem toZMod_a : toZMod domain.curve.a = 0 := toZMod_zero

@[simp] theorem toZMod_b : toZMod domain.curve.b = 7 := toZMod_ofNat 7

instance isElliptic : domain.curve.toCurve.IsElliptic := by
  apply isElliptic_of_ne_zero
  have h := natCast_ne_zero (n := 21168) (by decide)
  rw [toZMod_a, toZMod_b]
  norm_num at h ⊢
  exact h

/-- The cube of no coordinate is `-7`: the power that a cube takes to one does not. -/
theorem cube_ne (x : ZMod fieldPrime) :
    x * x * x + toZMod domain.curve.a * x + toZMod domain.curve.b ≠ 0 := by
  intro h
  rw [toZMod_a, toZMod_b, zero_mul, add_zero] at h
  have hcube : x ^ 3 = toZMod (-7 : Coordinate) := by
    rw [toZMod_neg, toZMod_ofNat]
    linear_combination h
  have hx : x ≠ 0 := by
    rintro rfl
    have h7 := natCast_ne_zero (n := 7) (by decide)
    norm_num at h h7
    exact h7 h
  have hone : toZMod (pow (-7 : Coordinate) ((fieldPrime - 1) / 3)) = 1 := by
    rw [toZMod_pow, ← hcube, ← pow_mul, show 3 * ((fieldPrime - 1) / 3) = fieldPrime - 1 by decide]
    exact ZMod.pow_card_sub_one_eq_one hx
  rw [← toZMod_one, toZMod_inj] at hone
  exact absurd hone (by decide +kernel)

/-! ## The group -/

/-- The group of the curve. -/
abbrev Group : Type := domain.curve.Group

/-- The base point as an element of the group. -/
noncomputable def basePoint : Group := domain.curve.element (P := domain.base) (by decide)

@[simp] theorem coords_basePoint : domain.curve.coords basePoint = domain.base :=
  domain.curve.coords_element _

theorem basePoint_ne_zero : basePoint ≠ 0 := by
  intro h
  have hbase := coords_basePoint
  rw [h, coords_zero] at hbase
  exact absurd hbase (by decide)

/-- The walk over the digits of the order, started at the base point, ends at infinity. -/
theorem order_nsmul_basePoint : order • basePoint = 0 := by
  rw [← domain.curve.coords_eq_infinity, ← multiple_coords, coords_basePoint]
  decide +kernel

/-- The curve has `order` points: it has one of that order, and none on the x axis. -/
theorem natCard_group : Nat.card Group = order :=
  natCard_eq (by decide) (by decide) cube_ne basePoint_ne_zero order_nsmul_basePoint

/-- The group has prime order, and the base point generates it. -/
noncomputable instance primeOrder : domain.PrimeOrder where
  generator := basePoint
  coords_generator := coords_basePoint
  generator_ne_zero := basePoint_ne_zero
  order_nsmul P := by
    have h : Nat.card Group • P = 0 := card_nsmul_eq_zero'
    rwa [natCard_group] at h

end KeyTree.Secp256k1
