import KeyTree.Ed25519.Domain
import KeyTree.Proofs.Arith.Primality
import KeyTree.Proofs.EllipticCurve.EdwardsGroup

/-!
# The group of ed25519

The points of the curve form a group in which the order of the domain kills the base point. Nothing
of it is assumed: the field prime has a certificate, and the kernel computes Euler's power of `d`
and that the order kills the base point.

* `complete`: the addition formula adds any two points.
* `order_nsmul_basePoint`: the multiples of the base point repeat after `order` of them.
-/

namespace KeyTree.Ed25519

open KeyTree.Modular KeyTree.Primality

/-! ## The field prime -/

/-- The primes below `10^5` that the certificate starts from. -/
def smallPrimes : List ℕ :=
  [2, 3, 5, 7, 13, 19, 31, 43, 47, 97, 103, 107, 127, 131, 223, 353, 419, 991, 1723, 2437, 3727,
    4153, 57467, 65147, 75707]

/-- A certificate for the field prime. -/
def certificate : List Step :=
  [⟨132049, 26, [2, 2, 2, 2, 3, 3, 7, 131]⟩,
    ⟨1923133, 2, [2, 2, 3, 43, 3727]⟩,
    ⟨430751, 17, [2, 5, 5, 5, 1723]⟩,
    ⟨31757755568855353, 10, [2, 2, 2, 3, 31, 107, 223, 4153, 430751]⟩,
    ⟨569003, 2, [2, 7, 97, 419]⟩,
    ⟨2773320623, 5, [2, 2437, 569003]⟩,
    ⟨72106336199, 7, [2, 13, 2773320623]⟩,
    ⟨8574133, 2, [2, 2, 3, 7, 103, 991]⟩,
    ⟨1919519569386763, 2, [2, 3, 7, 19, 47, 47, 127, 8574133]⟩,
    ⟨75445702479781427272750846543864801, 7,
      [2, 2, 2, 2, 2, 3, 3, 5, 5, 75707, 72106336199, 1919519569386763]⟩,
    ⟨74058212732561358302231226437062788676166966415465897661863160754340907, 2,
      [2, 3, 353, 57467, 132049, 1923133, 31757755568855353,
        75445702479781427272750846543864801]⟩,
    ⟨fieldPrime, 2,
      [2, 2, 3, 65147,
        74058212732561358302231226437062788676166966415465897661863160754340907]⟩]

theorem smallPrimes_prime : ∀ q ∈ smallPrimes, q.Prime := by
  unfold smallPrimes
  norm_num

/-- Each step of the certificate follows from those in front of it; the kernel computes the
powers. -/
theorem chain_certificate : Chain smallPrimes certificate := by
  decide +kernel

instance factFieldPrime : Fact fieldPrime.Prime :=
  ⟨chain_certificate.prime smallPrimes_prime _ (by decide)⟩

/-! ## The curve -/

/-- The field prime is one more than a multiple of four, so that `-1` has a root. -/
theorem isSquare_neg_one : IsSquare (-1 : ZMod fieldPrime) :=
  ZMod.exists_sq_eq_neg_one_iff.2 (by decide)

/-- The coefficient has no root: Euler's criterion, with the power computed by the kernel. -/
theorem not_isSquare_d : ¬IsSquare (toZMod domain.curve.d) := by
  rw [isSquare_toZMod_iff (by decide)]
  decide +kernel

instance complete : Edwards.Complete (toZMod domain.curve.d) where
  two_ne_zero := by
    rw [← toZMod_ofNat 2]
    exact toZMod_eq_zero.not.2 (by decide)
  isSquare_neg_one := isSquare_neg_one
  not_isSquare := not_isSquare_d

/-! ## The base point -/

/-- The base point as an element of the group. -/
noncomputable def basePoint : domain.curve.Group :=
  domain.curve.element (P := domain.base) (by decide)

@[simp] theorem coords_basePoint : domain.curve.coords basePoint = domain.base :=
  domain.curve.coords_element _

/-- The walk over the digits of the order, started at the base point, ends at zero. -/
theorem order_nsmul_basePoint : order • basePoint = 0 := by
  rw [← domain.curve.coords_injective.eq_iff, ← Edwards.multiple_coords, coords_basePoint,
    Edwards.coords_zero]
  decide +kernel

end KeyTree.Ed25519
