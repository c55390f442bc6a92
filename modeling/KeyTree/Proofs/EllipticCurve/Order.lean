import KeyTree.Proofs.EllipticCurve.Group

/-!
# The number of points

A group element other than zero is told by its x coordinate and the parity of its y coordinate
(`parityCode_injective`), so that a curve over `p` elements has at most `2 p + 1` points. That bound
is weak, but it is enough to count the points of a curve for which a point of a large prime order is
known:

* `natCard_eq`: if a point other than zero has the prime order `n`, three times `n` is
  more than `2 p + 1`, and no point has order two, then `n` points are all there are.
-/

namespace KeyTree.Weierstrass

open KeyTree.Modular WeierstrassCurve.Affine

variable {p : ℕ} [Fact p.Prime] {E : Weierstrass p}

/-! ## Telling points apart -/

/-- The x coordinate and the parity of the y coordinate. -/
def parityCode : E.Group → Option (ZMod p × Bool)
  | .zero => none
  | .some x y _ => some (x, y.val % 2 = 0)

/-- A group element is told by its code: of two opposite points the parities of y differ, since the
field prime is odd. -/
theorem parityCode_injective (hp : p % 2 = 1) :
    Function.Injective (parityCode : E.Group → Option (ZMod p × Bool)) := by
  rintro (_ | ⟨x, y, h⟩) (_ | ⟨x', y', h'⟩) heq
  · rfl
  · exact absurd heq (by simp [parityCode])
  · exact absurd heq (by simp [parityCode])
  · have hcode : x = x' ∧ (y.val % 2 = 0 ↔ y'.val % 2 = 0) := by
      simpa [parityCode] using heq
    rcases Point.X_eq_iff.1 hcode.1 with hsame | hopp
    · exact hsame
    · have hy : y = -y' := by
        rw [Point.neg_some, Point.some.injEq, negY_toCurve] at hopp
        exact hopp.2
      by_cases h0 : y' = 0
      · rw [h0, neg_zero] at hy
        have hxy : x = x' ∧ y = y' := ⟨hcode.1, hy.trans h0.symm⟩
        rw [Point.some.injEq]
        exact hxy
      · have hne := parity_neg_ne hp h0
        rw [← hy] at hne
        omega

instance : Finite E.Group :=
  have : Finite (WithZero {xy : ZMod p × ZMod p // E.toCurve.toAffine.Nonsingular xy.1 xy.2}) :=
    inferInstanceAs (Finite (Option _))
  Finite.of_equiv _ (nonsingularPointEquiv E.toCurve.toAffine).symm

/-- There are no more points than codes. -/
theorem natCard_le (hp : p % 2 = 1) : Nat.card E.Group ≤ 2 * p + 1 := by
  have hcode := Nat.card_le_card_of_injective _ (parityCode_injective (E := E) hp)
  have hcount : Nat.card (Option (ZMod p × Bool)) = 2 * p + 1 := by
    rw [Nat.card_eq_fintype_card, Fintype.card_option, Fintype.card_prod, Fintype.card_bool,
      ZMod.card]
    ring
  omega

/-! ## A curve of prime order -/

/-- A curve has even order only if it has a point on the x axis. -/
theorem exists_root_of_even (hp : p % 2 = 1) (h : 2 ∣ Nat.card E.Group) :
    ∃ x : ZMod p, x * x * x + toZMod E.a * x + toZMod E.b = 0 := by
  have hprime : Fact (Nat.Prime 2) := ⟨Nat.prime_two⟩
  rcases exists_prime_addOrderOf_dvd_card' 2 h with ⟨P, hP⟩
  have hdouble : P + P = 0 := by
    rw [← two_nsmul, ← hP]
    exact addOrderOf_nsmul_eq_zero P
  rcases P with _ | ⟨x, y, hxy⟩
  · -- zero has order one
    rw [← Point.zero_def, addOrderOf_zero] at hP
    omega
  · refine ⟨x, ?_⟩
    have hneg : y = -y := by
      have h0 := eq_neg_of_add_eq_zero_left hdouble
      rw [Point.neg_some, Point.some.injEq, negY_toCurve] at h0
      exact h0.2
    have hy : y = 0 := by
      by_contra hne
      apply parity_neg_ne hp hne
      rw [← hneg]
    have heq := E.equation_iff.1 hxy.left
    rw [hy, mul_zero] at heq
    exact heq.symm

/-- The count of a curve with a point of a large prime order and none of order two. -/
theorem natCard_eq {n : ℕ} [Fact n.Prime] (hp : p % 2 = 1) (hn : 2 * p + 1 < 3 * n)
    (hroot : ∀ x : ZMod p, x * x * x + toZMod E.a * x + toZMod E.b ≠ 0) {G : E.Group}
    (hG : G ≠ 0) (hGn : n • G = 0) : Nat.card E.Group = n := by
  have hdvd : n ∣ Nat.card E.Group := by
    rw [← addOrderOf_eq_prime hGn hG]
    exact addOrderOf_dvd_natCard G
  rcases hdvd with ⟨k, hk⟩
  have hpos : 0 < Nat.card E.Group := Nat.card_pos
  have hle := natCard_le (E := E) hp
  have hk0 : k ≠ 0 := by
    rintro rfl
    omega
  have hk3 : k < 3 := by
    by_contra hk3
    have hmul : n * 3 ≤ n * k := Nat.mul_le_mul_left n (by omega)
    omega
  -- twice `n` would be an even count
  have hk2 : k ≠ 2 := by
    rintro rfl
    rcases exists_root_of_even hp (Dvd.intro_left n hk.symm) with ⟨x, hx⟩
    exact hroot x hx
  have hk1 : k = 1 := by omega
  rw [hk, hk1, mul_one]

end KeyTree.Weierstrass
