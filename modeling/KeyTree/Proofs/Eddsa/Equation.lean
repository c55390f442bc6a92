import KeyTree.Eddsa
import KeyTree.Proofs.EllipticCurve.EdwardsGroup

/-!
# The equation of an Edwards curve signature

A signature is the encoding of a point `R` and a scalar `s` with `s B = R + k A`, where `A` is the
public point and `k` the challenge. The verifier solves the equation for `R` and compares encodings,
so that a signer who knows `A = a B` and takes `R = r B` is accepted with `s = r + k a`. All of this
happens among the multiples of the base point, whose factors count modulo its order `n`: neither a
prime order nor anything of the other points of the curve is needed.

* `verify_coords_iff`: the verifier checks the equation.
* `verify_sign_publicPoint`: the signer's equation holds.
-/

namespace KeyTree.Eddsa

open KeyTree.Edwards KeyTree.Modular

variable {p n : ℕ} (D : Eddsa p n)

/-- The verifier takes a signature apart in the middle. -/
theorem verify_append [Modulus p] [Modulus n] (A : Edwards.Point p) (message : Bytes)
    (R S : Vector UInt8 32) :
    D.verify A message (R ++ S) =
      (decide (LittleEndian.decode S.toList < n) &&
        D.expectedHalf A message R.toList (LittleEndian.decode S.toList) == R) := by
  have hR : ((R ++ S).take 32 : Vector UInt8 32) = R := by
    rw [← Vector.toList_inj, Vector.toList_take, Vector.toList_append, List.take_left' (by simp)]
  have hS : ((R ++ S).drop 32).toList = S.toList := by
    rw [Vector.toList_drop, Vector.toList_append, List.drop_left' (by simp)]
  unfold verify
  dsimp only
  rw [hR, hS]

/-! ## Multiples of the base point -/

variable [Fact p.Prime] [Complete (toZMod D.curve.d)]

/-- The base point is one of the group, and its multiples repeat after `n` of them. -/
class BaseOrder where
  generator : D.curve.Group
  coords_generator : D.curve.coords generator = D.base
  order_nsmul : n • generator = 0

variable [D.BaseOrder]

/-- The base point as an element of the group. -/
def generator : D.curve.Group := BaseOrder.generator

theorem coords_generator : D.curve.coords D.generator = D.base := BaseOrder.coords_generator

theorem order_nsmul_generator : n • D.generator = 0 := BaseOrder.order_nsmul

/-- Factors count modulo the order. -/
theorem mod_nsmul_generator (m : ℕ) : (m % n) • D.generator = m • D.generator := by
  have hsplit : m • D.generator = (m % n + n * (m / n)) • D.generator := by
    rw [Nat.mod_add_div]
  rw [hsplit, add_nsmul, mul_nsmul, order_nsmul_generator, nsmul_zero, add_zero]

/-- The second half of a signature, the nonce and the challenge times the factor, as a multiple. -/
theorem nsmul_response [Modulus n] (nonce k : Fin n) (factor : ℕ) :
    (nonce + k * residue n factor).val • D.generator =
      nonce.val • D.generator + k.val • factor • D.generator := by
  rw [Fin.val_add, mod_nsmul_generator, add_nsmul, Fin.val_mul, mod_nsmul_generator, val_residue,
    mul_nsmul', mod_nsmul_generator]

variable [Modulus p]

/-- A multiple of the base point is that of the generator. -/
theorem baseMultiple_eq (m : ℕ) : D.curve.multiple m D.base = D.curve.coords (m • D.generator) := by
  rw [← coords_generator, multiple_coords]

/-- The public point of a secret is a multiple of the generator. -/
theorem publicPoint_eq (secret : Secret) :
    D.publicPoint secret = D.curve.coords (secret.factor • D.generator) :=
  D.baseMultiple_eq secret.factor

/-! ## Verification -/

variable [Modulus n]

/-- The half that a verifier computes is the encoding of the point that the equation gives. -/
theorem expectedHalf_coords (Q : D.curve.Group) (message R : Bytes) (s : ℕ) :
    D.expectedHalf (D.curve.coords Q) message R s =
      encodePoint (D.curve.coords
        (s • D.generator - (challenge n R (D.curve.coords Q) message).val • Q)) := by
  unfold expectedHalf
  dsimp only
  rw [← coords_neg, baseMultiple_eq, multiple_coords, add_coords, smul_neg, sub_eq_add_neg]

/-- The verifier checks the equation, solved for the point whose encoding it has. -/
theorem verify_coords_iff (Q : D.curve.Group) (message : Bytes) (R S : Vector UInt8 32) :
    D.verify (D.curve.coords Q) message (R ++ S) = true ↔
      LittleEndian.decode S.toList < n ∧
        encodePoint (D.curve.coords (LittleEndian.decode S.toList • D.generator -
          (challenge n R.toList (D.curve.coords Q) message).val • Q)) = R := by
  rw [verify_append, Bool.and_eq_true, decide_eq_true_iff, beq_iff_eq, expectedHalf_coords]

/-! ## Signing -/

/-- A signature is accepted under the public point of its secret, whatever the secret and the
message hash to. -/
theorem verify_sign_publicPoint (hn : n ≤ byteLimit 32) (secret : Secret) (message : Bytes) :
    D.verify (D.publicPoint secret) message
      (D.sign secret (D.publicPoint secret) message) = true := by
  rw [publicPoint_eq]
  unfold sign
  dsimp only
  -- only the equation matters, not what the nonce and the challenge are hashes of
  generalize hashScalar n [secret.nonceKey, message] = nonce
  rw [verify_coords_iff, baseMultiple_eq]
  generalize challenge n _ _ message = k
  have hlt := (nonce + k * residue n secret.factor).isLt
  rw [LittleEndian.decode_encode (lt_of_lt_of_le hlt hn), nsmul_response, add_sub_cancel_right]
  exact ⟨hlt, rfl⟩

end KeyTree.Eddsa
