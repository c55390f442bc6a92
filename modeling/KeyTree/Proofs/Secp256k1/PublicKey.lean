import KeyTree.Proofs.Secp256k1.Group
import KeyTree.Proofs.Secp256k1.PrivateKey

/-!
# Public keys as group elements

The public key of a private key is a multiple of the base point, and its compressed form is told
from the group element: the x coordinate, and the parity of the other one.
-/

namespace KeyTree.Secp256k1

open KeyTree.Modular KeyTree.Weierstrass KeyTree.Ecdsa

/-- The compressed form of a group element. -/
def compress : Group → Bytes
  | .zero => [0]
  | .some x y _ => (if y.val % 2 = 0 then 0x02 else 0x03) :: (BigEndian.encode 32 x.val).toList

/-- The compressed form of a key is that of its group element. -/
theorem compressed_coords (P : Group) :
    PublicKey.compressed ⟨domain.curve.coords P⟩ = compress P := by
  rcases P with _ | ⟨x, y, h⟩
  · rfl
  · rfl

/-! ## Multiples of the base point -/

theorem addOrderOf_basePoint : addOrderOf basePoint = order :=
  addOrderOf_eq_prime order_nsmul_basePoint basePoint_ne_zero

/-- Only the multiples by a multiple of the order are zero. -/
theorem nsmul_basePoint_eq_zero_iff {m : ℕ} : m • basePoint = 0 ↔ m % order = 0 := by
  rw [← addOrderOf_dvd_iff_nsmul_eq_zero, addOrderOf_basePoint, Nat.dvd_iff_mod_eq_zero]

/-- A multiple does not change when its factor is reduced modulo the order. -/
theorem mod_nsmul_basePoint (m : ℕ) : (m % order) • basePoint = m • basePoint := by
  have h := mod_addOrderOf_nsmul basePoint m
  rwa [addOrderOf_basePoint] at h

/-- The public key is the multiple of the base point. -/
theorem PrivateKey.publicKey_eq (key : PrivateKey) :
    key.publicKey = ⟨domain.curve.coords (key.scalar.val • basePoint)⟩ := by
  unfold PrivateKey.publicKey baseMultiple
  rw [← multiple_coords, coords_basePoint]

/-- The factor is not zero modulo the order, so the public key is not infinity. -/
theorem PrivateKey.publicKey_valid (key : PrivateKey) : key.publicKey.Valid := by
  rw [publicKey_eq]
  refine ⟨?_, domain.curve.onCurve_coords _⟩
  intro h
  rw [coords_eq_infinity, nsmul_basePoint_eq_zero_iff, Nat.mod_eq_of_lt key.scalar.isLt] at h
  exact val_ne_zero_iff.1 key.ne_zero h

/-- Adding a multiple of the base point to a public key adds its factor to the private key. -/
theorem PrivateKey.add_publicKey (key : PrivateKey) (n : ℕ) :
    domain.curve.add key.publicKey.point (domain.curve.multiple n domain.base) =
      domain.curve.coords ((n + key.scalar.val) • basePoint) := by
  rw [publicKey_eq, ← coords_basePoint, multiple_coords, add_coords, add_nsmul, add_comm]

end KeyTree.Secp256k1
