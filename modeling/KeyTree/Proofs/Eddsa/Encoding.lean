import KeyTree.Proofs.Bytes.Endian
import KeyTree.Proofs.Eddsa.Equation

/-!
# Points in bytes

A point is written as its y coordinate in 255 bits with the parity of the x coordinate on top. One
who reads such bytes may be generous: the low bits may write the y coordinate with a multiple of the
prime added to it, and when x is zero the top bit may be any. `Encodes` is that reading, in which a
point can have several encodings, and `encodePoint` writes one of them.

* `eq_of_encodes`: read generously, the bytes that are written tell the point.
* `verify_coords_unique`: a verifier that writes the point which it expects, and compares bytes,
  accepts at most one second half behind a first one.
* `verify_coords_eq_false`: it accepts no first half but a written one.
-/

namespace KeyTree.Eddsa

open KeyTree.Edwards KeyTree.Modular

variable {p n : ℕ}

/-! ## Reading -/

/-- The number that all bits but the top one write. -/
def lowBits (bytes : Vector UInt8 32) : ℕ := LittleEndian.decode bytes.toList % 2 ^ 255

/-- The top bit. -/
def topBit (bytes : Vector UInt8 32) : ℕ := LittleEndian.decode bytes.toList / 2 ^ 255

/-- The bytes are an encoding of the point, the one that is written or another one. -/
structure Encodes (bytes : Vector UInt8 32) (P : Edwards.Point p) : Prop where
  low : lowBits bytes % p = P.y.val
  /-- Zero has no sign. -/
  top : P.x.val ≠ 0 → topBit bytes = P.x.val % 2

instance (bytes : Vector UInt8 32) (P : Edwards.Point p) : Decidable (Encodes bytes P) :=
  decidable_of_iff (lowBits bytes % p = P.y.val ∧ (P.x.val ≠ 0 → topBit bytes = P.x.val % 2))
    ⟨fun h => ⟨h.1, h.2⟩, fun h => ⟨h.low, h.top⟩⟩

/-! ## Writing -/

section Writing

variable (hp : p ≤ 2 ^ 255)

include hp

/-- The y coordinate is in the low bits, and the parity of the x coordinate in the top one. -/
theorem decode_encodePoint (P : Edwards.Point p) :
    LittleEndian.decode (encodePoint P).toList = P.y.val + P.x.val % 2 * 2 ^ 255 := by
  have hy := P.y.isLt
  have hx := Nat.mod_lt P.x.val (by decide : 0 < 2)
  unfold encodePoint
  rw [Nat.shiftLeft_eq, LittleEndian.decode_encode]
  rw [byteLimit_eq]
  omega

theorem lowBits_encodePoint (P : Edwards.Point p) : lowBits (encodePoint P) = P.y.val := by
  have hy := P.y.isLt
  unfold lowBits
  rw [decode_encodePoint hp]
  omega

theorem topBit_encodePoint (P : Edwards.Point p) : topBit (encodePoint P) = P.x.val % 2 := by
  have hy := P.y.isLt
  unfold topBit
  rw [decode_encodePoint hp]
  omega

/-- What is written is an encoding. -/
theorem encodes_encodePoint (P : Edwards.Point p) : Encodes (encodePoint P) P where
  low := by rw [lowBits_encodePoint hp, Nat.mod_eq_of_lt P.y.isLt]
  top _ := topBit_encodePoint hp P

/-- What is written for a point of the curve is an encoding of no other one. -/
theorem eq_of_encodes [Fact p.Prime] {E : Edwards p} [Complete (toZMod E.d)] (hodd : p % 2 = 1)
    {P Q : E.Group} (h : Encodes (encodePoint (E.coords P)) (E.coords Q)) : P = Q := by
  have hy : P.y = Q.y := by
    have hlow := h.low
    rw [lowBits_encodePoint hp, Nat.mod_eq_of_lt (E.coords P).y.isLt] at hlow
    exact ZMod.val_injective p hlow
  rcases Element.eq_or_eq_neg_of_y_eq hy with hsame | hopposite
  · exact hsame
  · -- the sign of x is lost in the coordinate y, and the top bit shows it unless x is zero
    have hx : P.x = -Q.x := by rw [hopposite, Element.x_neg]
    by_cases hzero : Q.x = 0
    · refine Element.ext ?_ hy
      rw [hx, hzero, neg_zero]
    · have htop := h.top fun hval => hzero ((ZMod.val_eq_zero Q.x).1 hval)
      rw [topBit_encodePoint hp] at htop
      have hparity : (-Q.x).val % 2 = Q.x.val % 2 := by
        rw [← hx]
        exact htop
      exact absurd hparity (parity_neg_ne hodd hzero)

/-- A point is told by its 32 bytes: they give y, and of the two opposite points with this y the one
with the right parity. -/
theorem encodePoint_injective [Fact p.Prime] (E : Edwards p) [Complete (toZMod E.d)]
    (hodd : p % 2 = 1) : Function.Injective fun P : E.Group => encodePoint (E.coords P) := by
  intro P Q h
  apply eq_of_encodes hp hodd
  dsimp only at h
  rw [h]
  exact encodes_encodePoint hp (E.coords Q)

end Writing

/-! ## Verification -/

section Verification

variable (D : Eddsa p n)

/-- A second half from the order on is refused. -/
theorem verify_eq_false_of_le [Modulus p] [Modulus n] (A : Edwards.Point p) (message : Bytes)
    (R : Vector UInt8 32) {S : Vector UInt8 32} (hS : n ≤ LittleEndian.decode S.toList) :
    D.verify A message (R ++ S) = false := by
  rw [verify_append, decide_eq_false (Nat.not_lt.2 hS), Bool.false_and]

variable [Fact p.Prime] [Complete (toZMod D.curve.d)] [D.BaseOrder]

/-- Scalars below the order of the base point are told by their multiples of it. -/
theorem eq_of_nsmul_generator (horder : addOrderOf D.generator = n) {s t : ℕ} (hs : s < n)
    (ht : t < n) (h : s • D.generator = t • D.generator) : s = t := by
  rw [nsmul_eq_nsmul_iff_modEq, horder] at h
  exact Nat.ModEq.eq_of_lt_of_lt h hs ht

variable [Modulus p] [Modulus n] (hp : p ≤ 2 ^ 255) (hodd : p % 2 = 1) {Q : D.curve.Group}
  {message : Bytes}

include hp hodd

/-- Behind one first half at most one second half is accepted. -/
theorem verify_coords_unique (horder : addOrderOf D.generator = n) {R S T : Vector UInt8 32}
    (hS : D.verify (D.curve.coords Q) message (R ++ S) = true)
    (hT : D.verify (D.curve.coords Q) message (R ++ T) = true) : S = T := by
  rcases (D.verify_coords_iff Q message R S).1 hS with ⟨hSlt, hSpoint⟩
  rcases (D.verify_coords_iff Q message R T).1 hT with ⟨hTlt, hTpoint⟩
  -- the challenge does not depend on the second half, so the same multiple is taken away from both
  have hpoint := encodePoint_injective hp D.curve hodd (hSpoint.trans hTpoint.symm)
  have hscalar := D.eq_of_nsmul_generator horder hSlt hTlt (sub_left_injective hpoint)
  rw [← LittleEndian.encode_decode S, hscalar, LittleEndian.encode_decode]

/-- A first half that encodes a point in another way than it is written is refused. -/
theorem verify_coords_eq_false {P : Edwards.Point p} (hP : D.curve.OnCurve P)
    {R : Vector UInt8 32} (hR : Encodes R P) (hne : R ≠ encodePoint P) (S : Vector UInt8 32) :
    D.verify (D.curve.coords Q) message (R ++ S) = false := by
  rw [Bool.eq_false_iff]
  intro haccept
  rcases (D.verify_coords_iff Q message R S).1 haccept with ⟨-, hpoint⟩
  rcases D.curve.onCurve_iff.1 hP with ⟨P, rfl⟩
  rw [← hpoint] at hR
  rw [eq_of_encodes hp hodd hR] at hpoint
  exact hne hpoint.symm

end Verification

end KeyTree.Eddsa
