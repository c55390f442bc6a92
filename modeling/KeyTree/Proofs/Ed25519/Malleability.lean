import KeyTree.Proofs.Ed25519.Signing
import KeyTree.Proofs.Eddsa.Encoding

/-!
# Signatures on ed25519 cannot be altered

From a signature that is accepted nobody can make another one without the secret: behind its first
half only its own second half is accepted, since the multiples of the base point repeat after
`order` of them and no earlier, and a point passes in one form only.

* `addOrderOf_basePoint`: the order of the base point is `order`, which is a prime.
* `verify_unique`: the verifier accepts at most one second half, and only written points.
-/

namespace KeyTree.Ed25519

open KeyTree.Primality

/-! ## The order of the base point -/

/-- The primes below `10^5` that the certificate starts from. -/
def orderPrimes : List ℕ :=
  [2, 3, 5, 7, 11, 23, 41, 43, 73, 269, 307, 1361, 2551, 2851, 3797, 5879, 17231, 22111, 30703,
    34123, 82163]

/-- A certificate for the order. -/
def orderCertificate : List Step :=
  [⟨1224481, 13, [2, 2, 2, 2, 2, 3, 5, 2551]⟩,
    ⟨531581, 2, [2, 2, 5, 7, 3797]⟩,
    ⟨1257559732178653, 2, [2, 2, 3, 7, 23, 531581, 1224481]⟩,
    ⟨4434155615661930479, 17, [2, 41, 43, 1257559732178653]⟩,
    ⟨172054593956031949258510691, 2, [2, 5, 1361, 2851, 4434155615661930479]⟩,
    ⟨292386187, 2, [2, 3, 3, 3, 3, 307, 5879]⟩,
    ⟨213441916511, 13, [2, 5, 73, 292386187]⟩,
    ⟨19757330305831588566944191468367130476339, 2,
      [2, 269, 213441916511, 172054593956031949258510691]⟩,
    ⟨276602624281642239937218680557139826668747, 2,
      [2, 7, 19757330305831588566944191468367130476339]⟩,
    ⟨409477, 2, [2, 2, 3, 34123]⟩,
    ⟨14741173, 2, [2, 2, 3, 3, 409477]⟩,
    ⟨58964693, 2, [2, 2, 14741173]⟩,
    ⟨137849, 3, [2, 2, 2, 17231]⟩,
    ⟨132667, 5, [2, 3, 22111]⟩,
    ⟨3044861653679985063343, 5, [2, 3, 11, 30703, 82163, 132667, 137849]⟩,
    ⟨198211423230930754013084525763697, 5, [2, 2, 2, 2, 3, 23, 58964693, 3044861653679985063343]⟩,
    ⟨order, 2,
      [2, 2, 3, 11, 198211423230930754013084525763697,
        276602624281642239937218680557139826668747]⟩]

theorem orderPrimes_prime : ∀ q ∈ orderPrimes, q.Prime := by
  unfold orderPrimes
  norm_num

/-- Each step of the certificate follows from those in front of it. -/
theorem chain_orderCertificate : Chain orderPrimes orderCertificate := by
  decide +kernel

instance factOrder : Fact order.Prime :=
  ⟨chain_orderCertificate.prime orderPrimes_prime _ (by decide)⟩

theorem basePoint_ne_zero : basePoint ≠ 0 := by
  intro hzero
  have hbase : domain.base = Edwards.neutral := by
    rw [← coords_basePoint, hzero, Edwards.coords_zero]
  exact absurd hbase (by decide)

/-- The multiples of the base point do not repeat before `order` of them. -/
theorem addOrderOf_basePoint : addOrderOf basePoint = order :=
  addOrderOf_eq_prime order_nsmul_basePoint basePoint_ne_zero

/-! ## Verification -/

namespace KeyPair

open Eddsa (Encodes encodePoint)

variable (secret : Vector UInt8 32) (message : Bytes)

/-- A key pair verifies under the multiple of the base point that its secret tells. -/
theorem verify_ofSecret (signature : Vector UInt8 64) :
    (ofSecret secret).verify message signature =
      domain.verify (domain.curve.coords ((Eddsa.Secret.ofBytes secret).factor • domain.generator))
        message signature := by
  rw [← domain.publicPoint_eq]
  rfl

/-- A signature cannot be altered in its second half, nor written in another way. Behind the same
first half at most one second half is accepted, whatever the secret and the message are. None from
the order on is, so that adding the order to an accepted one is of no use. And no first half is
accepted that encodes a point of the curve in another way than it is written, by a coordinate that
is not reduced or by the sign of a zero. -/
theorem verify_unique :
    (∀ R S T : Vector UInt8 32, (ofSecret secret).verify message (R ++ S) = true →
      (ofSecret secret).verify message (R ++ T) = true → S = T) ∧
    (∀ R S : Vector UInt8 32, order ≤ LittleEndian.decode S.toList →
      (ofSecret secret).verify message (R ++ S) = false) ∧
    (∀ R S T : Vector UInt8 32, (ofSecret secret).verify message (R ++ S) = true →
      LittleEndian.decode T.toList = LittleEndian.decode S.toList + order →
      (ofSecret secret).verify message (R ++ T) = false) ∧
    ∀ (P : Edwards.Point fieldPrime) (R : Vector UInt8 32), domain.curve.OnCurve P →
      Encodes R P → R ≠ encodePoint P →
      ∀ S : Vector UInt8 32, (ofSecret secret).verify message (R ++ S) = false := by
  have hlarge (R S : Vector UInt8 32) (hS : order ≤ LittleEndian.decode S.toList) :
      (ofSecret secret).verify message (R ++ S) = false :=
    domain.verify_eq_false_of_le _ message R hS
  refine ⟨?_, hlarge, ?_, ?_⟩
  · intro R S T hS hT
    rw [verify_ofSecret] at hS hT
    exact domain.verify_coords_unique (by decide) (by decide) addOrderOf_basePoint hS hT
  · intro R S T hS hT
    refine hlarge R T ?_
    omega
  · intro P R hP hR hne S
    rw [verify_ofSecret]
    exact domain.verify_coords_eq_false (by decide) (by decide) hP hR hne S

/-- For a secret of zeros, the empty message and the pair's own signature. The neutral point is
refused with the field prime added to its y coordinate, and with a sign for its x coordinate. -/
theorem verify_unique_zeros :
    (∃ R S T : Vector UInt8 32,
      (ofSecret (Vector.replicate 32 0)).sign [] = R ++ S ∧
      LittleEndian.decode T.toList = LittleEndian.decode S.toList + order ∧
      (ofSecret (Vector.replicate 32 0)).verify [] (R ++ S) = true ∧
      (ofSecret (Vector.replicate 32 0)).verify [] (R ++ T) = false ∧
      ∀ U, (ofSecret (Vector.replicate 32 0)).verify [] (R ++ U) = true → S = U) ∧
    (∀ S : Vector UInt8 32, (ofSecret (Vector.replicate 32 0)).verify []
      (LittleEndian.encode 32 (1 + fieldPrime) ++ S) = false) ∧
    ∀ S : Vector UInt8 32, (ofSecret (Vector.replicate 32 0)).verify []
      (LittleEndian.encode 32 (1 + 2 ^ 255) ++ S) = false := by
  rcases verify_unique (Vector.replicate 32 0) [] with ⟨hunique, -, hadd, hpoint⟩
  refine ⟨?_, ?_, ?_⟩
  · obtain ⟨R, s, hsign⟩ : ∃ (R : Vector UInt8 32) (s : Fin order),
        (ofSecret (Vector.replicate 32 0)).sign [] = R ++ LittleEndian.encode 32 s.val :=
      ⟨_, _, rfl⟩
    have hlimit : order + order ≤ byteLimit 32 := by decide
    have hs := s.isLt
    have hsum : LittleEndian.decode (LittleEndian.encode 32 (s.val + order)).toList =
        LittleEndian.decode (LittleEndian.encode 32 s.val).toList + order := by
      rw [LittleEndian.decode_encode (by omega), LittleEndian.decode_encode (by omega)]
    have haccept := verify_sign_ofSecret (Vector.replicate 32 0) []
    rw [hsign] at haccept
    exact ⟨R, _, _, hsign, hsum, haccept, hadd R _ _ haccept hsum,
      fun U hU => hunique R _ U haccept hU⟩
  · exact hpoint Edwards.neutral _ (by decide +kernel) (by decide +kernel) (by decide +kernel)
  · exact hpoint Edwards.neutral _ (by decide +kernel) (by decide +kernel) (by decide +kernel)

end KeyPair

end KeyTree.Ed25519
