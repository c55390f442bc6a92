import KeyTree.Proofs.Ecdsa.Signing
import KeyTree.Proofs.Secp256k1.PublicKey
import KeyTree.Proofs.Secp256k1.Reading

/-!
# What verification accepts

The verifier brings the second half of a signature into the lower half before it checks the
equation. Since the equation does not tell `s` from `-s`, the check is one of the pair that the
bytes write, whichever of the two it is.

* `verify_iff`: the bytes are accepted when they are the encoding of two scalars other than zero
  which satisfy the equation, and no others are.
* `verify_sign`: a signature that was made for a message is accepted under the public key.
-/

namespace KeyTree.Secp256k1

open KeyTree.Modular KeyTree.Weierstrass KeyTree.Ecdsa

/-! ## The equation -/

open Signature

/-- An integer in range is read as its residue. -/
theorem Signature.toZMod_scalarOfInt {v : ℤ} (h₀ : 0 ≤ v) (h : v < order) :
    toZMod (scalarOfInt v) = (v : ZMod order) := by
  have hval := congrArg (Int.cast : ℤ → ZMod order) (val_scalarOfInt h₀ h)
  rwa [Int.cast_natCast] at hval

/-- The scalar of a message is the residue of its digest. -/
theorem toZMod_messageScalar (message : Bytes) :
    toZMod (messageScalar message) =
      (BigEndian.decode (sha256 message).toList : ZMod order) := by
  unfold messageScalar
  rw [toZMod_residue]

namespace PublicKey

/-- A key as an element of the group. -/
noncomputable def element {key : PublicKey} (hkey : key.Valid) : Group :=
  domain.curve.element hkey.2

/-- The group element of a key has the coordinates of the key. -/
@[simp] theorem coords_element {key : PublicKey} (hkey : key.Valid) :
    domain.curve.coords (element hkey) = key.point :=
  domain.curve.coords_element hkey.2

/-- Bringing the second half into the lower half does not change the verdict. -/
theorem accepts_ofScalars (Q : Group) (message : Bytes) (r s : Scalar) :
    PublicKey.accepts ⟨domain.curve.coords Q⟩ message (ofScalars r s) =
      domain.accepts (messageScalar message) (domain.curve.coords Q) r s := by
  unfold PublicKey.accepts ofScalars
  split
  · rfl
  · exact domain.accepts_neg (messageScalar message) Q r s

/-- To verify the encoding of a signature is to test the signature: it is in the lower form
already. -/
theorem verify_toDer (key : PublicKey) (message : Bytes) (sig : Signature) :
    key.verify message sig.toDer = key.accepts message sig := by
  unfold PublicKey.verify
  rw [checkDer_of_ok sig.ofDer_toDer]

/-- The bytes write two integers, and these are checked. -/
theorem verify_eq_true_iff_readPair? (Q : Group) (message bytes : Bytes) :
    PublicKey.verify ⟨domain.curve.coords Q⟩ message bytes = true ↔
      ∃ r s : ℤ, Der.readPair? bytes = some (r, s) ∧
        domain.accepts (messageScalar message) (domain.curve.coords Q) (scalarOfInt r)
          (scalarOfInt s) = true := by
  unfold PublicKey.verify checkDer
  rcases Der.readPair? bytes with _ | ⟨r, s⟩
  · simp
  · dsimp only
    rw [accepts_ofScalars]
    constructor
    · intro h
      exact ⟨r, s, rfl, h⟩
    · intro h
      rcases h with ⟨r', s', heq, h⟩
      cases heq
      exact h

/-- Two integers are accepted when they are scalars other than zero and satisfy the equation. -/
theorem accepts_scalarOfInt_iff (Q : Group) (message : Bytes) (r s : ℤ) :
    domain.accepts (messageScalar message) (domain.curve.coords Q) (scalarOfInt r)
        (scalarOfInt s) = true ↔
      (1 ≤ r ∧ r < order) ∧ (1 ≤ s ∧ s < order) ∧
        ∃ x y h, ((BigEndian.decode (sha256 message).toList : ZMod order) / s) • basePoint +
          ((r : ZMod order) / s) • Q = .some x y h ∧ (x.val : ℤ) ≡ r [ZMOD order] := by
  rw [accepts_coords_iff, scalarOfInt_ne_zero_iff, scalarOfInt_ne_zero_iff]
  apply and_congr_right
  intro h
  rcases h with ⟨hr₁, hr⟩
  apply and_congr_right
  intro h
  rcases h with ⟨hs₁, hs⟩
  -- in range the scalars that were read stand for the integers themselves
  have hval := val_scalarOfInt (by omega) hr
  have hpoint : domain.equationPoint (messageScalar message) Q (scalarOfInt r) (scalarOfInt s) =
      ((BigEndian.decode (sha256 message).toList : ZMod order) / s) • basePoint +
        ((r : ZMod order) / s) • Q := by
    unfold equationPoint
    rw [toZMod_messageScalar, toZMod_scalarOfInt (by omega) hr, toZMod_scalarOfInt (by omega) hs]
    rfl
  rw [xScalar?_coords_eq_some_iff, hpoint]
  have hmod (x : ZMod fieldPrime) :
      x.val % order = (scalarOfInt r).val ↔ (x.val : ℤ) ≡ r [ZMOD order] := by
    unfold Int.ModEq
    rw [Int.emod_eq_of_lt (by omega) hr]
    omega
  simp only [hmod]

/-- The bytes are accepted exactly when they are the encoding of two scalars other than zero that
satisfy the equation. Bytes that are no encoding, or one of integers out of range, are refused. -/
theorem verify_iff {key : PublicKey} (hkey : key.Valid) (message bytes : Bytes) :
    (key.verify message bytes = true ↔
      ∃ r s : ℤ, bytes = Der.encodePair r s ∧ (1 ≤ r ∧ r < order) ∧ (1 ≤ s ∧ s < order) ∧
        ∃ x y h, ((BigEndian.decode (sha256 message).toList : ZMod order) / s) • basePoint +
          ((r : ZMod order) / s) • element hkey = .some x y h ∧ (x.val : ℤ) ≡ r [ZMOD order]) ∧
    ((∀ r s : ℤ, bytes ≠ Der.encodePair r s) → key.verify message bytes = false) ∧
    ∀ r s : ℤ, bytes = Der.encodePair r s → (¬(1 ≤ r ∧ r < order) ∨ ¬(1 ≤ s ∧ s < order)) →
      key.verify message bytes = false := by
  have hread := verify_eq_true_iff_readPair? (element hkey) message bytes
  rw [coords_element hkey] at hread
  have haccept := accepts_scalarOfInt_iff (element hkey) message
  rw [coords_element hkey] at haccept
  refine ⟨?_, ?_, ?_⟩
  · rw [hread]
    constructor
    · intro h
      rcases h with ⟨r, s, hpair, h⟩
      exact ⟨r, s, Der.eq_encodePair_of_readPair? hpair, (haccept r s).1 h⟩
    · intro h
      rcases h with ⟨r, s, rfl, h⟩
      refine ⟨r, s, ?_, (haccept r s).2 h⟩
      rcases h with ⟨⟨hr₁, hr⟩, ⟨hs₁, hs⟩, -⟩
      rw [← val_scalarOfInt (v := r) (by omega) hr, ← val_scalarOfInt (v := s) (by omega) hs]
      exact readPair?_encodePair_val _ _
  · intro hmalformed
    rw [Bool.eq_false_iff]
    intro h
    rcases hread.1 h with ⟨r, s, hpair, -⟩
    exact hmalformed r s (Der.eq_encodePair_of_readPair? hpair)
  · rintro r s rfl hrange
    rw [Bool.eq_false_iff]
    intro h
    rcases hread.1 h with ⟨r', s', hpair, h⟩
    rcases (haccept r' s').1 h with ⟨hr', hs', -⟩
    -- the bytes are short, so they are read as the integers they were written from
    have hshort := length_encodePair_lt (scalarOfInt r') (scalarOfInt s')
    rw [val_scalarOfInt (by omega) hr'.2, val_scalarOfInt (by omega) hs'.2,
      ← Der.eq_encodePair_of_readPair? hpair] at hshort
    rw [Der.readPair?_encodePair hshort, Option.some.injEq, Prod.mk.injEq] at hpair
    rcases hpair with ⟨rfl, rfl⟩
    rcases hrange with hr | hs
    · exact hr hr'
    · exact hs hs'

/-- Under the base point: a signature of the empty message, no bytes, and a pair that holds zero. -/
theorem verify_iff_base :
    ∃ hkey : (⟨domain.base⟩ : PublicKey).Valid,
      (∃ r s : ℤ,
        Der.encodePair 0x77c8d336572f6f466055b5f70f433851f8f535f6c4fc71133a6cfd71079d03b7
          0x0ed9f5eb8aa5b266abac35d416c3207e7a538bf5f37649727d7a9823b1069577 = Der.encodePair r s ∧
        (1 ≤ r ∧ r < order) ∧ (1 ≤ s ∧ s < order) ∧
        ∃ x y h, ((BigEndian.decode (sha256 []).toList : ZMod order) / s) • basePoint +
          ((r : ZMod order) / s) • element hkey = .some x y h ∧ (x.val : ℤ) ≡ r [ZMOD order]) ∧
      (⟨domain.base⟩ : PublicKey).verify [] [] = false ∧
      (⟨domain.base⟩ : PublicKey).verify [] (Der.encodePair 0 1) = false := by
  have hkey : (⟨domain.base⟩ : PublicKey).Valid := by decide
  refine ⟨hkey, (verify_iff hkey [] _).1.1 ?_, (verify_iff hkey [] []).2.1 ?_,
    (verify_iff hkey [] _).2.2 0 1 rfl ?_⟩
  · decide +kernel
  · intro r s h
    exact absurd h (List.cons_ne_nil _ _).symm
  · left
    intro h
    rcases h with ⟨h, -⟩
    exact absurd h (by decide)

end PublicKey

/-! ## Signing -/

namespace PrivateKey

/-- Whatever the digest, the signer finds a nonce. -/
theorem exists_nonce (key : PrivateKey) (z : Scalar) :
    ∃ nonce, domain.signWith? z key.scalar nonce = some (domain.sign z key.scalar) := by
  have hodd : fieldPrime % 2 = 1 := by decide
  have hdouble : fieldPrime < 2 * order := by decide
  have hten : 10 ≤ order := by decide
  exact domain.exists_signWith?_sign hodd hdouble hten z key.ne_zero

/-- The pair that a message is signed with is that of some nonce. -/
theorem exists_signWith?_rawSignature (key : PrivateKey) (message : Bytes) :
    ∃ nonce, domain.signWith? (messageScalar message) key.scalar nonce =
      some (key.rawSignature message) :=
  key.exists_nonce (messageScalar message)

/-- The pair that signing finds satisfies the equation before it is lowered. -/
theorem accepts_rawSignature (key : PrivateKey) (message : Bytes) :
    domain.accepts (messageScalar message) key.publicKey.point
      (key.rawSignature message).1 (key.rawSignature message).2 = true := by
  rcases key.exists_signWith?_rawSignature message with ⟨nonce, hnonce⟩
  -- the pair is taken for any pair: what matters is the nonce, not how it was found
  generalize key.rawSignature message = sig at hnonce ⊢
  rcases sig with ⟨r, s⟩
  exact domain.accepts_of_signWith? hnonce

/-- A signature that was made for a message is accepted under the public key. -/
theorem verify_sign (key : PrivateKey) (message : Bytes) :
    key.publicKey.verify message (key.sign message).toDer = true := by
  have haccept := key.accepts_rawSignature message
  rw [publicKey_eq] at haccept
  rw [PublicKey.verify_toDer, publicKey_eq, PrivateKey.sign, PublicKey.accepts_ofScalars]
  exact haccept

end PrivateKey

end KeyTree.Secp256k1
