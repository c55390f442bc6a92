import KeyTree.Proofs.Ecdsa.Nonce
import KeyTree.Proofs.Secp256k1.Verification

/-!
# Signing gives the lower form

A signature is made in two ways: two scalars are brought into the lower form when a message is
signed, and two integers when bytes are read. Here the two ways meet. The scalars that a nonce gives
may be written as they are, or with the second one negated, and are read as the signature that the
signer would have made of them.

* `rawSignature_of_first`: the pair comes from the first value of the stream that gives one.
* `sign_lowForm`: the signature of a message is the lower form of the pair that the first good nonce
  of the stream gives, whichever of the two pairs the signer has found.
-/

namespace KeyTree.Secp256k1

open KeyTree.Ecdsa Signature

namespace PrivateKey

/-- The nonces for a message come from the key and the digest. -/
def nonces (key : PrivateKey) (message : Bytes) : NonceStream :=
  nonceStream (messageScalar message) key.scalar

/-- The pair that a number gives as the nonce, if it gives one. -/
def pairWith? (key : PrivateKey) (message : Bytes) (k : ℕ) : Option (Scalar × Scalar) :=
  domain.signNumber? (messageScalar message) key.scalar k

/-- The pair is the one with the first good value of the stream. -/
theorem rawSignature_of_first {key : PrivateKey} {message : Bytes} {j : ℕ} (hj : j < maxNonces)
    {pair : Scalar × Scalar} (h : key.pairWith? message ((key.nonces message).nth j) = some pair)
    (hbefore : ∀ i < j, key.pairWith? message ((key.nonces message).nth i) = none) :
    key.rawSignature message = pair :=
  sign_of_first hj h hbefore

/-- The signature of a message is the lower form of a pair. The pair is the one of the first value
of the stream that gives one, as long as there is one among the first thousand; in any case it is
the pair of some nonce. Written as it is, or with the second scalar negated, it is read as the
signature of the message, and the signature is written with the lower of the two. So it makes no
difference which of the two pairs a signer has found. -/
theorem sign_lowForm (key : PrivateKey) (message : Bytes) :
    (∀ (j : ℕ) (pair : Scalar × Scalar), j < 1000 →
      key.pairWith? message ((key.nonces message).nth j) = some pair →
      (∀ i < j, key.pairWith? message ((key.nonces message).nth i) = none) →
      key.rawSignature message = pair) ∧
    ∃ r s : Scalar, key.rawSignature message = (r, s) ∧
      (∃ k : Scalar, xScalar? (domain.baseMultiple k) = some r ∧
        s = Modular.inverse k * (messageScalar message + r * key.scalar)) ∧
      1 ≤ r.val ∧ 1 ≤ s.val ∧
      ofDer (Der.encodePair r.val s.val) = .ok (key.sign message) ∧
      ofDer (Der.encodePair r.val ((order : ℤ) - s.val)) = .ok (key.sign message) ∧
      (key.sign message).toDer = Der.encodePair r.val (min s.val (order - s.val) : ℕ) ∧
      ∀ r' s' : Scalar, r'.val = r.val → (s'.val = s.val ∨ s'.val = order - s.val) →
        ofScalars r' s' = key.sign message := by
  constructor
  · intro j pair hj h hbefore
    exact rawSignature_of_first hj h hbefore
  · rcases key.exists_signWith?_rawSignature message with ⟨nonce, hnonce⟩
    have hsign : key.sign message =
        ofScalars (key.rawSignature message).1 (key.rawSignature message).2 := rfl
    rw [hsign]
    -- what is left is true of any pair that a nonce gives
    generalize key.rawSignature message = pair at hnonce ⊢
    rcases pair with ⟨r, s⟩
    rcases signWith?_eq_some_iff.1 hnonce with ⟨hx, hr, hs, heq⟩
    have hr₁ := val_ne_zero_iff.1 hr
    have hs₁ := val_ne_zero_iff.1 hs
    have hlt := s.isLt
    refine ⟨r, s, rfl, ⟨nonce, hx, heq⟩, by omega, by omega, ofDer_encodePair r s,
      ofDer_encodePair_neg r hs, toDer_ofScalars r s, ?_⟩
    intro r' s' hr' hs'
    refine ofScalars_eq_iff.2 ⟨hr', ?_⟩
    show s'.val = s.val ∨ s'.val + s.val = order
    omega

/-- A message for which the key one gives a second scalar in the upper half. -/
theorem sign_lowForm_high :
    rawSignature ⟨1, by decide⟩ [2] =
      (0x6ade59d794a9a95a1f9aa417844fe55ac968ccbfdcb06fcb38c710e4f4228554,
        0x968cc6eb5c9ed6e64dda72bf3f73058045f00a78546f092c7798d59248f55edd) ∧
    ofScalars 0x6ade59d794a9a95a1f9aa417844fe55ac968ccbfdcb06fcb38c710e4f4228554
        0x69733914a3612919b2258d40c08cfa7e74bed26e5ad9970f483988fa8740e264 =
      sign ⟨1, by decide⟩ [2] := by
  rcases sign_lowForm ⟨1, by decide⟩ [2] with ⟨hfirst, r, s, hraw, -, -, -, -, -, -, hsigner⟩
  have hpair : pairWith? ⟨1, by decide⟩ [2] ((nonces ⟨1, by decide⟩ [2]).nth 0) =
      some (0x6ade59d794a9a95a1f9aa417844fe55ac968ccbfdcb06fcb38c710e4f4228554,
        0x968cc6eb5c9ed6e64dda72bf3f73058045f00a78546f092c7798d59248f55edd) := by
    decide +kernel
  have hvalue := hfirst 0 _ (by decide) hpair (by simp)
  refine ⟨hvalue, ?_⟩
  rw [hraw, Prod.mk.injEq] at hvalue
  rcases hvalue with ⟨rfl, rfl⟩
  exact hsigner _ _ rfl (by decide)

end PrivateKey

end KeyTree.Secp256k1
