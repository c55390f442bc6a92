import KeyTree.Proofs.Secp256k1.Signature

/-!
# Signatures read from bytes

There are two readers of the DER form. `ofDer` answers the signature, and `checkDer`, with which the
verifier reads, puts it to a test; each takes the integers out of the bytes and brings the second
one into the lower half by itself. What they agree on does not depend on the test, so nothing here
is about the curve.

* `ofDer_retraction`: writing what was read gives bytes that are read in the same way, and which
  bytes come back, and which are read as one signature.
* `verify_followsReading`: the verifier goes by the signature that is read from the bytes, and does
  not tell a second half from its negative.
-/

namespace KeyTree.Secp256k1.Signature

/-! ## Writing what was read -/

/-- Bytes that write a pair of integers are read as the signature of their scalars. -/
theorem ofDer_of_writesPair {bytes : Bytes} {r s : ℤ} (h : Der.WritesPair bytes r s) :
    ofDer bytes = .ok (ofScalars (scalarOfInt r) (scalarOfInt s)) :=
  ofDer_eq_ok_iff.2 ⟨r, s, h, rfl⟩

/-- Only integers in range, the second one in the lower half, are written as they were read. -/
theorem toDer_eq_iff {bytes : Bytes} {sig : Signature} (h : ofDer bytes = .ok sig) :
    sig.toDer = bytes ↔ ∃ r s : ℤ, Der.WritesPair bytes r s ∧ (0 ≤ r ∧ r < order) ∧
      0 ≤ s ∧ s ≤ ((order : ℤ) - 1) / 2 := by
  have hodd : order % 2 = 1 := by decide
  constructor
  · intro hbytes
    have hr := sig.r.isLt
    have hs := sig.s_le
    refine ⟨sig.r.val, sig.s.val, ?_, ⟨by omega, by omega⟩, by omega, by omega⟩
    rw [← hbytes]
    exact sig.writesPair_toDer
  · intro hpair
    rcases hpair with ⟨r, s, hpair, ⟨hr₀, hr⟩, hs₀, hs⟩
    rw [ofDer_of_writesPair hpair, Except.ok.injEq] at h
    -- the integers stand for themselves, and the second one is not replaced by its negative
    have hfirst : (sig.r.val : ℤ) = r := by
      rw [← h, r_ofScalars, val_scalarOfInt hr₀ hr]
    have hsecond : (sig.s.val : ℤ) = s := by
      have hval := val_scalarOfInt hs₀ (by omega)
      rw [← h, val_s_ofScalars]
      omega
    rw [toDer_eq, hfirst, hsecond, hpair.eq_encodePair]

/-- Bytes are read as one signature when the integers, those out of range as zero, are equal up to
the sign of the second one. -/
theorem ofDer_eq_ofDer_iff {bytes bytes' : Bytes} {r s r' s' : ℤ} (h : Der.WritesPair bytes r s)
    (h' : Der.WritesPair bytes' r' s') :
    ofDer bytes = ofDer bytes' ↔ scalarValue r = scalarValue r' ∧
      (scalarValue s = scalarValue s' ∨ scalarValue s + scalarValue s' = order) := by
  rw [ofDer_of_writesPair h, ofDer_of_writesPair h', Except.ok.injEq, ofScalars_eq_iff]
  simp only [← val_scalarOfInt_eq]
  omega

/-- Reading is a retraction onto the encodings of signatures: what was read is written in bytes that
are read as the same signature. The bytes come back when their integers are in range and the second
one is in the lower half. Two byte strings are read as one signature when their integers, those out
of range as zero, are equal up to the sign of the second one. -/
theorem ofDer_retraction :
    (∀ (bytes : Bytes) (sig : Signature), ofDer bytes = .ok sig →
      (∃ r s : ℤ, Der.WritesPair bytes r s) ∧ ofDer sig.toDer = .ok sig ∧
      (sig.toDer = bytes ↔ ∃ r s : ℤ, Der.WritesPair bytes r s ∧ (0 ≤ r ∧ r < order) ∧
        0 ≤ s ∧ s ≤ ((order : ℤ) - 1) / 2)) ∧
    ∀ (bytes bytes' : Bytes) (r s r' s' : ℤ), Der.WritesPair bytes r s →
      Der.WritesPair bytes' r' s' →
      ∃ sig sig', ofDer bytes = .ok sig ∧ ofDer bytes' = .ok sig' ∧
        (sig = sig' ↔ scalarValue r = scalarValue r' ∧
          (scalarValue s = scalarValue s' ∨ scalarValue s + scalarValue s' = order)) := by
  constructor
  · intro bytes sig h
    rcases ofDer_eq_ok_iff.1 h with ⟨r, s, hpair, -⟩
    exact ⟨⟨r, s, hpair⟩, sig.ofDer_toDer, toDer_eq_iff h⟩
  · intro bytes bytes' r s r' s' hpair hpair'
    refine ⟨_, _, ofDer_of_writesPair hpair, ofDer_of_writesPair hpair', ?_⟩
    rw [← ofDer_eq_ofDer_iff hpair hpair', ofDer_of_writesPair hpair, ofDer_of_writesPair hpair',
      Except.ok.injEq]

/-- A second half of one and its negative, behind a first half that stands for zero. -/
theorem ofDer_retraction_high :
    (ofDer (ofLow 0 1 (by decide)).toDer = .ok (ofLow 0 1 (by decide)) ∧
      (ofLow 0 1 (by decide)).toDer ≠ Der.encodePair (-1) (order - 1)) ∧
    ∃ sig sig', ofDer (Der.encodePair (-1) (order - 1)) = .ok sig ∧
      ofDer (Der.encodePair order 1) = .ok sig' ∧ sig = sig' := by
  have hread : ofDer (Der.encodePair (-1) (order - 1)) = .ok (ofLow 0 1 (by decide)) := by decide
  have hpair : Der.WritesPair (Der.encodePair (-1) (order - 1)) (-1) (order - 1) :=
    Der.readPair?_eq_some_iff.1 (by decide)
  have hpair' : Der.WritesPair (Der.encodePair order 1) order 1 :=
    Der.readPair?_eq_some_iff.1 (by decide)
  rcases ofDer_retraction with ⟨hwrite, hequal⟩
  refine ⟨⟨(hwrite _ _ hread).2.1, by decide⟩, ?_⟩
  rcases hequal _ _ _ _ _ _ hpair hpair' with ⟨sig, sig', hsig, hsig', hiff⟩
  exact ⟨sig, sig', hsig, hsig', hiff.2 (by decide)⟩

/-! ## Putting what was read to a test -/

section Check

variable {accepts : Signature → Bool}

/-- The test is put to the signature that the other reader finds. -/
theorem checkDer_of_ok {bytes : Bytes} {sig : Signature} (h : ofDer bytes = .ok sig) :
    checkDer accepts bytes = accepts sig := by
  rcases ofDer_eq_ok_iff.1 h with ⟨r, s, hpair, rfl⟩
  unfold checkDer
  rw [Der.readPair?_eq_some_iff.2 hpair]

/-- Bytes that the other reader refuses do not pass. -/
theorem checkDer_of_error {bytes : Bytes} {e : Error} (h : ofDer bytes = .error e) :
    checkDer accepts bytes = false := by
  unfold checkDer
  rcases hread : Der.readPair? bytes with _ | ⟨r, s⟩
  · rfl
  · rw [ofDer_of_writesPair (Der.readPair?_eq_some_iff.1 hread)] at h
    exact absurd h (by simp)

end Check

/-- Two numbers in range and the pair with the negated second one are read as one signature. -/
theorem exists_ofDer_encodePair_neg {r s : ℕ} (hr : r < order) (hs₁ : 1 ≤ s) (hs : s < order) :
    ∃ sig, ofDer (Der.encodePair r s) = .ok sig ∧
      ofDer (Der.encodePair r ((order : ℤ) - s)) = .ok sig := by
  obtain ⟨r, rfl⟩ : ∃ k : Scalar, k.val = r := ⟨⟨r, hr⟩, rfl⟩
  obtain ⟨s, rfl⟩ : ∃ k : Scalar, k.val = s := ⟨⟨s, hs⟩, rfl⟩
  have hne : s ≠ 0 := PrivateKey.val_ne_zero_iff.2 (Nat.one_le_iff_ne_zero.1 hs₁)
  exact ⟨ofScalars r s, ofDer_encodePair r s, ofDer_encodePair_neg r hne⟩

/-- The verdict on bytes is one on the signature that is read from them. -/
structure FollowsReading (check : Bytes → Bool) : Prop where
  of_error : ∀ bytes e, ofDer bytes = .error e → check bytes = false
  of_ok : ∀ bytes sig, ofDer bytes = .ok sig → check bytes = check sig.toDer
  neg : ∀ r s : ℕ, r < order → 1 ≤ s → s < order →
    check (Der.encodePair r s) = check (Der.encodePair r ((order : ℤ) - s))

/-- Whatever the test, the two readers agree. -/
theorem followsReading_checkDer (accepts : Signature → Bool) :
    FollowsReading (checkDer accepts) where
  of_error := by
    intro bytes e h
    exact checkDer_of_error h
  of_ok := by
    intro bytes sig h
    rw [checkDer_of_ok h, checkDer_of_ok sig.ofDer_toDer]
  neg := by
    intro r s hr hs₁ hs
    rcases exists_ofDer_encodePair_neg hr hs₁ hs with ⟨sig, hsig, hneg⟩
    rw [checkDer_of_ok hsig, checkDer_of_ok hneg]

end Signature

open Signature

/-- The verifier goes by the signature that the other reader finds in the bytes, for every key and
message and whatever the curve has to say about the signature. The encodings of `(r, s)` and
`(r, -s)` hold one signature, and so they get one verdict. -/
theorem PublicKey.verify_followsReading :
    (∀ (key : PublicKey) (message : Bytes), FollowsReading (key.verify message)) ∧
    (∀ accepts : Signature → Bool, FollowsReading (checkDer accepts)) ∧
    ∀ r s : ℕ, r < order → 1 ≤ s → s < order →
      ∃ sig, ofDer (Der.encodePair r s) = .ok sig ∧
        ofDer (Der.encodePair r ((order : ℤ) - s)) = .ok sig := by
  refine ⟨?_, followsReading_checkDer, ?_⟩
  · intro key message
    exact followsReading_checkDer (key.accepts message)
  · intro r s hr hs₁ hs
    exact exists_ofDer_encodePair_neg hr hs₁ hs

/-- The base point as a key, the empty message, and the second half one in both forms. -/
theorem PublicKey.verify_followsReading_base :
    FollowsReading (PublicKey.verify ⟨domain.base⟩ []) ∧
    PublicKey.verify ⟨domain.base⟩ [] [0x30] = false ∧
    PublicKey.verify ⟨domain.base⟩ [] (Der.encodePair 1 1) =
      PublicKey.verify ⟨domain.base⟩ [] (Der.encodePair 1 (order - 1)) ∧
    ∃ sig, ofDer (Der.encodePair 1 1) = .ok sig ∧
      ofDer (Der.encodePair 1 (order - 1)) = .ok sig := by
  rcases PublicKey.verify_followsReading with ⟨hverify, -, hneg⟩
  have hbase := hverify ⟨domain.base⟩ []
  exact ⟨hbase, hbase.of_error [0x30] .invalidSignature (by decide),
    hbase.neg 1 1 (by decide) (by decide) (by decide), hneg 1 1 (by decide) (by decide) (by decide)⟩

end KeyTree.Secp256k1
