import KeyTree.Proofs.Der.Pair
import KeyTree.Proofs.Secp256k1.PrivateKey
import KeyTree.Secp256k1.KeyPair

/-!
# Signatures and their two forms

A signature is two scalars, the second one in the lower half. It is written in DER, where the length
depends on the numbers, and in a compact form of 64 bytes. Nothing here is about the curve.

* `ofScalars_eq_iff`: when two pairs of scalars give the same signature.
* `ofDer_encodePair`, `ofDer_encodePair_neg`: a pair and the one with the negated second scalar are
  read as one signature.
* `ofDer_toDer`: a signature is read back from its DER form.
* `canonical_and_ext`: however a signature was made, both of its forms write the same two numbers,
  and signatures that agree in one form are equal.
-/

namespace KeyTree.Secp256k1.Signature

/-! ## Scalars as integers -/

/-- The number that an integer stands for in a signature: out of range it stands for zero. -/
def scalarValue (v : ℤ) : ℤ := if 0 ≤ v ∧ v < order then v else 0

theorem scalarValue_of_inRange {v : ℤ} (h₀ : 0 ≤ v) (h : v < order) : scalarValue v = v :=
  if_pos ⟨h₀, h⟩

/-- The scalar of an integer is the number that the integer stands for. -/
theorem val_scalarOfInt_eq (v : ℤ) : ((scalarOfInt v).val : ℤ) = scalarValue v := by
  have hzero : (0 : Scalar).val = 0 := rfl
  unfold scalarOfInt scalarValue
  split
  · split
    · rw [if_pos ⟨by assumption, by omega⟩]
      exact Int.toNat_of_nonneg (by assumption)
    · rw [if_neg (by omega)]
      omega
  · rw [if_neg (by omega)]
    omega

theorem val_scalarOfInt {v : ℤ} (h₀ : 0 ≤ v) (h : v < order) : ((scalarOfInt v).val : ℤ) = v := by
  rw [val_scalarOfInt_eq, scalarValue_of_inRange h₀ h]

theorem scalarOfInt_val (k : Scalar) : scalarOfInt (k.val : ℤ) = k := by
  have hval := val_scalarOfInt (v := k.val) (by omega) (by exact_mod_cast k.isLt)
  exact Fin.ext (by exact_mod_cast hval)

/-- An integer out of range is read as zero, which no signature that is accepted contains. -/
theorem scalarOfInt_ne_zero_iff {v : ℤ} : scalarOfInt v ≠ 0 ↔ 1 ≤ v ∧ v < order := by
  have hval := val_scalarOfInt_eq v
  rw [PrivateKey.val_ne_zero_iff]
  unfold scalarValue at hval
  split at hval
  · omega
  · omega

/-! ## The lower half -/

/-- A signature is told by the numbers of its halves, since its encoding is. -/
theorem ext_val {sig sig' : Signature} (hr : sig.r.val = sig'.r.val) (hs : sig.s.val = sig'.s.val) :
    sig = sig' := by
  rcases sig with ⟨r, s, hle, der, rfl⟩
  rcases sig' with ⟨r', s', hle', der', rfl⟩
  obtain rfl : r = r' := Fin.ext hr
  obtain rfl : s = s' := Fin.ext hs
  rfl

theorem r_ofScalars (r s : Scalar) : (ofScalars r s).r = r := by
  unfold ofScalars
  split
  · rw [ofLow_r]
  · rw [ofLow_r]

/-- The second half becomes the lower one of the scalar and its negative. -/
theorem val_s_ofScalars (r s : Scalar) :
    (ofScalars r s).s.val = min s.val (order - s.val) := by
  have hodd : order % 2 = 1 := by decide
  have hs := s.isLt
  unfold ofScalars
  split
  · rw [ofLow_s, min_eq_left (by omega)]
  · rename_i hhigh
    rw [ofLow_s, min_eq_right (by omega)]
    apply val_neg
    rintro rfl
    exact hhigh (Nat.zero_le _)

/-- A pair in the lower half is kept as it stands. -/
theorem ofScalars_self (sig : Signature) : ofScalars sig.r sig.s = sig := by
  unfold ofScalars
  rw [dif_pos sig.s_le]
  exact ext_val rfl rfl

/-- Two pairs give the same signature when the first halves are equal and the second ones are equal
or negatives of each other. -/
theorem ofScalars_eq_iff {r s r' s' : Scalar} :
    ofScalars r s = ofScalars r' s' ↔
      r.val = r'.val ∧ (s.val = s'.val ∨ s.val + s'.val = order) := by
  have hodd : order % 2 = 1 := by decide
  have hs := s.isLt
  have hs' := s'.isLt
  have hval := val_s_ofScalars r s
  have hval' := val_s_ofScalars r' s'
  constructor
  · intro h
    have hr : r = r' := by
      rw [← r_ofScalars r s, h, r_ofScalars]
    refine ⟨congrArg Fin.val hr, ?_⟩
    rw [h, hval'] at hval
    omega
  · rintro ⟨hr, h⟩
    apply ext_val
    · rw [r_ofScalars, r_ofScalars, hr]
    · rw [hval, hval']
      omega

/-! ## The DER form -/

/-- A scalar of 32 bytes takes one more at most, for the sign. -/
theorem width_val_le (k : Scalar) : Der.width (k.val : ℤ) ≤ 33 := by
  rw [Der.width_le_iff, Der.magnitude_natCast]
  exact lt_trans k.isLt (by decide)

/-- The lower half takes one byte less. -/
theorem width_s_le (sig : Signature) : Der.width (sig.s.val : ℤ) ≤ 32 := by
  rw [Der.width_le_iff, Der.magnitude_natCast]
  exact lt_of_le_of_lt sig.s_le (by decide)

theorem width_pos (v : ℤ) : 0 < Der.width v := Nat.succ_pos _

/-- The encoding of two scalars is short enough for every length to be written. -/
theorem length_encodePair_lt (r s : Scalar) :
    (Der.encodePair r.val s.val).length < byteLimit 126 := by
  have hr := width_val_le r
  have hs := width_val_le s
  have hlimit : byteLimit 1 ≤ byteLimit 126 := byteLimit_le (by omega)
  have hone : byteLimit 1 = 256 := rfl
  rw [Der.length_encodePair (by omega)]
  omega

/-- Two scalars are read back from their encoding. -/
theorem readPair?_encodePair_val (r s : Scalar) :
    Der.readPair? (Der.encodePair r.val s.val) = some ((r.val : ℤ), (s.val : ℤ)) :=
  Der.readPair?_encodePair (length_encodePair_lt r s)

/-- The bytes that are read as a signature are those that encode two integers. -/
theorem ofDer_eq_ok_iff {bytes : Bytes} {sig : Signature} :
    ofDer bytes = .ok sig ↔
      ∃ r s, Der.WritesPair bytes r s ∧ ofScalars (scalarOfInt r) (scalarOfInt s) = sig := by
  unfold ofDer
  simp only [← Der.readPair?_eq_some_iff]
  rcases Der.readPair? bytes with _ | ⟨r, s⟩
  · simp
  · simp

/-- Two scalars are read as the signature that is made of them. -/
theorem ofDer_encodePair (r s : Scalar) :
    ofDer (Der.encodePair r.val s.val) = .ok (ofScalars r s) := by
  unfold ofDer
  rw [readPair?_encodePair_val]
  dsimp only
  rw [scalarOfInt_val, scalarOfInt_val]

/-- So are they when the second one is replaced by its negative. -/
theorem ofDer_encodePair_neg (r : Scalar) {s : Scalar} (hs : s ≠ 0) :
    ofDer (Der.encodePair r.val ((order : ℤ) - s.val)) = .ok (ofScalars r s) := by
  have hval : ((-s).val : ℤ) = (order : ℤ) - s.val := by
    have hlt := s.isLt
    rw [val_neg hs]
    omega
  rw [← hval, ofDer_encodePair, ofScalars_neg]

/-- A signature is read back from its encoding. -/
theorem ofDer_toDer (sig : Signature) : ofDer sig.toDer = .ok sig := by
  rw [toDer_eq, ofDer_encodePair, ofScalars_self]

/-- The encoding of a signature writes the lower second half, whichever was given. -/
theorem toDer_ofScalars (r s : Scalar) :
    (ofScalars r s).toDer = Der.encodePair r.val (min s.val (order - s.val) : ℕ) := by
  rw [toDer_eq, r_ofScalars, val_s_ofScalars]

/-- The encoding of a signature writes its halves. -/
theorem writesPair_toDer (sig : Signature) : Der.WritesPair sig.toDer sig.r.val sig.s.val := by
  rw [toDer_eq]
  exact Der.writesPair_encodePair (length_encodePair_lt sig.r sig.s)

/-- A signature is told by its encoding, from which it is read. -/
theorem toDer_injective : Function.Injective toDer := by
  intro sig sig' h
  have hread := ofDer_toDer sig
  rw [h, ofDer_toDer, Except.ok.injEq] at hread
  exact hread.symm

/-! ## The compact form -/

/-- The number in the first half of the compact form. -/
def compactFirst (sig : Signature) : ℕ := BigEndian.decode (sig.toCompact.toList.take 32)

/-- The number in the second half of the compact form. -/
def compactSecond (sig : Signature) : ℕ := BigEndian.decode (sig.toCompact.toList.drop 32)

/-- A scalar fits into 32 bytes. -/
theorem decode_encode_val (k : Scalar) :
    BigEndian.decode (BigEndian.encode 32 k.val).toList = k.val :=
  BigEndian.decode_encode (lt_trans k.isLt (by decide))

theorem compactFirst_eq (sig : Signature) : sig.compactFirst = sig.r.val := by
  unfold compactFirst toCompact
  rw [Vector.toList_append, List.take_left' (by simp), decode_encode_val]

theorem compactSecond_eq (sig : Signature) : sig.compactSecond = sig.s.val := by
  unfold compactSecond toCompact
  rw [Vector.toList_append, List.drop_left' (by simp), decode_encode_val]

theorem toCompact_injective : Function.Injective toCompact := by
  intro sig sig' h
  apply ext_val
  · rw [← compactFirst_eq, ← compactFirst_eq, compactFirst, h, compactFirst]
  · rw [← compactSecond_eq, ← compactSecond_eq, compactSecond, h, compactSecond]

/-! ## Both forms -/

/-- The DER form is the strict encoding of the two numbers of the compact form, which are in range,
the second one in the lower half. It is short, so that its length is in its second byte. -/
structure Canonical (sig : Signature) : Prop where
  first_lt : sig.compactFirst < order
  second_le : sig.compactSecond ≤ (order - 1) / 2
  writes : Der.WritesPair sig.toDer sig.compactFirst sig.compactSecond
  eight_le_length : 8 ≤ sig.toDer.length
  length_le : sig.toDer.length ≤ 71
  header : ∃ body, sig.toDer = 0x30 :: UInt8.ofNat (sig.toDer.length - 2) :: body

/-- The forms of every signature are canonical, since the type holds the lower half only. -/
theorem canonical (sig : Signature) : sig.Canonical := by
  have hr := width_val_le sig.r
  have hs := sig.width_s_le
  have hr0 := width_pos sig.r.val
  have hs0 := width_pos sig.s.val
  have hodd : order % 2 = 1 := by decide
  have hle := sig.s_le
  have hlen : sig.toDer.length = Der.width sig.r.val + Der.width sig.s.val + 6 := by
    rw [toDer_eq, Der.length_encodePair (by omega)]
  refine ⟨?_, ?_, ?_, by omega, by omega, ?_⟩
  · rw [compactFirst_eq]
    exact sig.r.isLt
  · rw [compactSecond_eq]
    omega
  · rw [compactFirst_eq, compactSecond_eq]
    exact sig.writesPair_toDer
  · rw [hlen, toDer_eq]
    exact ⟨_, Der.encodePair_eq_cons (by omega)⟩

/-- A signature that was made for a message, or read from bytes, is canonical in both of its forms,
and the second of its numbers is the lower one of a pair. Signatures that agree in one form agree in
the other one and are equal. -/
theorem canonical_and_ext :
    (∀ (key : PrivateKey) (message : Bytes), (key.sign message).Canonical ∧
      (key.sign message).compactFirst = (key.rawSignature message).1.val ∧
      (key.sign message).compactSecond =
        min (key.rawSignature message).2.val (order - (key.rawSignature message).2.val)) ∧
    (∀ (bytes : Bytes) (sig : Signature), ofDer bytes = .ok sig → sig.Canonical ∧
      ∃ r s : ℤ, Der.WritesPair bytes r s ∧ sig.compactFirst = scalarValue r ∧
        sig.compactSecond = min (scalarValue s) (order - scalarValue s)) ∧
    ∀ sig sig' : Signature,
      (sig = sig' ↔ sig.toDer = sig'.toDer) ∧ (sig = sig' ↔ sig.toCompact = sig'.toCompact) := by
  refine ⟨?_, ?_, ?_⟩
  · intro key message
    refine ⟨canonical _, ?_, ?_⟩
    · rw [compactFirst_eq, PrivateKey.sign, r_ofScalars]
    · rw [compactSecond_eq, PrivateKey.sign, val_s_ofScalars]
  · intro bytes sig h
    rcases ofDer_eq_ok_iff.1 h with ⟨r, s, hpair, rfl⟩
    refine ⟨canonical _, r, s, hpair, ?_, ?_⟩
    · rw [compactFirst_eq, r_ofScalars, val_scalarOfInt_eq]
    · have hs := (scalarOfInt s).isLt
      rw [compactSecond_eq, val_s_ofScalars, ← val_scalarOfInt_eq]
      omega
  · intro sig sig'
    exact ⟨toDer_injective.eq_iff.symm, toCompact_injective.eq_iff.symm⟩

/-- A negative integer is read as zero, and one above the lower half as its negative. -/
theorem canonical_and_ext_high :
    ofDer (Der.encodePair (-1) (order - 1)) = .ok (ofLow 0 1 (by decide)) ∧
    (ofLow 0 1 (by decide)).Canonical ∧
    ∃ r s : ℤ, Der.WritesPair (Der.encodePair (-1) (order - 1)) r s ∧
      (ofLow 0 1 (by decide)).compactFirst = scalarValue r ∧
      (ofLow 0 1 (by decide)).compactSecond =
        min (scalarValue s) (order - scalarValue s) := by
  have h : ofDer (Der.encodePair (-1) (order - 1)) = .ok (ofLow 0 1 (by decide)) := by decide
  exact ⟨h, canonical_and_ext.2.1 _ _ h⟩

end KeyTree.Secp256k1.Signature
