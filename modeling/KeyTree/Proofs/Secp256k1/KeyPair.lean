import KeyTree.Proofs.Secp256k1.PublicEncoding
import KeyTree.Secp256k1.KeyPair

/-!
# Key pairs from bytes

A key pair is read from the bytes of its private key, and nothing of them is lost: they are written
again by the private key, and they can be told from the public key, since the base point has the
order modulo which private keys are numbers. Two private keys that add up to the order have opposite
points as their public keys, and these are the only pairs whose compressed forms differ in nothing
but the tag.

* `nsmul_basePoint_inj`, `nsmul_basePoint_eq_neg_iff`: multiples of the base point below its order.
* `opposite_iff`: what the compressed forms of opposite points look like.
* `ofBytes_lossless`: which bytes are read, and what the public keys tell about them.
-/

namespace KeyTree.Secp256k1

open KeyTree.Modular KeyTree.Weierstrass

/-! ## Multiples of the base point -/

/-- Below the order, a multiple of the base point tells its factor. -/
theorem nsmul_basePoint_inj {k l : ℕ} (hk : k < order) (hl : l < order) :
    k • basePoint = l • basePoint ↔ k = l := by
  have hinj := nsmul_injOn_Iio_addOrderOf (x := basePoint)
  rw [addOrderOf_basePoint] at hinj
  exact hinj.eq_iff hk hl

/-- Two multiples are opposite if their factors make up the order. -/
theorem nsmul_basePoint_eq_neg_iff {k l : ℕ} (hk : 1 ≤ k ∧ k < order) (hl : 1 ≤ l ∧ l < order) :
    k • basePoint = -(l • basePoint) ↔ k + l = order := by
  rw [eq_neg_iff_add_eq_zero, ← add_nsmul, nsmul_basePoint_eq_zero_iff]
  constructor
  · intro hmod
    -- the only multiple of the order between zero and twice the order
    rcases Nat.dvd_of_mod_eq_zero hmod with ⟨c, hc⟩
    have hc0 : c ≠ 0 := by
      rintro rfl
      omega
    have hc2 : c < 2 := by
      by_contra hge
      have hmul : order * 2 ≤ order * c := Nat.mul_le_mul_left order (by omega)
      omega
    have hc1 : c = 1 := by omega
    rw [hc, hc1, mul_one]
  · intro hsum
    rw [hsum, Nat.mod_self]

/-! ## Opposite points -/

/-- The compressed forms show one x coordinate and two different parities. -/
def PublicKey.Opposite (key key' : PublicKey) : Prop :=
  ∃ x, (key.compressed = 0x02 :: x ∧ key'.compressed = 0x03 :: x) ∨
    (key.compressed = 0x03 :: x ∧ key'.compressed = 0x02 :: x)

namespace PublicKey

theorem coordinateBytes_inj {x x' : Coordinate} (h : coordinateBytes x = coordinateBytes x') :
    x = x' := by
  have hdecode := decode_coordinateBytes x
  rw [h, decode_coordinateBytes] at hdecode
  exact Fin.ext hdecode.symm

/-- In coordinates: one x, and two parities of y. -/
theorem opposite_affine_iff {x y x' y' : Coordinate} :
    Opposite ⟨.affine x y⟩ ⟨.affine x' y'⟩ ↔ x' = x ∧ parityTag y' ≠ parityTag y := by
  unfold Opposite compressed
  simp only [List.cons.injEq]
  constructor
  · rintro ⟨b, ⟨⟨htag, hx⟩, htag', hx'⟩ | ⟨⟨htag, hx⟩, htag', hx'⟩⟩
    · exact ⟨coordinateBytes_inj (hx'.trans hx.symm), by rw [htag, htag']; decide⟩
    · exact ⟨coordinateBytes_inj (hx'.trans hx.symm), by rw [htag, htag']; decide⟩
  · rintro ⟨rfl, hne⟩
    refine ⟨coordinateBytes x', ?_⟩
    -- there are two tags, so that the one of `y'` is the other one
    rcases parityTag_eq_or_eq y with htag | htag
    · rw [htag] at hne
      exact .inl ⟨⟨htag, rfl⟩, (parityTag_eq_or_eq y').resolve_left hne, rfl⟩
    · rw [htag] at hne
      exact .inr ⟨⟨htag, rfl⟩, (parityTag_eq_or_eq y').resolve_right hne, rfl⟩

/-- Such keys are the points that lie opposite each other. -/
theorem opposite_iff {key key' : PublicKey} (h : key.Valid) (h' : key'.Valid) :
    key.Opposite key' ↔ key'.point = -key.point := by
  rcases h.exists_affine with ⟨x, y, rfl, hcurve⟩
  rcases h'.exists_affine with ⟨x', y', rfl, hcurve'⟩
  rw [opposite_affine_iff, neg_affine, Point.affine.injEq]
  constructor
  · rintro ⟨rfl, htag⟩
    refine ⟨rfl, (eq_or_eq_neg_of_onCurve hcurve hcurve').resolve_left ?_⟩
    rintro rfl
    exact htag rfl
  · rintro ⟨rfl, rfl⟩
    exact ⟨rfl, parityTag_neg_ne (y_ne_zero hcurve)⟩

end PublicKey

/-! ## Reading a pair -/

namespace KeyPair

theorem ext_privateKey {pair pair' : KeyPair} (h : pair.privateKey = pair'.privateKey) :
    pair = pair' := by
  rcases pair with ⟨key, _, rfl⟩
  rcases pair' with ⟨key', _, rfl⟩
  rcases (show key = key' from h) with rfl
  rfl

/-- The reader of pairs is the reader of private keys. -/
theorem ofBytes_eq_ok_iff {bytes : Bytes} {pair : KeyPair} :
    ofBytes bytes = .ok pair ↔ PrivateKey.ofBytes bytes = .ok pair.privateKey := by
  unfold ofBytes
  rcases PrivateKey.ofBytes bytes with e | key
  · simp
  · constructor
    · intro h
      rw [← Except.ok.inj h]
      rfl
    · intro h
      rw [Except.ok.inj h]
      exact congrArg Except.ok (ext_privateKey rfl)

/-- A pair is refused for its width or for its number. -/
theorem ofBytes_eq_error_iff {bytes : Bytes} :
    ofBytes bytes = .error .invalidPrivateKey ↔
      ¬(bytes.length = 32 ∧ PrivateKey.InRange (BigEndian.decode bytes)) := by
  rw [← PrivateKey.ofBytes_eq_error_iff]
  unfold ofBytes
  rcases PrivateKey.ofBytes bytes with e | key
  · simp
  · simp

/-- The number that was read is the scalar of the private key. -/
theorem decode_of_ofBytes {bytes : Bytes} {pair : KeyPair} (h : ofBytes bytes = .ok pair) :
    BigEndian.decode bytes = pair.privateKey.scalar.val :=
  (PrivateKey.ofBytes_eq_ok_iff_length.1 (ofBytes_eq_ok_iff.1 h)).2

/-- Only numbers from 1 to the order less one are read. -/
theorem inRange_of_ofBytes {bytes : Bytes} {pair : KeyPair} (h : ofBytes bytes = .ok pair) :
    PrivateKey.InRange (BigEndian.decode bytes) := by
  rw [decode_of_ofBytes h]
  exact pair.privateKey.inRange_val

/-- A pair is read exactly from 32 bytes that write a number in range. -/
theorem exists_ofBytes_iff {bytes : Bytes} :
    (∃ pair, ofBytes bytes = .ok pair) ↔
      bytes.length = 32 ∧ PrivateKey.InRange (BigEndian.decode bytes) := by
  constructor
  · rintro ⟨pair, h⟩
    exact ⟨(PrivateKey.ofBytes_eq_ok_iff_length.1 (ofBytes_eq_ok_iff.1 h)).1, inRange_of_ofBytes h⟩
  · rintro ⟨hlength, hrange⟩
    rcases PrivateKey.exists_of_inRange hrange with ⟨key, hkey⟩
    refine ⟨ofPrivateKey key, ofBytes_eq_ok_iff.2 ?_⟩
    exact PrivateKey.ofBytes_eq_ok_iff_length.2 ⟨hlength, hkey.symm⟩

/-- The bytes are those that the private key is written in. -/
theorem toBytes_of_ofBytes {bytes : Bytes} {pair : KeyPair} (h : ofBytes bytes = .ok pair) :
    pair.privateKey.toBytes.toList = bytes :=
  PrivateKey.toBytes_ofBytes (ofBytes_eq_ok_iff.1 h)

/-- The public key of a pair that was read is the multiple of the base point by the number. -/
theorem publicKey_of_ofBytes {bytes : Bytes} {pair : KeyPair} (h : ofBytes bytes = .ok pair) :
    pair.publicKey = ⟨domain.curve.coords (BigEndian.decode bytes • basePoint)⟩ := by
  rw [pair.publicKey_eq, PrivateKey.publicKey_eq, decode_of_ofBytes h]

/-- The public key of a pair is a point of the curve, and not infinity. -/
theorem valid_publicKey (pair : KeyPair) : pair.publicKey.Valid := by
  rw [pair.publicKey_eq]
  exact pair.privateKey.publicKey_valid

/-- Public keys tell the bytes that their pairs were read from. -/
theorem publicKey_inj_of_ofBytes {bytes bytes' : Bytes} {pair pair' : KeyPair}
    (h : ofBytes bytes = .ok pair) (h' : ofBytes bytes' = .ok pair') :
    pair.publicKey = pair'.publicKey ↔ bytes = bytes' := by
  have hlt := (inRange_of_ofBytes h).2
  have hlt' := (inRange_of_ofBytes h').2
  have hnumber : pair.publicKey = pair'.publicKey ↔
      BigEndian.decode bytes = BigEndian.decode bytes' := by
    rw [publicKey_of_ofBytes h, publicKey_of_ofBytes h', PublicKey.mk.injEq,
      domain.curve.coords_injective.eq_iff, nsmul_basePoint_inj hlt hlt']
  rw [hnumber]
  constructor
  · intro hdecode
    rw [← toBytes_of_ofBytes h, ← toBytes_of_ofBytes h']
    rw [decode_of_ofBytes h, decode_of_ofBytes h'] at hdecode
    rw [PrivateKey.ext_val hdecode]
  · rintro rfl
    rfl

/-- Opposite public keys come from private keys that add up to the order. -/
theorem opposite_iff_of_ofBytes {bytes bytes' : Bytes} {pair pair' : KeyPair}
    (h : ofBytes bytes = .ok pair) (h' : ofBytes bytes' = .ok pair') :
    pair.publicKey.Opposite pair'.publicKey ↔
      BigEndian.decode bytes + BigEndian.decode bytes' = order := by
  rw [PublicKey.opposite_iff pair.valid_publicKey pair'.valid_publicKey, publicKey_of_ofBytes h,
    publicKey_of_ofBytes h', ← coords_neg, domain.curve.coords_injective.eq_iff,
    nsmul_basePoint_eq_neg_iff (inRange_of_ofBytes h') (inRange_of_ofBytes h), Nat.add_comm]

/-- Which bytes make a pair, and what is left of them. Exactly the 32 bytes of a number from 1 to
the order less one are read. The private key is written in the same bytes, and the public key is
that multiple of the base point, which is not infinity. Of two pairs, the public keys are the same
if and only if the bytes are, and they show one x coordinate and different parities if and only if
the numbers add up to the order. -/
theorem ofBytes_lossless :
    (∀ bytes : Bytes,
      ((∃ pair, ofBytes bytes = .ok pair) ↔
        bytes.length = 32 ∧ 1 ≤ BigEndian.decode bytes ∧ BigEndian.decode bytes < order) ∧
      (¬(bytes.length = 32 ∧ 1 ≤ BigEndian.decode bytes ∧ BigEndian.decode bytes < order) →
        ofBytes bytes = .error .invalidPrivateKey)) ∧
    (∀ (bytes : Bytes) (pair : KeyPair), ofBytes bytes = .ok pair →
      pair.privateKey.toBytes.toList = bytes ∧
      pair.publicKey.point = domain.curve.coords (BigEndian.decode bytes • basePoint) ∧
      pair.publicKey.point ≠ .infinity) ∧
    ∀ (bytes bytes' : Bytes) (pair pair' : KeyPair), ofBytes bytes = .ok pair →
      ofBytes bytes' = .ok pair' →
      (pair.publicKey = pair'.publicKey ↔ bytes = bytes') ∧
      (pair.publicKey.Opposite pair'.publicKey ↔
        BigEndian.decode bytes + BigEndian.decode bytes' = order) := by
  refine ⟨?_, ?_, ?_⟩
  · intro bytes
    exact ⟨exists_ofBytes_iff, ofBytes_eq_error_iff.2⟩
  · intro bytes pair h
    refine ⟨toBytes_of_ofBytes h, ?_, pair.valid_publicKey.1⟩
    rw [publicKey_of_ofBytes h]
  · intro bytes bytes' pair pair' h h'
    exact ⟨publicKey_inj_of_ofBytes h h', opposite_iff_of_ofBytes h h'⟩

/-- The order itself is refused; one and the order less one are read, and make opposite points. -/
theorem ofBytes_lossless_opposite :
    ofBytes (BigEndian.encode 32 order).toList = .error .invalidPrivateKey ∧
    ∃ pair pair' : KeyPair,
      pair.privateKey.toBytes.toList = (BigEndian.encode 32 1).toList ∧
      pair'.publicKey.point ≠ .infinity ∧ pair.publicKey ≠ pair'.publicKey ∧
      pair.publicKey.Opposite pair'.publicKey := by
  rcases ofBytes_lossless with ⟨hread, hwrite, hpublic⟩
  have hone : ofBytes (BigEndian.encode 32 1).toList = .ok (ofPrivateKey ⟨1, by decide⟩) := by
    decide +kernel
  have hlast : ofBytes (BigEndian.encode 32 (order - 1)).toList =
      .ok (ofPrivateKey ⟨-1, by decide⟩) := by
    decide +kernel
  rcases hpublic _ _ _ _ hone hlast with ⟨hequal, hopposite⟩
  refine ⟨(hread _).2 (by decide), ofPrivateKey ⟨1, by decide⟩, ofPrivateKey ⟨-1, by decide⟩,
    (hwrite _ _ hone).1, (hwrite _ _ hlast).2.2, ?_, hopposite.2 (by decide)⟩
  rw [ne_eq, hequal]
  decide

end KeyPair

end KeyTree.Secp256k1
