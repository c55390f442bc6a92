import KeyTree.Proofs.Bytes.Endian
import KeyTree.Proofs.Secp256k1.PublicKey

/-!
# Encodings of public keys

A public key is written in a compressed and in an uncompressed form, and read from two more.
`Encodes` is the grammar of all four: it says which byte strings write which point. The compressed
form leaves the y coordinate out and tells its parity, which is enough since no point of the curve
has `y = 0` and so the two roots of the right side have different parities.

* `lift?_eq_some_iff`: the root with the parity of the tag is found, if there is a root.
* `ofBytes_eq_ok_iff`: the reader follows the grammar.
* `encodings_agree`: which byte strings are read, and what comes back when a key that was read is
  written.
-/

namespace KeyTree.Secp256k1

open KeyTree.Modular KeyTree.Weierstrass

namespace PublicKey

/-! ## Coordinates -/

theorem length_coordinateBytes (x : Coordinate) : (coordinateBytes x).length = 32 := by
  simp [coordinateBytes]

theorem decode_coordinateBytes (x : Coordinate) :
    BigEndian.decode (coordinateBytes x) = x.val :=
  BigEndian.decode_encode (lt_trans x.isLt (by decide))

/-- Of the byte strings of the full width one writes a coordinate. -/
theorem coordinateBytes_eq_iff {x : Coordinate} {bytes : Bytes} (h : bytes.length = 32) :
    coordinateBytes x = bytes ↔ BigEndian.decode bytes = x.val := by
  constructor
  · rintro rfl
    exact decode_coordinateBytes x
  · intro hx
    unfold coordinateBytes
    rw [← hx, ← h]
    exact BigEndian.toList_encode_decode bytes

/-- A coordinate is read from the bytes of its number. -/
theorem coordinate?_eq_some_iff {bytes : Bytes} {x : Coordinate} :
    coordinate? bytes = some x ↔ BigEndian.decode bytes = x.val := by
  unfold coordinate?
  constructor
  · intro h
    split at h
    · cases h
      rfl
    · exact absurd h (by simp)
  · intro h
    have hlt : BigEndian.decode bytes < fieldPrime := by
      rw [h]
      exact x.isLt
    rw [dif_pos hlt, Option.some.injEq]
    exact Fin.ext h

/-! ## Parities -/

/-- The equation of the curve, as one of numbers modulo the field prime. -/
theorem onCurve_affine_iff {x y : Coordinate} :
    domain.curve.OnCurve (.affine x y) ↔ toZMod y ^ 2 = toZMod x ^ 3 + 7 := by
  have hsquare : y * y = domain.curve.rightSide x ↔ toZMod y ^ 2 = toZMod x ^ 3 + 7 := by
    rw [← toZMod_inj, toZMod_mul, toZMod_rightSide, toZMod_a, toZMod_b, sq]
    ring_nf
  exact hsquare

/-- No point is on the x axis, since `-7` is no cube. -/
theorem y_ne_zero {x y : Coordinate} (h : domain.curve.OnCurve (.affine x y)) : y ≠ 0 := by
  rintro rfl
  have heq := onCurve_affine_iff.1 h
  apply cube_ne (toZMod x)
  rw [toZMod_zero] at heq
  rw [toZMod_a, toZMod_b]
  linear_combination -heq

/-- The roots of one right side are a number and its negative. -/
theorem eq_or_eq_neg_of_onCurve {x y y' : Coordinate} (h : domain.curve.OnCurve (.affine x y))
    (h' : domain.curve.OnCurve (.affine x y')) : y' = y ∨ y' = -y := by
  have hsq : toZMod y' ^ 2 = toZMod y ^ 2 := by
    rw [onCurve_affine_iff.1 h, onCurve_affine_iff.1 h']
  rcases sq_eq_sq_iff_eq_or_eq_neg.1 hsq with heq | heq
  · exact .inl (toZMod_inj.1 heq)
  · rw [← toZMod_neg] at heq
    exact .inr (toZMod_inj.1 heq)

/-- The opposite point is on the curve as well. -/
theorem onCurve_neg {x y : Coordinate} (h : domain.curve.OnCurve (.affine x y)) :
    domain.curve.OnCurve (.affine x (-y)) := by
  rw [onCurve_affine_iff, toZMod_neg, neg_sq]
  exact onCurve_affine_iff.1 h

theorem parityTag_eq_or_eq (y : Coordinate) : parityTag y = 0x02 ∨ parityTag y = 0x03 := by
  unfold parityTag
  by_cases hy : y.val % 2 = 0
  · exact .inl (if_pos hy)
  · exact .inr (if_neg hy)

/-- The tag tells the parity and no more. -/
theorem parityTag_eq_iff {y y' : Coordinate} :
    parityTag y = parityTag y' ↔ y.val % 2 = y'.val % 2 := by
  unfold parityTag
  rcases Nat.mod_two_eq_zero_or_one y.val with hy | hy
  · rcases Nat.mod_two_eq_zero_or_one y'.val with hy' | hy'
    · simp [hy, hy']
    · simp [hy, hy']
  · rcases Nat.mod_two_eq_zero_or_one y'.val with hy' | hy'
    · simp [hy, hy']
    · simp [hy, hy']

/-- Negating changes the parity of any number but zero. -/
theorem parityTag_neg_ne {y : Coordinate} (h : y ≠ 0) : parityTag (-y) ≠ parityTag y := by
  have hparity := parity_neg_ne (p := fieldPrime) (by decide) (toZMod_eq_zero.not.2 h)
  rw [← toZMod_neg, val_toZMod, val_toZMod] at hparity
  rw [ne_eq, parityTag_eq_iff]
  exact hparity

/-- Of two roots one has the parity that a tag asks for. -/
theorem parityTag_neg {y : Coordinate} (h : y ≠ 0) {tag : UInt8} (htag : tag = 0x02 ∨ tag = 0x03)
    (hy : parityTag y ≠ tag) : parityTag (-y) = tag := by
  have hne := parityTag_neg_ne h
  rcases htag with rfl | rfl
  · rw [(parityTag_eq_or_eq y).resolve_left hy] at hne
    exact (parityTag_eq_or_eq (-y)).resolve_right hne
  · rw [(parityTag_eq_or_eq y).resolve_right hy] at hne
    exact (parityTag_eq_or_eq (-y)).resolve_left hne

/-- The x coordinate and the parity of y tell a point. -/
theorem eq_of_parityTag_eq {x y y' : Coordinate} (h : domain.curve.OnCurve (.affine x y))
    (h' : domain.curve.OnCurve (.affine x y')) (htag : parityTag y = parityTag y') : y = y' := by
  rcases eq_or_eq_neg_of_onCurve h h' with heq | heq
  · exact heq.symm
  · rw [heq] at htag
    exact absurd htag.symm (parityTag_neg_ne (y_ne_zero h))

/-- The root with the parity of the tag is found, if there is a root. -/
theorem lift?_eq_some_iff {tag : UInt8} (htag : tag = 0x02 ∨ tag = 0x03) {x : Coordinate}
    {key : PublicKey} :
    lift? tag x = some key ↔
      ∃ y, domain.curve.OnCurve (.affine x y) ∧ parityTag y = tag ∧ key = ⟨.affine x y⟩ := by
  unfold lift?
  rcases hroot : sqrt? (domain.curve.rightSide x) with _ | r
  · refine iff_of_false (by simp) ?_
    rintro ⟨y, hy, -, -⟩
    apply (sqrt?_eq_none_iff (by decide)).1 hroot
    have hsquare : y * y = domain.curve.rightSide x := hy
    exact ⟨toZMod y, by rw [← hsquare, toZMod_mul]⟩
  · have hr : domain.curve.OnCurve (.affine x r) := mul_self_of_sqrt? hroot
    -- of the root and its negative the one with the right parity is taken
    obtain ⟨hcurve, hparity⟩ :
        domain.curve.OnCurve (.affine x (if parityTag r = tag then r else -r)) ∧
          parityTag (if parityTag r = tag then r else -r) = tag := by
      by_cases h : parityTag r = tag
      · rw [if_pos h]
        exact ⟨hr, h⟩
      · rw [if_neg h]
        exact ⟨onCurve_neg hr, parityTag_neg (y_ne_zero hr) htag h⟩
    constructor
    · intro h
      cases h
      exact ⟨_, hcurve, hparity, rfl⟩
    · rintro ⟨y, hy, hytag, rfl⟩
      have heq := eq_of_parityTag_eq hy hcurve (hytag.trans hparity.symm)
      rw [heq]
      rfl

/-! ## The grammar -/

/-- The bytes write the key: the x coordinate behind a tag for the parity of y, or both coordinates
behind a tag that stands for both or tells the parity of y once more. -/
inductive Encodes : Bytes → PublicKey → Prop
  | short {x y : Coordinate} (h : domain.curve.OnCurve (.affine x y)) :
      Encodes (parityTag y :: coordinateBytes x) ⟨.affine x y⟩
  | long {tag : UInt8} {x y : Coordinate} (h : domain.curve.OnCurve (.affine x y))
      (htag : tag = uncompressedTag ∨ tag = hybridTag y) :
      Encodes (tag :: (coordinateBytes x ++ coordinateBytes y)) ⟨.affine x y⟩

/-- What is read stands in one of the forms. -/
theorem encodes_of_ofBytes? {bytes : Bytes} {key : PublicKey} (h : ofBytes? bytes = some key) :
    Encodes bytes key := by
  rcases bytes with _ | ⟨tag, body⟩
  · exact absurd h (by simp [ofBytes?])
  · simp only [ofBytes?] at h
    split at h
    · rename_i hshort
      rcases hshort with ⟨hlength, htag⟩
      rcases Option.bind_eq_some_iff.1 h with ⟨x, hx, hlift⟩
      rcases (lift?_eq_some_iff htag).1 hlift with ⟨y, hy, rfl, rfl⟩
      rw [← (coordinateBytes_eq_iff hlength).2 (coordinate?_eq_some_iff.1 hx)]
      exact .short hy
    · split at h
      · rename_i hlength
        rcases Option.bind_eq_some_iff.1 h with ⟨x, hx, h⟩
        rcases Option.bind_eq_some_iff.1 h with ⟨y, hy, h⟩
        split at h
        · rename_i hcond
          cases h
          have hx' := (coordinateBytes_eq_iff (by simp [hlength])).2 (coordinate?_eq_some_iff.1 hx)
          have hy' := (coordinateBytes_eq_iff (by simp [hlength])).2 (coordinate?_eq_some_iff.1 hy)
          rw [← List.take_append_drop 32 body, ← hx', ← hy']
          exact .long hcond.1 hcond.2
        · exact absurd h (by simp)
      · exact absurd h (by simp)

/-- What stands in one of the forms is read. -/
theorem Encodes.ofBytes? {bytes : Bytes} {key : PublicKey} (h : Encodes bytes key) :
    ofBytes? bytes = some key := by
  cases h with
  | @short x y h =>
    have htag := parityTag_eq_or_eq y
    have hlift := (lift?_eq_some_iff htag).2 ⟨y, h, rfl, rfl⟩
    simp only [PublicKey.ofBytes?]
    rw [if_pos ⟨length_coordinateBytes x, htag⟩,
      coordinate?_eq_some_iff.2 (decode_coordinateBytes x), Option.bind_eq_bind, Option.bind_some,
      hlift]
  | @long tag x y h htag =>
    have hx := length_coordinateBytes x
    have hy := length_coordinateBytes y
    simp only [PublicKey.ofBytes?]
    rw [if_neg (by simp [hx, hy]), if_pos (by simp [hx, hy]), List.take_left' hx,
      List.drop_left' hx, coordinate?_eq_some_iff.2 (decode_coordinateBytes x),
      coordinate?_eq_some_iff.2 (decode_coordinateBytes y)]
    exact if_pos ⟨h, htag⟩

/-- The reader follows the grammar. -/
theorem ofBytes_eq_ok_iff {bytes : Bytes} {key : PublicKey} :
    ofBytes bytes = .ok key ↔ Encodes bytes key := by
  have hread : ofBytes? bytes = some key ↔ Encodes bytes key :=
    ⟨encodes_of_ofBytes?, Encodes.ofBytes?⟩
  rw [← hread]
  unfold ofBytes
  rcases PublicKey.ofBytes? bytes with _ | key'
  · simp
  · simp

theorem length_of_short {tag : UInt8} {x : Coordinate} :
    (tag :: coordinateBytes x).length = 33 := by
  simp [length_coordinateBytes]

theorem length_of_long {tag : UInt8} {x y : Coordinate} :
    (tag :: (coordinateBytes x ++ coordinateBytes y)).length = 65 := by
  simp [length_coordinateBytes]

/-! ## Written keys -/

/-- What stands in one of the forms is a key. -/
theorem Encodes.valid {bytes : Bytes} {key : PublicKey} (h : Encodes bytes key) : key.Valid := by
  cases h with
  | short h => exact ⟨by simp, h⟩
  | long h _ => exact ⟨by simp, h⟩

/-- A valid key has two coordinates. -/
theorem Valid.exists_affine {key : PublicKey} (h : key.Valid) :
    ∃ x y, key = ⟨.affine x y⟩ ∧ domain.curve.OnCurve (.affine x y) := by
  rcases key with ⟨_ | ⟨x, y⟩⟩
  · exact absurd rfl h.1
  · exact ⟨x, y, rfl, h.2⟩

theorem Valid.encodes_compressed {key : PublicKey} (h : key.Valid) :
    Encodes key.compressed key := by
  rcases h.exists_affine with ⟨x, y, rfl, hcurve⟩
  exact .short hcurve

theorem Valid.encodes_uncompressed {key : PublicKey} (h : key.Valid) :
    Encodes key.uncompressed key := by
  rcases h.exists_affine with ⟨x, y, rfl, hcurve⟩
  exact .long hcurve (.inl rfl)

/-- Bytes of the compressed width are written again as they were read. -/
theorem Encodes.compressed_eq {bytes : Bytes} {key : PublicKey} (h : Encodes bytes key)
    (hlength : bytes.length = 33) : key.compressed = bytes := by
  cases h with
  | short h => rfl
  | long h htag =>
    rw [length_of_long] at hlength
    exact absurd hlength (by decide)

/-- Bytes of the uncompressed width are written again but for the tag. -/
theorem Encodes.uncompressed_eq {bytes : Bytes} {key : PublicKey} (h : Encodes bytes key)
    (hlength : bytes.length = 65) : key.uncompressed = uncompressedTag :: bytes.tail := by
  cases h with
  | short h =>
    rw [length_of_short] at hlength
    exact absurd hlength (by decide)
  | long h htag => rfl

/-! ## The forms in numbers -/

/-- 33 bytes: a tag for one of the parities and an x coordinate of the curve. -/
def IsShort (bytes : Bytes) : Prop :=
  ∃ tag body, bytes = tag :: body ∧ body.length = 32 ∧ (tag = 0x02 ∨ tag = 0x03) ∧
    BigEndian.decode body < fieldPrime ∧
    IsSquare ((BigEndian.decode body : ZMod fieldPrime) ^ 3 + 7)

/-- 65 bytes: a tag for any point or for the parity of y, and the two coordinates of a point of the
curve. -/
def IsLong (bytes : Bytes) : Prop :=
  ∃ tag xs ys, bytes = tag :: (xs ++ ys) ∧ xs.length = 32 ∧ ys.length = 32 ∧
    BigEndian.decode xs < fieldPrime ∧ BigEndian.decode ys < fieldPrime ∧
    (BigEndian.decode ys : ZMod fieldPrime) ^ 2 = (BigEndian.decode xs : ZMod fieldPrime) ^ 3 + 7 ∧
    (tag = 0x04 ∨ (tag = 0x06 ∧ BigEndian.decode ys % 2 = 0) ∨
      (tag = 0x07 ∧ BigEndian.decode ys % 2 = 1))

/-- The hybrid tags, by the parity that each stands for. -/
theorem hybridTag_iff {tag : UInt8} {y : Coordinate} :
    tag = hybridTag y ↔ (tag = 0x06 ∧ y.val % 2 = 0) ∨ (tag = 0x07 ∧ y.val % 2 = 1) := by
  unfold hybridTag
  by_cases hy : y.val % 2 = 0
  · simp [hy]
  · have hy' : y.val % 2 = 1 := by omega
    simp [hy']

/-- The forms of a key satisfy the conditions on their numbers. -/
theorem Encodes.isShort_or_isLong {bytes : Bytes} {key : PublicKey} (h : Encodes bytes key) :
    IsShort bytes ∨ IsLong bytes := by
  cases h with
  | @short x y h =>
    refine .inl ⟨_, _, rfl, length_coordinateBytes x, parityTag_eq_or_eq y, ?_⟩
    rw [decode_coordinateBytes]
    refine ⟨x.isLt, toZMod y, ?_⟩
    rw [← sq]
    exact (onCurve_affine_iff.1 h).symm
  | @long tag x y h htag =>
    refine .inr ⟨_, _, _, rfl, length_coordinateBytes x, length_coordinateBytes y, ?_⟩
    rw [decode_coordinateBytes, decode_coordinateBytes, ← hybridTag_iff]
    exact ⟨x.isLt, y.isLt, onCurve_affine_iff.1 h, htag⟩

/-- An x coordinate of the curve has a point with either parity of y. -/
theorem IsShort.exists_encodes {bytes : Bytes} (h : IsShort bytes) : ∃ key, Encodes bytes key := by
  rcases h with ⟨tag, body, rfl, hlength, htag, hx, r, hr⟩
  have hcurve : domain.curve.OnCurve (.affine ⟨_, hx⟩ (ofZMod r)) := by
    rw [onCurve_affine_iff, toZMod_ofZMod, sq]
    exact hr.symm
  obtain ⟨y, hy, hparity⟩ : ∃ y, domain.curve.OnCurve (.affine ⟨_, hx⟩ y) ∧ parityTag y = tag := by
    by_cases hr : parityTag (ofZMod r) = tag
    · exact ⟨_, hcurve, hr⟩
    · exact ⟨_, onCurve_neg hcurve, parityTag_neg (y_ne_zero hcurve) htag hr⟩
  rw [← hparity, ← (coordinateBytes_eq_iff (x := ⟨_, hx⟩) hlength).2 rfl]
  exact ⟨_, .short hy⟩

/-- Two numbers that satisfy the equation are the coordinates of a key. -/
theorem IsLong.exists_encodes {bytes : Bytes} (h : IsLong bytes) : ∃ key, Encodes bytes key := by
  rcases h with ⟨tag, xs, ys, rfl, hxs, hys, hx, hy, hcurve, htag⟩
  rw [← (coordinateBytes_eq_iff (x := ⟨_, hx⟩) hxs).2 rfl,
    ← (coordinateBytes_eq_iff (x := ⟨_, hy⟩) hys).2 rfl]
  exact ⟨_, .long (onCurve_affine_iff.2 hcurve) (htag.imp id hybridTag_iff.2)⟩

/-- The conditions on the numbers are exactly that some key has this form. -/
theorem exists_encodes_iff {bytes : Bytes} :
    (∃ key, Encodes bytes key) ↔ IsShort bytes ∨ IsLong bytes := by
  constructor
  · rintro ⟨key, h⟩
    exact h.isShort_or_isLong
  · rintro (h | h)
    · exact h.exists_encodes
    · exact h.exists_encodes

/-! ## All forms -/

/-- The forms of a valid key are read back, and tell the key. -/
structure RoundTrips (key : PublicKey) : Prop where
  valid : key.Valid
  of_compressed : ofBytes key.compressed = .ok key
  of_uncompressed : ofBytes key.uncompressed = .ok key

/-- Both forms of a valid key are forms of it, and so they are read back. -/
theorem Valid.roundTrips {key : PublicKey} (h : key.Valid) : key.RoundTrips where
  valid := h
  of_compressed := ofBytes_eq_ok_iff.2 h.encodes_compressed
  of_uncompressed := ofBytes_eq_ok_iff.2 h.encodes_uncompressed

/-- Bytes are read or refused, with one error for all that are refused. -/
theorem ofBytes_cases (bytes : Bytes) :
    (∃ key, ofBytes bytes = .ok key) ∨ ofBytes bytes = .error .invalidPublicKey := by
  unfold ofBytes
  rcases PublicKey.ofBytes? bytes with _ | key
  · exact .inr rfl
  · exact .inl ⟨key, rfl⟩

/-- A key is told by its compressed form. -/
theorem compressed_inj {key key' : PublicKey} (h : key.Valid) (h' : key'.Valid) :
    key = key' ↔ key.compressed = key'.compressed := by
  constructor
  · rintro rfl
    rfl
  · intro heq
    have hread := h.roundTrips.of_compressed
    rw [heq, h'.roundTrips.of_compressed, Except.ok.injEq] at hread
    exact hread.symm

/-- The forms of a public key. Those byte strings are read that hold a coordinate of the curve
behind a tag for a parity, or both coordinates of a point behind a fitting tag, and all others are
refused. A key that was read is written in two forms, from which it is read again, and it is written
as it was read but for the tag of the longer form. The same holds for the public key of a private
key. Valid keys with one compressed form are one key. -/
theorem encodings_agree :
    (∀ bytes : Bytes,
      ((∃ key, ofBytes bytes = .ok key) ↔ IsShort bytes ∨ IsLong bytes) ∧
      (¬(IsShort bytes ∨ IsLong bytes) → ofBytes bytes = .error .invalidPublicKey)) ∧
    (∀ (bytes : Bytes) (key : PublicKey), ofBytes bytes = .ok key → key.RoundTrips ∧
      (∃ x y : Coordinate, key.point = .affine x y ∧
        key.compressed =
          (if y.val % 2 = 0 then 0x02 else 0x03) :: (BigEndian.encode 32 x.val).toList ∧
        key.uncompressed =
          0x04 :: ((BigEndian.encode 32 x.val).toList ++ (BigEndian.encode 32 y.val).toList)) ∧
      key.compressed.length = 33 ∧ key.uncompressed.length = 65 ∧
      (bytes.length = 33 → key.compressed = bytes) ∧
      (bytes.length = 65 → key.uncompressed = 0x04 :: bytes.tail)) ∧
    (∀ key : PrivateKey, key.publicKey.RoundTrips) ∧
    ∀ key key' : PublicKey, key.Valid → key'.Valid →
      (key = key' ↔ key.compressed = key'.compressed) := by
  refine ⟨?_, ?_, ?_, ?_⟩
  · intro bytes
    have hiff : (∃ key, ofBytes bytes = .ok key) ↔ IsShort bytes ∨ IsLong bytes := by
      rw [← exists_encodes_iff]
      exact exists_congr fun key => ofBytes_eq_ok_iff
    refine ⟨hiff, ?_⟩
    intro hnone
    exact (ofBytes_cases bytes).resolve_left fun hread => hnone (hiff.1 hread)
  · intro bytes key hread
    have hencodes := ofBytes_eq_ok_iff.1 hread
    have hvalid := hencodes.valid
    have hshort := hencodes.compressed_eq
    have hlong := hencodes.uncompressed_eq
    refine ⟨hvalid.roundTrips, ?_⟩
    rcases hvalid.exists_affine with ⟨x, y, rfl, -⟩
    exact ⟨⟨x, y, rfl, rfl, rfl⟩, length_of_short, length_of_long, hshort, hlong⟩
  · intro key
    exact key.publicKey_valid.roundTrips
  · intro key key' h h'
    exact compressed_inj h h'

/-- A tag that stands for no form, and the base point in its compressed form, in a hybrid one, and
as the public key of the private key one. -/
theorem encodings_agree_base :
    ofBytes (0x05 :: List.replicate 32 0x05) = .error .invalidPublicKey ∧
    ((⟨domain.base⟩ : PublicKey).RoundTrips ∧
      (⟨domain.base⟩ : PublicKey).compressed.length = 33) ∧
    (⟨domain.base⟩ : PublicKey).uncompressed =
      0x04 :: (0x06 :: (uncompressed ⟨domain.base⟩).tail).tail ∧
    ((⟨domain.base⟩ : PublicKey) = PrivateKey.publicKey ⟨1, by decide⟩ ↔
      compressed ⟨domain.base⟩ = (PrivateKey.publicKey ⟨1, by decide⟩).compressed) := by
  rcases encodings_agree with ⟨hread, hwrite, hpublic, hequal⟩
  have hshort : ofBytes (compressed ⟨domain.base⟩) = .ok ⟨domain.base⟩ := by decide +kernel
  have hlong : ofBytes (0x06 :: (uncompressed ⟨domain.base⟩).tail) = .ok ⟨domain.base⟩ := by
    decide +kernel
  refine ⟨(hread _).2 ?_, ?_, ?_, hequal _ _ (by decide) (hpublic ⟨1, by decide⟩).valid⟩
  · rintro (⟨tag, body, heq, -, htag, -⟩ | ⟨tag, xs, ys, heq, hxs, hys, -⟩)
    · cases heq
      exact absurd htag (by decide)
    · have hlength := congrArg List.length heq
      simp [hxs, hys] at hlength
  · rcases hwrite _ _ hshort with ⟨htrips, -, hlength, -⟩
    exact ⟨htrips, hlength⟩
  · exact (hwrite _ _ hlong).2.2.2.2.2 (by decide)

end PublicKey

end KeyTree.Secp256k1
