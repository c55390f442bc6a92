import KeyTree.Proofs.Der.Length

/-!
# Integers in two's complement

An integer fits into `w + 1` bytes when its magnitude, its digits without the sign, is below
`128 * byteLimit w`. Two things come down to this bound: how many bytes an integer takes, and
whether a byte string could do with one byte less.

* `signed_integerContent`: an integer is read back from its content.
* `integerContent_signed`: a byte string without padding is the content of what it writes.
* `writesContent_iff`: content without padding is the shortest one that two's complement has.
-/

namespace KeyTree.Der

open BigEndian

/-! ## Magnitude and width -/

/-- The digits of an integer without its sign. -/
def magnitude (v : ℤ) : ℕ := if 0 ≤ v then v.toNat else (-v - 1).toNat

theorem magnitude_natCast (n : ℕ) : magnitude n = n := by
  simp [magnitude]

/-- The width of an integer goes by its digits. -/
theorem width_eq (v : ℤ) : width v = bitLength (magnitude v) / 8 + 1 := rfl

/-- An integer is no wider than `w + 1` bytes if its digits leave a bit for the sign. -/
theorem width_le_iff {v : ℤ} {w : ℕ} : width v ≤ w + 1 ↔ magnitude v < 128 * byteLimit w := by
  have hpow : 128 * byteLimit w = 2 ^ (8 * w + 7) := by
    rw [byteLimit_eq, pow_add, mul_comm]
    norm_num
  rw [width_eq, hpow, ← bitLength_le_iff]
  omega

/-- The residue that two's complement writes. -/
theorem residue_cases {v : ℤ} {w : ℕ} (h : magnitude v < 128 * byteLimit w) :
    0 ≤ v ∧ v % byteLimit (w + 1) = v ∧ v < 128 * byteLimit w ∨
      v < 0 ∧ v % byteLimit (w + 1) = v + byteLimit (w + 1) ∧ -(128 * byteLimit w : ℤ) ≤ v := by
  have hsucc := byteLimit_succ w
  unfold magnitude at h
  by_cases hv : 0 ≤ v
  · left
    rw [if_pos hv] at h
    refine ⟨hv, Int.emod_eq_of_lt hv ?_, ?_⟩
    · omega
    · omega
  · right
    rw [if_neg hv] at h
    refine ⟨by omega, ?_, by omega⟩
    rw [← Int.add_emod_right, Int.emod_eq_of_lt]
    · omega
    · omega

/-! ## What a byte string writes -/

/-- The sign shows in the first bit, that is, in whether the number is in the lower half. -/
theorem signed_cons (b : UInt8) (tail : Bytes) :
    signed (b :: tail) =
      if decode (b :: tail) < 128 * byteLimit tail.length then (decode (b :: tail) : ℤ)
      else decode (b :: tail) - byteLimit (tail.length + 1) := by
  have hsign : b < 0x80 ↔ decode (b :: tail) < 128 * byteLimit tail.length := by
    rw [decode_cons_lt_iff, UInt8.lt_iff_toNat_lt]
    rfl
  unfold signed
  rw [List.headD_cons, List.length_cons]
  by_cases hb : b < 0x80
  · rw [if_pos hb, if_pos (hsign.1 hb)]
  · rw [if_neg hb, if_neg fun hlt => hb (hsign.2 hlt)]

/-- The digits of what a byte string writes: a number in the lower half keeps its own, and one in
the upper half has the complement. -/
theorem magnitude_signed_cons (b : UInt8) (tail : Bytes) :
    magnitude (signed (b :: tail)) =
      if decode (b :: tail) < 128 * byteLimit tail.length then decode (b :: tail)
      else byteLimit (tail.length + 1) - 1 - decode (b :: tail) := by
  have hlt := decode_lt (b :: tail)
  rw [List.length_cons] at hlt
  rw [signed_cons]
  by_cases hlow : decode (b :: tail) < 128 * byteLimit tail.length
  · rw [if_pos hlow, if_pos hlow, magnitude_natCast]
  · rw [if_neg hlow, if_neg hlow]
    unfold magnitude
    rw [if_neg (by omega)]
    omega

/-- What a byte string writes is no wider than the string. -/
theorem magnitude_signed_lt (b : UInt8) (tail : Bytes) :
    magnitude (signed (b :: tail)) < 128 * byteLimit tail.length := by
  have hsucc := byteLimit_succ tail.length
  have hpos := byteLimit_pos tail.length
  rw [magnitude_signed_cons]
  split
  · assumption
  · omega

/-- The first byte is padding exactly when what the string writes would fit into the rest. -/
theorem isPadded_iff (b c : UInt8) (tail : Bytes) :
    isPadded (b :: c :: tail) = true ↔
      magnitude (signed (b :: c :: tail)) < 128 * byteLimit tail.length := by
  have hb : b.toNat < 256 := b.toNat_lt
  have hc : c.toNat < 256 := c.toNat_lt
  have hpos := byteLimit_pos tail.length
  have hsucc := byteLimit_succ tail.length
  have hsucc' := byteLimit_succ (tail.length + 1)
  -- the two leading bytes as one digit in front of the tail
  have hdecode : decode (b :: c :: tail) =
      (256 * b.toNat + c.toNat) * byteLimit tail.length + decode tail := by
    rw [decode_cons, decode_cons, List.length_cons, hsucc]
    ring
  have hdigit (k : ℕ) : decode (b :: c :: tail) < k * byteLimit tail.length ↔
      256 * b.toNat + c.toNat < k := by
    rw [hdecode]
    exact mul_add_lt_iff (decode_lt tail)
  have hlow := hdigit 128
  have hhalf := hdigit (128 * 256)
  have hhigh := hdigit (256 * 256 - 128)
  have hpadded : isPadded (b :: c :: tail) = true ↔
      b.toNat = 0 ∧ c.toNat < 128 ∨ b.toNat = 255 ∧ 128 ≤ c.toNat := by
    simp [isPadded, ← UInt8.toNat_inj, UInt8.lt_iff_toNat_lt, UInt8.le_iff_toNat_le]
  rw [hpadded, magnitude_signed_cons, List.length_cons]
  split
  · omega
  · omega

/-! ## Content -/

/-- Two's complement in enough bytes reads back. -/
theorem signed_encode {v : ℤ} {w : ℕ} (h : magnitude v < 128 * byteLimit w) :
    signed (encode (w + 1) (v % byteLimit (w + 1)).toNat).toList = v := by
  have hcases := residue_cases h
  have hsucc := byteLimit_succ w
  -- the residue fits into the bytes, and its upper half stands for the negative numbers
  have hfit : (v % byteLimit (w + 1)).toNat < byteLimit (w + 1) := by omega
  have hdecode := decode_encode hfit
  have hlen : (encode (w + 1) (v % byteLimit (w + 1)).toNat).toList.length = w + 1 := by simp
  generalize (encode (w + 1) (v % byteLimit (w + 1)).toNat).toList = content at hdecode hlen
  rcases content with _ | ⟨b, tail⟩
  · simp at hlen
  · rw [List.length_cons, Nat.add_right_cancel_iff] at hlen
    rw [signed_cons, hdecode, hlen]
    rcases hcases with ⟨hv, hres, hlt⟩ | ⟨hv, hres, hle⟩
    · rw [hres, if_pos (by omega)]
      omega
    · rw [hres, if_neg (by omega)]
      omega

/-- The content of an integer is as long as the integer is wide. -/
theorem length_integerContent (v : ℤ) : (integerContent v).length = width v := by
  simp [integerContent]

/-- An integer is read back from its content. -/
theorem signed_integerContent (v : ℤ) : signed (integerContent v) = v := by
  unfold integerContent
  rw [width_eq]
  apply signed_encode
  rw [← width_le_iff, width_eq]

theorem integerContent_ne_nil (v : ℤ) : integerContent v ≠ [] := by
  intro h
  have hlen := length_integerContent v
  rw [h, width_eq] at hlen
  simp at hlen

/-- No integer is written with padding. -/
theorem isPadded_integerContent (v : ℤ) : isPadded (integerContent v) = false := by
  have hlen := length_integerContent v
  have hsigned := signed_integerContent v
  rcases hcontent : integerContent v with _ | ⟨b, _ | ⟨c, tail⟩⟩
  · rfl
  · rfl
  · rw [hcontent] at hlen hsigned
    rw [Bool.eq_false_iff]
    intro hpad
    rw [isPadded_iff, hsigned, ← width_le_iff, ← hlen] at hpad
    simp at hpad

/-- A byte string without padding is the content of what it writes. -/
theorem integerContent_signed {content : Bytes} (hne : content ≠ [])
    (hpad : isPadded content = false) : integerContent (signed content) = content := by
  rcases content with _ | ⟨b, tail⟩
  · exact absurd rfl hne
  have hlt := magnitude_signed_lt b tail
  -- the bytes are enough, and with one less the leading byte would be padding
  have hwidth : width (signed (b :: tail)) = tail.length + 1 := by
    have hle := width_le_iff.2 hlt
    rcases tail with _ | ⟨c, tail⟩
    · rw [width_eq] at hle ⊢
      simp at hle ⊢
      omega
    · have hmin : ¬width (signed (b :: c :: tail)) ≤ tail.length + 1 := by
        rw [width_le_iff, ← isPadded_iff, hpad]
        simp
      rw [List.length_cons] at hle ⊢
      omega
  have hdecode : (signed (b :: tail) % byteLimit (tail.length + 1)).toNat = decode (b :: tail) := by
    have hbound := decode_lt (b :: tail)
    rw [List.length_cons] at hbound
    have hcases := residue_cases hlt
    rw [signed_cons] at hcases ⊢
    by_cases hlow : decode (b :: tail) < 128 * byteLimit tail.length
    · rw [if_pos hlow] at hcases ⊢
      omega
    · rw [if_neg hlow] at hcases ⊢
      omega
  unfold integerContent
  rw [hwidth, hdecode]
  exact toList_encode_decode (b :: tail)

/-! ## The shortest content -/

/-- An integer fits into two's complement of so many bytes if it is no wider. -/
theorem fits_succ_iff {w : ℕ} {v : ℤ} : Fits (w + 1) v ↔ width v ≤ w + 1 := by
  have hsucc := byteLimit_succ w
  rw [width_le_iff]
  unfold Fits magnitude
  split
  · omega
  · omega

/-- The content that is written is the shortest one for the integer. -/
theorem writesContent_integerContent (v : ℤ) : WritesContent (integerContent v) v := by
  have hlen := length_integerContent v
  have hpos : width v = width v - 1 + 1 := by
    rw [width_eq]
    omega
  have hfits : Fits (width v) v := by
    rw [hpos, fits_succ_iff, ← hpos]
  refine ⟨integerContent_ne_nil v, ?_, ?_, ?_⟩
  · rw [hlen]
    exact hfits
  · -- what is written is the residue of the integer
    have hlimit := byteLimit_pos (width v)
    have hnonneg : 0 ≤ v % byteLimit (width v) := Int.emod_nonneg v (by omega)
    have hlt : v % byteLimit (width v) < byteLimit (width v) := Int.emod_lt_of_pos v (by omega)
    have hdecode : decode (integerContent v) = (v % byteLimit (width v)).toNat :=
      decode_encode (by omega)
    rw [hlen, hdecode, Int.toNat_of_nonneg hnonneg]
    exact Int.mod_modEq v _
  · intro w hw h
    obtain ⟨w, rfl⟩ : ∃ k, w = k + 1 := ⟨w - 1, by omega⟩
    rw [hlen]
    exact fits_succ_iff.1 h

/-- The length and the residue leave one choice. -/
theorem WritesContent.eq_integerContent {content : Bytes} {v : ℤ} (h : WritesContent content v) :
    content = integerContent v := by
  have hwriter := writesContent_integerContent v
  -- neither is longer than the other
  have hlen : content.length = width v := by
    have hle := h.shortest (width v) (by rw [width_eq]; omega) (by
      have hfits := hwriter.fits
      rwa [length_integerContent] at hfits)
    have hge := hwriter.shortest content.length (List.length_pos_of_ne_nil h.ne_nil) h.fits
    rw [length_integerContent] at hge
    omega
  have hmod : v % byteLimit (width v) = decode content := by
    have hlt := decode_lt content
    rw [hlen] at hlt
    have hcongr := h.congr
    rw [hlen] at hcongr
    rw [← hcongr]
    exact Int.emod_eq_of_lt (by omega) (by omega)
  unfold integerContent
  rw [hmod, Int.toNat_natCast, ← hlen]
  exact (toList_encode_decode content).symm

/-- The reader tells the shortest content by its first two bytes. -/
theorem writesContent_iff {content : Bytes} {v : ℤ} :
    WritesContent content v ↔ content ≠ [] ∧ isPadded content = false ∧ signed content = v := by
  constructor
  · intro h
    rw [h.eq_integerContent]
    exact ⟨integerContent_ne_nil v, isPadded_integerContent v, signed_integerContent v⟩
  · rintro ⟨hne, hpad, rfl⟩
    have h := writesContent_integerContent (signed content)
    rwa [integerContent_signed hne hpad] at h

/-! ## Integers -/

/-- The reader takes an integer off the front exactly if one stands there. -/
theorem readInteger?_eq_some_iff {bytes rest : Bytes} {v : ℤ} :
    readInteger? bytes = some (v, rest) ↔ ∃ text, WritesInteger text v ∧ bytes = text ++ rest := by
  unfold readInteger?
  rw [Option.bind_eq_bind, Option.bind_eq_some_iff]
  constructor
  · rintro ⟨⟨content, rest'⟩, helement, h⟩
    dsimp only at h
    split at h
    · exact absurd h (by simp)
    · rename_i hgood
      rcases not_or.1 hgood with ⟨hne, hpad⟩
      rw [Option.some.injEq, Prod.mk.injEq] at h
      rcases h with ⟨rfl, rfl⟩
      rcases readElement?_eq_some_iff.1 helement with ⟨text, htext, rfl⟩
      exact ⟨text, ⟨content, writesContent_iff.2 ⟨hne, by simpa using hpad, rfl⟩, htext⟩, rfl⟩
  · rintro ⟨text, ⟨content, hcontent, htext⟩, rfl⟩
    rcases writesContent_iff.1 hcontent with ⟨hne, hpad, rfl⟩
    refine ⟨(content, rest), readElement?_eq_some_iff.2 ⟨text, htext, rfl⟩, ?_⟩
    exact if_neg (not_or.2 ⟨hne, by simp [hpad]⟩)

/-- What is written for an integer is a form of it. -/
theorem writesInteger_encodeInteger {v : ℤ} (h : width v < byteLimit 126) :
    WritesInteger (encodeInteger v) v :=
  ⟨integerContent v, writesContent_integerContent v,
    writesElement_encodeElement integerTag (by rwa [length_integerContent])⟩

/-- An integer has one form. -/
theorem WritesInteger.eq_encodeInteger {bytes : Bytes} {v : ℤ} (h : WritesInteger bytes v) :
    bytes = encodeInteger v := by
  rcases h with ⟨content, hcontent, helement⟩
  rw [helement.eq_encodeElement, hcontent.eq_integerContent]
  rfl

end KeyTree.Der
