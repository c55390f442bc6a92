import KeyTree.Proofs.Bytes.Endian
import KeyTree.Proofs.Der.Grammar

/-!
# Lengths and elements

Readers and writers of lengths and elements against the grammar. A reader takes what the grammar
allows at the front and leaves the bytes behind it. A writer gives a value the one form that it has,
if it has one: the length has to fit into 126 bytes, the most that a length may announce.
-/

namespace KeyTree.Der

open BigEndian

/-! ## As few bytes as will do -/

/-- `k` digits hold the numbers below `2 ^ k`. -/
theorem bitLength_le_iff {n k : ℕ} : bitLength n ≤ k ↔ n < 2 ^ k := by
  unfold bitLength
  by_cases h : n = 0
  · simp [h]
  · rw [if_neg h, Nat.succ_le_iff, Nat.log2_lt h]

/-- The number of bytes that a number takes. -/
theorem byteCount_eq_iff {n w : ℕ} :
    (bitLength n + 7) / 8 = w + 1 ↔ byteLimit w ≤ n ∧ n < byteLimit (w + 1) := by
  have hlow := bitLength_le_iff (n := n) (k := 8 * w)
  have hhigh := bitLength_le_iff (n := n) (k := 8 * (w + 1))
  rw [byteLimit_eq, byteLimit_eq]
  omega

/-- A number takes one byte for each eight of its digits, rounded up. -/
theorem length_minimalBytes (n : ℕ) : (minimalBytes n).length = (bitLength n + 7) / 8 := by
  simp [minimalBytes]

theorem decode_minimalBytes (n : ℕ) : decode (minimalBytes n) = n := by
  unfold minimalBytes
  apply decode_encode
  rw [byteLimit_eq, ← bitLength_le_iff]
  omega

/-- The bytes of a number other than zero do not start with a zero byte. -/
theorem exists_minimalBytes_eq_cons {n : ℕ} (h : 0 < n) :
    ∃ b tail, minimalBytes n = b :: tail ∧ b ≠ 0 := by
  have hdecode := decode_minimalBytes n
  rcases hm : minimalBytes n with _ | ⟨b, tail⟩
  · rw [hm, decode_nil] at hdecode
    omega
  · refine ⟨b, tail, rfl, ?_⟩
    rintro rfl
    -- with a zero in front the number would fit into one byte less
    have hlen := length_minimalBytes n
    rw [hm, List.length_cons] at hlen
    have hlow := (byteCount_eq_iff.1 hlen.symm).1
    rw [hm, decode_cons] at hdecode
    have hlt := decode_lt tail
    simp at hdecode
    omega

/-- A byte string that does not start with a zero byte is the shortest for its number. -/
theorem minimalBytes_decode {b : UInt8} {tail : Bytes} (hb : b ≠ 0) :
    minimalBytes (decode (b :: tail)) = b :: tail := by
  have hb1 : 1 ≤ b.toNat := by
    rcases Nat.eq_zero_or_pos b.toNat with h0 | h0
    · exact absurd (UInt8.toNat_inj.1 h0) hb
    · exact h0
  -- the leading byte weighs at least one, so none of the bytes can be spared
  have hlow : byteLimit tail.length ≤ decode (b :: tail) := by
    rw [decode_cons]
    have hmul := Nat.mul_le_mul_right (byteLimit tail.length) hb1
    omega
  have hcount := byteCount_eq_iff.2 ⟨hlow, decode_lt (b :: tail)⟩
  unfold minimalBytes
  rw [hcount]
  exact toList_encode_decode (b :: tail)

/-! ## Lengths -/

/-- The first byte of a beginning that is not empty is that of the whole. -/
theorem headD_take {count : ℕ} (h : 0 < count) (bytes : Bytes) :
    (bytes.take count).headD 0 = bytes.headD 0 := by
  cases bytes with
  | nil => simp
  | cons b bytes =>
    cases count with
    | zero => omega
    | succ count => rfl

/-- The short form: the first byte is the length. -/
theorem readLength?_short_iff {b : UInt8} (hb : b < 0x80) {bytes rest : Bytes} {n : ℕ} :
    readLength? (b :: bytes) = some (n, rest) ↔
      ∃ digits, WritesLength (b :: digits) n ∧ bytes = digits ++ rest := by
  have hb' : b.toNat < 128 := hb
  have hread : readLength? (b :: bytes) = some (b.toNat, bytes) := if_pos hb
  rw [hread, Option.some.injEq, Prod.mk.injEq]
  constructor
  · intro h
    rcases h with ⟨rfl, rfl⟩
    exact ⟨[], .short hb', rfl⟩
  · intro h
    rcases h with ⟨digits, hlength, rfl⟩
    cases hlength with
    | short => exact ⟨rfl, rfl⟩
    | long hcount => omega

/-- The long form: the first byte counts the bytes of the length. -/
theorem readLength?_long_iff {b : UInt8} (hb : ¬b < 0x80) {bytes rest : Bytes} {n : ℕ} :
    readLength? (b :: bytes) = some (n, rest) ↔
      ∃ digits, WritesLength (b :: digits) n ∧ bytes = digits ++ rest := by
  have hb' : 128 ≤ b.toNat := by
    rw [UInt8.lt_iff_toNat_lt] at hb
    simpa using hb
  have hlt : b.toNat < 256 := b.toNat_lt
  obtain ⟨count, hcount⟩ : ∃ count, b.toNat = 128 + count := ⟨b.toNat - 128, by omega⟩
  have hsub : b.toNat - 128 = count := by omega
  unfold readLength?
  simp only [if_neg hb, hsub]
  constructor
  · intro h
    split at h
    · exact absurd h (by simp)
    · rename_i hrange
      split at h
      · exact absurd h (by simp)
      · rename_i hmin
        rw [Option.some.injEq, Prod.mk.injEq] at h
        rcases h with ⟨rfl, rfl⟩
        -- the guards that were passed are the conditions of the long form
        have hlen : (bytes.take count).length = count := by
          rw [List.length_take]
          omega
        have hhead : (bytes.take count).headD 0 ≠ 0 := by
          rw [headD_take (by omega)]
          exact fun h0 => hmin (.inl h0)
        refine ⟨bytes.take count, ?_, (List.take_append_drop count bytes).symm⟩
        exact .long (by rw [hlen, hcount]) (by omega) hhead (by omega)
  · intro h
    rcases h with ⟨digits, hlength, rfl⟩
    cases hlength with
    | short h => omega
    | long hdigits hfew hhead hlong =>
      obtain rfl : count = digits.length := by omega
      have hpos : 0 < digits.length := by
        rw [List.length_pos_iff]
        rintro rfl
        exact hhead rfl
      have hrange : ¬(digits.length = 0 ∨ digits.length = 127 ∨
          (digits ++ rest).length < digits.length) := by
        rw [List.length_append]
        omega
      -- there is a first digit, so that the guard does not look at the rest in its place
      have hhead' : (digits ++ rest).headD 0 = digits.headD 0 := by
        rw [← headD_take hpos (digits ++ rest), List.take_left]
      have hmin : ¬(digits.headD 0 = 0 ∨ decode digits < 128) := not_or.2 ⟨hhead, by omega⟩
      rw [if_neg hrange, List.take_left, List.drop_left, hhead', if_neg hmin]

/-- The reader takes a length off the front exactly if one stands there, in the short or in the long
form. -/
theorem readLength?_eq_some_iff {bytes rest : Bytes} {n : ℕ} :
    readLength? bytes = some (n, rest) ↔ ∃ text, WritesLength text n ∧ bytes = text ++ rest := by
  have hcons (b : UInt8) (bytes : Bytes) : readLength? (b :: bytes) = some (n, rest) ↔
      ∃ digits, WritesLength (b :: digits) n ∧ bytes = digits ++ rest := by
    by_cases hb : b < 0x80
    · exact readLength?_short_iff hb
    · exact readLength?_long_iff hb
  constructor
  · intro h
    cases bytes with
    | nil => exact absurd h (by simp [readLength?])
    | cons b bytes =>
      rcases (hcons b bytes).1 h with ⟨digits, hlength, rfl⟩
      exact ⟨b :: digits, hlength, rfl⟩
  · intro h
    rcases h with ⟨text, hlength, rfl⟩
    -- a length takes at least one byte
    cases text with
    | nil => cases hlength
    | cons b digits => exact (hcons b (digits ++ rest)).2 ⟨digits, hlength, rfl⟩

/-- What is written for a length is a form of it. -/
theorem writesLength_encodeLength {n : ℕ} (h : n < byteLimit 126) :
    WritesLength (encodeLength n) n := by
  unfold encodeLength
  by_cases hn : n < 128
  · have hb : (UInt8.ofNat n).toNat = n := by
      rw [UInt8.toNat_ofNat']
      omega
    have hshort : WritesLength [UInt8.ofNat n] (UInt8.ofNat n).toNat := .short (by omega)
    rw [if_pos hn]
    rwa [hb] at hshort
  · rcases exists_minimalBytes_eq_cons (n := n) (by omega) with ⟨b, tail, hm, hb⟩
    have hlen := length_minimalBytes n
    -- the count has to fit into the seven bits of the first byte, and 127 is reserved
    have hle : bitLength n ≤ 8 * 126 := by
      rw [bitLength_le_iff, ← byteLimit_eq]
      exact h
    have hcount : (UInt8.ofNat (128 + (minimalBytes n).length)).toNat =
        128 + (minimalBytes n).length := by
      rw [UInt8.toNat_ofNat']
      omega
    have hhead : (minimalBytes n).headD 0 ≠ 0 := by
      rw [hm]
      exact hb
    have hdecode := decode_minimalBytes n
    have hlong := WritesLength.long hcount (by omega) hhead (by omega)
    rw [if_neg hn]
    rwa [hdecode] at hlong

/-- A length has one form. -/
theorem WritesLength.eq_encodeLength {bytes : Bytes} {n : ℕ} (h : WritesLength bytes n) :
    bytes = encodeLength n := by
  unfold encodeLength
  cases h with
  | short h => rw [if_pos h, UInt8.ofNat_toNat]
  | @long count digits hcount hfew hhead hlong =>
    rcases digits with _ | ⟨b, tail⟩
    · exact absurd rfl hhead
    · have hmin : minimalBytes (decode (b :: tail)) = b :: tail := minimalBytes_decode hhead
      rw [if_neg (by omega), hmin, ← hcount, UInt8.ofNat_toNat]

/-! ## Elements -/

/-- The reader takes an element off the front exactly if one with this tag stands there. -/
theorem readElement?_eq_some_iff {tag : UInt8} {bytes content rest : Bytes} :
    readElement? tag bytes = some (content, rest) ↔
      ∃ text, WritesElement tag content text ∧ bytes = text ++ rest := by
  constructor
  · intro h
    rcases bytes with _ | ⟨t, bytes⟩
    · exact absurd h (by simp [readElement?])
    unfold readElement? at h
    dsimp only at h
    split at h
    · rename_i ht
      subst ht
      rw [Option.bind_eq_bind, Option.bind_eq_some_iff] at h
      rcases h with ⟨⟨n, bytes'⟩, hlength, h⟩
      dsimp only at h
      split at h
      · rename_i hn
        rw [Option.some.injEq, Prod.mk.injEq] at h
        rcases h with ⟨rfl, rfl⟩
        rcases readLength?_eq_some_iff.1 hlength with ⟨length, hwrites, rfl⟩
        have hlen : (bytes'.take n).length = n := by
          rw [List.length_take]
          omega
        refine ⟨t :: (length ++ bytes'.take n), ⟨length, by rwa [hlen], rfl⟩, ?_⟩
        rw [List.cons_append, List.append_assoc, List.take_append_drop]
      · exact absurd h (by simp)
    · exact absurd h (by simp)
  · rintro ⟨text, ⟨length, hlength, rfl⟩, rfl⟩
    have hread : readLength? (length ++ (content ++ rest)) =
        some (content.length, content ++ rest) :=
      readLength?_eq_some_iff.2 ⟨length, hlength, rfl⟩
    unfold readElement?
    simp only [List.cons_append, List.append_assoc, if_true]
    rw [hread]
    simp

/-- What is written for a tag and a content is an element with both. -/
theorem writesElement_encodeElement (tag : UInt8) {content : Bytes}
    (h : content.length < byteLimit 126) :
    WritesElement tag content (encodeElement tag content) :=
  ⟨encodeLength content.length, writesLength_encodeLength h, rfl⟩

/-- An element has one form. -/
theorem WritesElement.eq_encodeElement {tag : UInt8} {content bytes : Bytes}
    (h : WritesElement tag content bytes) : bytes = encodeElement tag content := by
  rcases h with ⟨length, hlength, rfl⟩
  rw [hlength.eq_encodeLength]
  rfl

end KeyTree.Der
