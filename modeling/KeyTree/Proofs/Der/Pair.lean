import KeyTree.Proofs.Der.Integer

/-!
# Pairs

* `readPair?_eq_some_iff`: the reader takes the encodings of pairs, with their meaning, and refuses
  all other bytes.
* `WritesPair.eq_encodePair`: a pair has one encoding, the one that the writer gives it.
* `readPair?_encodePair`, `eq_encodePair_of_readPair?`: so the reader takes what the writer writes
  and nothing else.
-/

namespace KeyTree.Der

/-! ## Reading -/

/-- The reader takes the encodings of pairs, with their meaning, and refuses all other bytes. -/
theorem readPair?_eq_some_iff {bytes : Bytes} {r s : ℤ} :
    readPair? bytes = some (r, s) ↔ WritesPair bytes r s := by
  unfold readPair?
  simp only [Option.bind_eq_bind, Option.bind_eq_some_iff]
  constructor
  · rintro ⟨⟨content, rest⟩, helement, ⟨r', content'⟩, hfirst, ⟨s', content''⟩, hsecond, h⟩
    dsimp only at hfirst hsecond h
    split at h
    · rename_i hend
      rcases hend with ⟨rfl, rfl⟩
      rw [Option.some.injEq, Prod.mk.injEq] at h
      rcases h with ⟨rfl, rfl⟩
      rcases readInteger?_eq_some_iff.1 hsecond with ⟨second, hs, rfl⟩
      rcases readInteger?_eq_some_iff.1 hfirst with ⟨first, hr, rfl⟩
      rcases readElement?_eq_some_iff.1 helement with ⟨text, htext, rfl⟩
      rw [List.append_nil] at htext ⊢
      exact ⟨first, second, hr, hs, htext⟩
    · exact absurd h (by simp)
  · rintro ⟨first, second, hr, hs, hpair⟩
    refine ⟨(first ++ second, []), readElement?_eq_some_iff.2 ⟨bytes, hpair, by simp⟩,
      (r, second), readInteger?_eq_some_iff.2 ⟨first, hr, rfl⟩,
      (s, []), readInteger?_eq_some_iff.2 ⟨second, hs, by simp⟩, ?_⟩
    exact if_pos ⟨rfl, rfl⟩

/-! ## One encoding for each pair -/

/-- A pair has one encoding. -/
theorem WritesPair.eq_encodePair {bytes : Bytes} {r s : ℤ} (h : WritesPair bytes r s) :
    bytes = encodePair r s := by
  rcases h with ⟨first, second, hr, hs, hpair⟩
  rw [hpair.eq_encodeElement, hr.eq_encodeInteger, hs.eq_encodeInteger]
  rfl

/-- An element is no shorter than its content. -/
theorem length_content_le (tag : UInt8) (content : Bytes) :
    content.length ≤ (encodeElement tag content).length := by
  unfold encodeElement
  rw [List.cons_append, List.length_cons, List.length_append]
  omega

/-- The writer gives a pair its encoding, as long as its length can be announced. -/
theorem writesPair_encodePair {r s : ℤ} (h : (encodePair r s).length < byteLimit 126) :
    WritesPair (encodePair r s) r s := by
  have hlen : (encodeInteger r ++ encodeInteger s).length < byteLimit 126 :=
    lt_of_le_of_lt (length_content_le sequenceTag _) h
  -- every part is shorter than the whole, so one bound serves all three lengths
  have hr := length_content_le integerTag (integerContent r)
  have hs := length_content_le integerTag (integerContent s)
  rw [length_integerContent] at hr hs
  have hsum := hlen
  rw [List.length_append] at hsum
  unfold encodeInteger at hsum
  exact ⟨encodeInteger r, encodeInteger s, writesInteger_encodeInteger (by omega),
    writesInteger_encodeInteger (by omega), writesElement_encodeElement sequenceTag hlen⟩

/-- A pair is read back. -/
theorem readPair?_encodePair {r s : ℤ} (h : (encodePair r s).length < byteLimit 126) :
    readPair? (encodePair r s) = some (r, s) :=
  readPair?_eq_some_iff.2 (writesPair_encodePair h)

/-- No other pair is read. -/
theorem eq_encodePair_of_readPair? {bytes : Bytes} {r s : ℤ} (h : readPair? bytes = some (r, s)) :
    bytes = encodePair r s :=
  (readPair?_eq_some_iff.1 h).eq_encodePair

/-! ## Short pairs -/

/-- A short content has two bytes in front of it. -/
theorem length_encodeElement {tag : UInt8} {content : Bytes} (h : content.length < 128) :
    (encodeElement tag content).length = content.length + 2 := by
  unfold encodeElement encodeLength
  rw [if_pos h]
  simp

/-- An integer that is not too wide takes two bytes more than its width. -/
theorem length_encodeInteger {v : ℤ} (h : width v < 128) :
    (encodeInteger v).length = width v + 2 := by
  unfold encodeInteger
  rw [length_encodeElement (by rwa [length_integerContent]), length_integerContent]

/-- As long as the integers are short, so is the length of the sequence. -/
theorem encodePair_eq_cons {r s : ℤ} (h : width r + width s < 124) :
    encodePair r s = sequenceTag :: UInt8.ofNat (width r + width s + 4) ::
      (encodeInteger r ++ encodeInteger s) := by
  have hlen : (encodeInteger r ++ encodeInteger s).length = width r + width s + 4 := by
    rw [List.length_append, length_encodeInteger (by omega), length_encodeInteger (by omega)]
    omega
  unfold encodePair encodeElement encodeLength
  rw [hlen, if_pos (by omega)]
  rfl

/-- Two integers that are not too wide take six bytes more than their widths: two for each of them,
and two for the sequence. -/
theorem length_encodePair {r s : ℤ} (h : width r + width s < 124) :
    (encodePair r s).length = width r + width s + 6 := by
  rw [encodePair_eq_cons h, List.length_cons, List.length_cons, List.length_append,
    length_encodeInteger (by omega), length_encodeInteger (by omega)]
  omega

end KeyTree.Der
