import KeyTree.Proofs.Der.Pair

/-!
# The layout of a pair in bytes

The grammar of strict encodings speaks of integers: two's complement, and no more bytes than it
takes. Here the same byte strings are described by what stands where, as a reader without arithmetic
would see them: tags, lengths, and contents whose first byte is not one that could be left out.

* `writesContent_iff_minimal`: the shortest content of an integer is the content that has no
  superfluous byte in front.
* `writesPair_iff_layout`: the encodings of pairs are the byte strings with this layout.
-/

namespace KeyTree.Der

open BigEndian

/-! ## Contents -/

/-- There is a first byte, and it is needed: zeros in front of a positive number, and ones in front
of a negative one, are superfluous. -/
structure Minimal (content : Bytes) : Prop where
  ne_nil : content ≠ []
  zeros : ∀ c tail, content = 0x00 :: c :: tail → 128 ≤ c.toNat
  ones : ∀ c tail, content = 0xFF :: c :: tail → c.toNat < 128

/-- The integer that the bytes write in two's complement: a number in the upper half stands for a
negative one. -/
def twosComplement (content : Bytes) : ℤ :=
  if 2 * decode content < byteLimit content.length then (decode content : ℤ)
  else decode content - byteLimit content.length

/-- The reader tells the sign by the first byte, and means the upper half. -/
theorem signed_eq_twosComplement {content : Bytes} (h : content ≠ []) :
    signed content = twosComplement content := by
  rcases content with _ | ⟨b, tail⟩
  · exact absurd rfl h
  · have hsucc := byteLimit_succ tail.length
    have hhalf : decode (b :: tail) < 128 * byteLimit tail.length ↔
        2 * decode (b :: tail) < byteLimit (tail.length + 1) := by omega
    unfold twosComplement
    rw [signed_cons, List.length_cons]
    simp only [hhalf]

/-- Two bytes tell whether the first one is superfluous. -/
theorem isPadded_cons_cons (b c : UInt8) (tail : Bytes) :
    isPadded (b :: c :: tail) = true ↔
      b = 0x00 ∧ c.toNat < 128 ∨ b = 0xFF ∧ 128 ≤ c.toNat := by
  simp [isPadded, UInt8.lt_iff_toNat_lt, UInt8.le_iff_toNat_le]

/-- The reader refuses exactly the contents that are not minimal. -/
theorem minimal_iff {content : Bytes} :
    Minimal content ↔ content ≠ [] ∧ isPadded content = false := by
  rw [Bool.eq_false_iff]
  constructor
  · intro h
    refine ⟨h.ne_nil, ?_⟩
    rcases content with _ | ⟨b, _ | ⟨c, tail⟩⟩
    · simp [isPadded]
    · simp [isPadded]
    · intro hpad
      rcases (isPadded_cons_cons b c tail).1 hpad with ⟨rfl, hc⟩ | ⟨rfl, hc⟩
      · exact absurd (h.zeros c tail rfl) (by omega)
      · exact absurd (h.ones c tail rfl) (by omega)
  · intro h
    rcases h with ⟨hne, hpad⟩
    refine ⟨hne, ?_, ?_⟩
    · rintro c tail rfl
      by_contra hc
      exact hpad ((isPadded_cons_cons _ _ _).2 (.inl ⟨rfl, by omega⟩))
    · rintro c tail rfl
      by_contra hc
      exact hpad ((isPadded_cons_cons _ _ _).2 (.inr ⟨rfl, by omega⟩))

/-- The shortest content of an integer is the one without a superfluous byte in front. -/
theorem writesContent_iff_minimal {content : Bytes} {v : ℤ} :
    WritesContent content v ↔ Minimal content ∧ twosComplement content = v := by
  rw [writesContent_iff, minimal_iff, and_assoc]
  refine and_congr_right ?_
  intro hne
  rw [signed_eq_twosComplement hne]

/-! ## Pairs -/

/-- The bytes are a sequence, to its last byte, of two integers with these contents. -/
structure Layout (bytes first second : Bytes) : Prop where
  minimal_first : Minimal first
  minimal_second : Minimal second
  elements : ∃ x y, WritesElement 0x02 first x ∧ WritesElement 0x02 second y ∧
    WritesElement 0x30 (x ++ y) bytes

/-- The encodings of pairs are the byte strings with this layout. -/
theorem writesPair_iff_layout {bytes : Bytes} {r s : ℤ} :
    WritesPair bytes r s ↔ ∃ first second, Layout bytes first second ∧
      twosComplement first = r ∧ twosComplement second = s := by
  constructor
  · intro h
    rcases h with ⟨x, y, ⟨first, hfirst, hx⟩, ⟨second, hsecond, hy⟩, hpair⟩
    rcases writesContent_iff_minimal.1 hfirst with ⟨hmin, hr⟩
    rcases writesContent_iff_minimal.1 hsecond with ⟨hmin', hs⟩
    exact ⟨first, second, ⟨hmin, hmin', x, y, hx, hy, hpair⟩, hr, hs⟩
  · intro h
    rcases h with ⟨first, second, ⟨hmin, hmin', x, y, hx, hy, hpair⟩, hr, hs⟩
    exact ⟨x, y, ⟨first, writesContent_iff_minimal.2 ⟨hmin, hr⟩, hx⟩,
      ⟨second, writesContent_iff_minimal.2 ⟨hmin', hs⟩, hy⟩, hpair⟩

end KeyTree.Der
