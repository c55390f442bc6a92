import KeyTree.Proofs.Der.Layout
import KeyTree.Proofs.Secp256k1.Signature

/-!
# The layout of a signature

Which byte strings are read as a signature, and what the signature holds then, said of the bytes
alone: where the tags, the lengths and the contents stand, and which numbers the contents write.

* `ofDer_eq_ok_iff_layout`, `ofDer_eq_error_iff`: a byte string has the layout, and its two numbers
  are those of the signature, or it is refused.
-/

namespace KeyTree.Secp256k1.Signature

open Der (Layout twosComplement)

/-- The number that the content of an integer gives to a signature. -/
def contentValue (content : Bytes) : ℕ := (scalarValue (twosComplement content)).toNat

/-- The lower one of a number and its negative modulo the order. -/
def lowered (s : ℕ) : ℕ := if s = 0 then 0 else min s (order - s)

/-- The scalar that is read is the number of the content. -/
theorem val_scalarOfInt_twosComplement (content : Bytes) :
    (scalarOfInt (twosComplement content)).val = contentValue content := by
  unfold contentValue
  rw [← val_scalarOfInt_eq, Int.toNat_natCast]

/-- The lower one of zero and the order is zero, so that zero needs no case of its own. -/
theorem lowered_eq (s : ℕ) : lowered s = min s (order - s) := by
  unfold lowered
  split
  · omega
  · rfl

/-- The compact form writes the first number and the lowered second one. -/
theorem toCompact_ofScalars (first second : Bytes) :
    toCompact (ofScalars (scalarOfInt (twosComplement first))
        (scalarOfInt (twosComplement second))) =
      BigEndian.encode 32 (contentValue first) ++
        BigEndian.encode 32 (lowered (contentValue second)) := by
  unfold toCompact
  rw [r_ofScalars, val_s_ofScalars, val_scalarOfInt_twosComplement, val_scalarOfInt_twosComplement,
    lowered_eq]

/-- A signature is read exactly from the bytes that are laid out as one, and its compact form writes
the numbers of the two contents, the second one lowered. -/
theorem ofDer_eq_ok_iff_layout {bytes : Bytes} {sig : Signature} :
    ofDer bytes = .ok sig ↔ ∃ first second, Layout bytes first second ∧
      sig.toCompact = BigEndian.encode 32 (contentValue first) ++
        BigEndian.encode 32 (lowered (contentValue second)) := by
  rw [ofDer_eq_ok_iff]
  constructor
  · rintro ⟨r, s, hpair, rfl⟩
    rcases Der.writesPair_iff_layout.1 hpair with ⟨first, second, hlayout, rfl, rfl⟩
    exact ⟨first, second, hlayout, toCompact_ofScalars first second⟩
  · intro h
    rcases h with ⟨first, second, hlayout, hcompact⟩
    refine ⟨_, _, Der.writesPair_iff_layout.2 ⟨first, second, hlayout, rfl, rfl⟩, ?_⟩
    -- a signature is told by its compact form
    apply toCompact_injective
    rw [toCompact_ofScalars, hcompact]

/-- There is one way to be refused, and it is taken by the bytes that are not read. -/
theorem ofDer_eq_error_iff {bytes : Bytes} {e : Error} :
    ofDer bytes = .error e ↔ e = .invalidSignature ∧ ∀ sig, ofDer bytes ≠ .ok sig := by
  unfold ofDer
  split
  · simp
  · simp [eq_comm]

/-- A byte string is read as a signature when it is a sequence, to its last byte, of two integers,
with lengths and contents of which no byte could be left out; every other one is refused. The
signature holds the two numbers, zero for one that is negative or not below the order, and of the
second one and its negative the lower. -/
theorem ofDer_layout (bytes : Bytes) :
    (∀ sig, ofDer bytes = .ok sig ↔ ∃ first second, Layout bytes first second ∧
      sig.toCompact = BigEndian.encode 32 (contentValue first) ++
        BigEndian.encode 32 (lowered (contentValue second))) ∧
    ((∃ sig, ofDer bytes = .ok sig) ↔ ∃ first second, Layout bytes first second) ∧
    ∀ e, ofDer bytes = .error e ↔
      e = .invalidSignature ∧ ∀ first second, ¬Layout bytes first second := by
  have hread : (∃ sig, ofDer bytes = .ok sig) ↔ ∃ first second, Layout bytes first second := by
    constructor
    · rintro ⟨sig, hsig⟩
      rcases ofDer_eq_ok_iff_layout.1 hsig with ⟨first, second, hlayout, -⟩
      exact ⟨first, second, hlayout⟩
    · rintro ⟨first, second, hlayout⟩
      exact ⟨_, ofDer_eq_ok_iff_layout.2 ⟨first, second, hlayout, toCompact_ofScalars first second⟩⟩
  refine ⟨fun sig => ofDer_eq_ok_iff_layout, hread, ?_⟩
  intro e
  rw [ofDer_eq_error_iff]
  refine and_congr_right fun _ => ?_
  rw [← not_exists, hread]
  simp only [not_exists]

example : ofDer [0x30, 0x06, 0x02, 0x01, 0x00, 0x02, 0x01, 0xFF] =
    .ok (ofLow 0 0 (by decide)) := by decide

example : (ofDer [0x30, 0x07, 0x02, 0x02, 0x00, 0x01, 0x02, 0x01, 0x01]).toOption = none := by
  decide

end KeyTree.Secp256k1.Signature
