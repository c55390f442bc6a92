import KeyTree.Bytes.Hex
import KeyTree.Der
import KeyTree.Error
import KeyTree.Secp256k1.Domain

/-!
# Signatures on secp256k1

If `(r, s)` is a signature of a message then so is `(r, -s)`. Of the two this library keeps the one
with the lower second half, so that a signature has one form; the type holds no other. A signature
carries its encoding. Main statement: `ofScalars_neg`, both pairs give the same signature.
-/

namespace KeyTree.Secp256k1

/-- A pair of scalars whose second one is in the lower half, with its DER encoding. -/
structure Signature where
  r : Scalar
  s : Scalar
  s_le : s.val ≤ order / 2
  der : Bytes
  der_eq : der = Der.encodePair r.val s.val
deriving DecidableEq

namespace Signature

/-- The negative of a scalar other than zero, as a number. -/
theorem val_neg {s : Scalar} (h : s ≠ 0) : (-s).val = order - s.val := by
  have h₀ : s.val ≠ 0 := fun h' => h (Fin.ext h')
  have hs := s.isLt
  rw [Fin.val_neg', Nat.mod_eq_of_lt (by omega)]

theorem neg_neg_scalar (s : Scalar) : -(-s) = s := by
  by_cases h : s = 0
  · subst h
    decide
  · have h₁ := val_neg h
    have hs := s.isLt
    have h₂ : -s ≠ 0 := fun h' => by
      have : (-s).val = 0 := congrArg Fin.val h'
      omega
    refine Fin.ext ?_
    rw [val_neg h₂, h₁]
    omega

/-- A scalar that is not in the lower half has its negative there. -/
theorem val_neg_le {s : Scalar} (h : ¬ s.val ≤ order / 2) : (-s).val ≤ order / 2 := by
  have h₀ : s ≠ 0 := fun h' => h (by subst h'; decide)
  rw [val_neg h₀]
  omega

/-- The signature with these halves, the second one in the lower half. -/
def ofLow (r s : Scalar) (h : s.val ≤ order / 2) : Signature :=
  ⟨r, s, h, Der.encodePair r.val s.val, rfl⟩

@[simp] theorem ofLow_r (r s : Scalar) (h : s.val ≤ order / 2) : (ofLow r s h).r = r := rfl

@[simp] theorem ofLow_s (r s : Scalar) (h : s.val ≤ order / 2) : (ofLow r s h).s = s := rfl

/-- The signature with these halves, the second one negated if it is in the upper half. -/
def ofScalars (r s : Scalar) : Signature :=
  if h : s.val ≤ order / 2 then ofLow r s h else ofLow r (-s) (val_neg_le h)

/-- A pair and the one with the negated second half give the same signature. -/
theorem ofScalars_neg (r s : Scalar) : ofScalars r (-s) = ofScalars r s := by
  by_cases h : s = 0
  · subst h
    rfl
  · have h₁ := val_neg h
    have hodd : order % 2 = 1 := by decide
    have h₀ : s.val ≠ 0 := fun h' => h (Fin.ext h')
    have hs := s.isLt
    by_cases hl : s.val ≤ order / 2
    · have hr : ¬ (-s).val ≤ order / 2 := by omega
      simp only [ofScalars, hl, hr, dif_pos, dif_neg, not_false_iff, neg_neg_scalar]
    · have hr : (-s).val ≤ order / 2 := by omega
      simp only [ofScalars, hl, hr, dif_pos, dif_neg, not_false_iff]

/-- The DER encoding. -/
def toDer (sig : Signature) : Bytes := sig.der

/-- The encoding that a signature carries is that of its halves. -/
theorem toDer_eq (sig : Signature) : sig.toDer = Der.encodePair sig.r.val sig.s.val := sig.der_eq

/-- Both halves, 32 bytes each. -/
def toCompact (sig : Signature) : Vector UInt8 64 :=
  BigEndian.encode 32 sig.r.val ++ BigEndian.encode 32 sig.s.val

/-- A description that shows the DER encoding. -/
def describe (sig : Signature) : String := Hex.tagged "Signature" sig.toDer

/-- The scalar that an integer stands for: an integer that is no scalar stands for zero. -/
def scalarOfInt (v : Int) : Scalar :=
  if h : v.toNat < order then if 0 ≤ v then ⟨v.toNat, h⟩ else 0 else 0

/-- Reads a signature from its DER encoding. -/
def ofDer (bytes : Bytes) : Except Error Signature :=
  match Der.readPair? bytes with
  | some (r, s) => .ok (ofScalars (scalarOfInt r) (scalarOfInt s))
  | none => .error .invalidSignature

/-- The verdict of a test on the signature that the bytes encode, with its second half in either
form. Bytes that encode no signature are refused, which is a verdict too. -/
def checkDer (accepts : Signature → Bool) (bytes : Bytes) : Bool :=
  match Der.readPair? bytes with
  | some (r, s) => accepts (ofScalars (scalarOfInt r) (scalarOfInt s))
  | none => false

end Signature

end KeyTree.Secp256k1
