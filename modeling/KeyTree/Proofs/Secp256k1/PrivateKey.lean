import KeyTree.Secp256k1.PrivateKey
import Mathlib

/-!
# Private keys as numbers

A private key is a number from 1 to the order less one. Reading one and adding to one succeed
exactly when the outcome is such a number.
-/

namespace KeyTree.Secp256k1.PrivateKey

/-- The numbers that are private keys. -/
def InRange (n : ℕ) : Prop := 1 ≤ n ∧ n < order

instance (n : ℕ) : Decidable (InRange n) := inferInstanceAs (Decidable (_ ∧ _))

theorem val_ne_zero_iff {k : Scalar} : k ≠ 0 ↔ k.val ≠ 0 := by
  rw [ne_eq, Fin.ext_iff]
  rfl

/-- The scalar of a key is in range, since it is not zero. -/
theorem inRange_val (key : PrivateKey) : InRange key.scalar.val := by
  have hne := val_ne_zero_iff.1 key.ne_zero
  exact ⟨by omega, key.scalar.isLt⟩

theorem ext_val {k l : PrivateKey} (h : k.scalar.val = l.scalar.val) : k = l := by
  rcases k with ⟨k, hk⟩
  rcases l with ⟨l, hl⟩
  rcases Fin.ext h with rfl
  rfl

/-- Every number in range is the scalar of a key. -/
theorem exists_of_inRange {n : ℕ} (h : InRange n) : ∃ key : PrivateKey, key.scalar.val = n := by
  have hne : (⟨n, h.2⟩ : Scalar) ≠ 0 := by
    rw [val_ne_zero_iff]
    exact Nat.one_le_iff_ne_zero.1 h.1
  exact ⟨⟨⟨n, h.2⟩, hne⟩, rfl⟩

/-! ## Reading -/

/-- The numbers that make no key are those out of range. -/
theorem ofNat?_eq_none_iff {n : ℕ} : ofNat? n = none ↔ ¬InRange n := by
  constructor
  · intro hnone h
    rcases exists_of_inRange h with ⟨key, rfl⟩
    rw [ofNat?_eq_some.2 rfl] at hnone
    exact absurd hnone (by simp)
  · intro h
    rcases hkey : ofNat? n with _ | key
    · rfl
    · rw [ofNat?_eq_some.1 hkey] at h
      exact absurd key.inRange_val h

/-- A byte string is read as the key whose number it writes, if it has the width of keys. -/
theorem ofBytes_eq_ok_iff_length {bytes : Bytes} {key : PrivateKey} :
    ofBytes bytes = .ok key ↔ bytes.length = 32 ∧ BigEndian.decode bytes = key.scalar.val := by
  unfold ofBytes
  rw [← ofNat?_eq_some]
  by_cases hlength : bytes.length = 32
  · rw [if_pos hlength, and_iff_right hlength]
    rcases ofNat? (BigEndian.decode bytes) with _ | key'
    · simp
    · simp
  · rw [if_neg hlength]
    exact iff_of_false (by simp) fun h => hlength h.1

/-- Of 32 bytes the number decides which key is read. -/
theorem ofBytes_eq_ok_iff {bytes : Vector UInt8 32} {key : PrivateKey} :
    ofBytes bytes.toList = .ok key ↔ BigEndian.decode bytes.toList = key.scalar.val := by
  rw [ofBytes_eq_ok_iff_length, and_iff_right (by simp)]

theorem decode_toBytes (key : PrivateKey) :
    BigEndian.decode key.toBytes.toList = key.scalar.val :=
  ofBytes_eq_ok_iff.1 key.ofBytes_toBytes

/-- Anything but a number in range, in the width of keys, is refused. -/
theorem ofBytes_eq_error_iff {bytes : Bytes} :
    ofBytes bytes = .error .invalidPrivateKey ↔
      ¬(bytes.length = 32 ∧ InRange (BigEndian.decode bytes)) := by
  unfold ofBytes
  by_cases hlength : bytes.length = 32
  · rw [if_pos hlength, and_iff_right hlength, ← ofNat?_eq_none_iff]
    rcases ofNat? (BigEndian.decode bytes) with _ | key
    · simp
    · simp
  · rw [if_neg hlength]
    exact iff_of_true rfl fun h => hlength h.1

/-- 32 bytes that write a number out of range are refused. -/
theorem ofBytes_of_not_inRange {bytes : Vector UInt8 32}
    (h : ¬InRange (BigEndian.decode bytes.toList)) :
    ofBytes bytes.toList = .error .invalidPrivateKey :=
  ofBytes_eq_error_iff.2 fun hbytes => h hbytes.2

/-! ## Adding -/

theorem val_add (k l : Scalar) : (k + l).val = (l.val + k.val) % order := by
  rw [Fin.val_add, Nat.add_comm]

/-- A sum is a key if the summand is a scalar, and it is the sum modulo the order. -/
theorem add?_eq_some_iff {key sum : PrivateKey} {n : ℕ} :
    key.add? n = some sum ↔ n < order ∧ sum.scalar.val = (n + key.scalar.val) % order := by
  unfold add?
  constructor
  · intro h
    split at h
    · rename_i hn
      split at h
      · rw [Option.some.injEq] at h
        subst h
        exact ⟨hn, val_add key.scalar ⟨n, hn⟩⟩
      · exact absurd h (by simp)
    · exact absurd h (by simp)
  · intro h
    rcases h with ⟨hn, hsum⟩
    -- a private key is not zero, so neither is the sum that it equals
    have hval : sum.scalar = key.scalar + ⟨n, hn⟩ := by
      apply Fin.ext
      rw [hsum, val_add]
    have hne : key.scalar + ⟨n, hn⟩ ≠ 0 := by
      rw [← hval]
      exact sum.ne_zero
    rw [dif_pos hn, dif_pos hne, Option.some.injEq]
    exact ext_val (congrArg Fin.val hval.symm)

/-- There is no sum for a summand that is no scalar, and for the one that makes zero. -/
theorem add?_eq_none_iff {key : PrivateKey} {n : ℕ} :
    key.add? n = none ↔ ¬(n < order ∧ (n + key.scalar.val) % order ≠ 0) := by
  constructor
  · rintro hnone ⟨hn, hne⟩
    obtain ⟨sum, hsum⟩ := exists_of_inRange (n := (n + key.scalar.val) % order)
      ⟨Nat.one_le_iff_ne_zero.2 hne, Nat.mod_lt _ Modulus.pos⟩
    rw [add?_eq_some_iff.2 ⟨hn, hsum⟩] at hnone
    exact absurd hnone (by simp)
  · intro h
    rcases hsum : key.add? n with _ | sum
    · rfl
    · rcases add?_eq_some_iff.1 hsum with ⟨hn, hval⟩
      rw [← hval] at h
      exact absurd ⟨hn, val_ne_zero_iff.1 sum.ne_zero⟩ h

end KeyTree.Secp256k1.PrivateKey
