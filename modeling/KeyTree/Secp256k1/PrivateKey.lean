import KeyTree.Secp256k1.PublicKey

/-!
# Private keys on secp256k1

A private key is a scalar other than zero, written in 32 bytes. Main statements: `toBytes_ofBytes`
and `ofBytes_toBytes`, keys and their bytes determine each other.
-/

namespace KeyTree.Secp256k1

/-- A private key. -/
structure PrivateKey where
  scalar : Scalar
  ne_zero : scalar ≠ 0
deriving DecidableEq

namespace PrivateKey

/-- The private key of a number, which has to be from 1 to the order less one. -/
def ofNat? (n : Nat) : Option PrivateKey :=
  if h : n < order then
    if h₀ : (⟨n, h⟩ : Scalar) ≠ 0 then some ⟨⟨n, h⟩, h₀⟩ else none
  else none

/-- Reads a private key. -/
def ofBytes (bytes : Bytes) : Except Error PrivateKey :=
  if bytes.length = 32 then
    match ofNat? (BigEndian.decode bytes) with
    | some key => .ok key
    | none => .error .invalidPrivateKey
  else .error .invalidPrivateKey

/-- The key in 32 bytes. -/
def toBytes (key : PrivateKey) : Vector UInt8 32 := BigEndian.encode 32 key.scalar.val

/-- A description that does not give the key away. -/
def redacted (_ : PrivateKey) : String := "PrivateKey(<redacted>)"

/-- The private key that is `n` more than this one; none if `n` is no scalar or the sum is zero. -/
def add? (key : PrivateKey) (n : Nat) : Option PrivateKey :=
  if h : n < order then
    if h₀ : key.scalar + ⟨n, h⟩ ≠ 0 then some ⟨key.scalar + ⟨n, h⟩, h₀⟩ else none
  else none

/-- The public key that belongs to a private key. -/
def publicKey (key : PrivateKey) : PublicKey := ⟨domain.baseMultiple key.scalar⟩

/-- A number is read as the key that has it as its scalar. -/
theorem ofNat?_eq_some {n : Nat} {key : PrivateKey} :
    ofNat? n = some key ↔ n = key.scalar.val := by
  obtain ⟨⟨k, hk⟩, h₀⟩ := key
  constructor
  · intro h
    simp only [ofNat?] at h
    split at h
    · split at h
      · simp only [Option.some.injEq, mk.injEq, Fin.mk.injEq] at h
        exact h
      · simp at h
    · simp at h
  · rintro rfl
    simp [ofNat?, hk, h₀]

/-- A key is read back from its bytes. -/
theorem ofBytes_toBytes (key : PrivateKey) : ofBytes key.toBytes.toList = .ok key := by
  have h : key.scalar.val < byteLimit 32 := Nat.lt_trans key.scalar.isLt (by decide)
  simp [ofBytes, toBytes, BigEndian.decode_encode h, ofNat?_eq_some.2 rfl]

/-- The bytes of a key are those it was read from. -/
theorem toBytes_ofBytes {bytes : Bytes} {key : PrivateKey} (h : ofBytes bytes = .ok key) :
    key.toBytes.toList = bytes := by
  simp only [ofBytes] at h
  split at h
  · rename_i hl
    split at h
    · rename_i key' hk
      obtain rfl : key' = key := by simpa using h
      rw [toBytes, ← ofNat?_eq_some.1 hk]
      exact congrArg Vector.toList (BigEndian.encode_decode (w := 32) ⟨bytes.toArray, by simpa⟩)
    · simp at h
  · simp at h

end PrivateKey

end KeyTree.Secp256k1
