import KeyTree.EllipticCurve.Extended
import KeyTree.Hash.Sha512

/-!
# The Edwards curve digital signature algorithm

Signatures over a group of points that a base point of order `n` generates, with SHA-512 and points
and scalars of 32 bytes. The signer's nonce comes from a part of its secret and the message, so no
randomness is needed. The verifier compares encodings: it writes the point that it expects and looks
for these bytes, so no other form of a point passes.
-/

namespace KeyTree

/-- A curve and the base point of the group: coordinates are modulo `p`, scalars modulo `n`. -/
structure Eddsa (p n : Nat) where
  curve : Edwards p
  base : Edwards.Point p

namespace Eddsa

variable {p n : Nat} [Modulus p] [Modulus n]

/-- A point in 32 bytes: the y coordinate, and the parity of x in the top bit. -/
def encodePoint (P : Edwards.Point p) : Vector UInt8 32 :=
  LittleEndian.encode 32 (P.y.val + (P.x.val % 2) <<< 255)

/-- The hash of some parts, as a scalar. -/
def hashScalar (n : Nat) [Modulus n] (parts : List Bytes) : Fin n :=
  Modular.residue n (LittleEndian.decode (sha512 parts.flatten).toList)

/-! ## Secrets -/

/-- What a secret of 32 bytes stands for: a factor for the base point, and a key for nonces. -/
structure Secret where
  factor : Nat
  nonceKey : Bytes

/-- Sets bit 254 of a number, clears those above it and the three lowest. -/
def clamp (k : Nat) : Nat := 1 <<< 254 + k % (1 <<< 254) / 8 * 8

/-- Both halves of the hash of a secret. -/
def Secret.ofBytes (secret : Vector UInt8 32) : Secret :=
  let h := sha512 secret.toList
  ⟨clamp (LittleEndian.decode (h.take 32).toList), (h.drop 32).toList⟩

/-- The public point of a secret. -/
def publicPoint (D : Eddsa p n) (secret : Secret) : Edwards.Point p :=
  D.curve.multiple secret.factor D.base

/-! ## Signatures -/

/-- The scalar that ties the first half of a signature to a public point and a message. -/
def challenge (n : Nat) [Modulus n] (R : Bytes) (A : Edwards.Point p) (message : Bytes) : Fin n :=
  hashScalar n [R, (encodePoint A).toList, message]

/-- The signature of a message, for a secret and its public point. -/
def sign (D : Eddsa p n) (secret : Secret) (A : Edwards.Point p) (message : Bytes) :
    Vector UInt8 64 :=
  let nonce := hashScalar n [secret.nonceKey, message]
  let R := encodePoint (D.curve.multiple nonce.val D.base)
  let s := nonce + challenge n R.toList A message * Modular.residue n secret.factor
  R ++ LittleEndian.encode 32 s.val

/-- The first half that a signature with the second half `s` has to have: the encoding of
`s B - k A`, with `k` the challenge for the first half that it does have. -/
def expectedHalf (D : Eddsa p n) (A : Edwards.Point p) (message R : Bytes) (s : Nat) :
    Vector UInt8 32 :=
  let k := challenge n R A message
  encodePoint (D.curve.add (D.curve.multiple s D.base) (D.curve.multiple k.val (-A)))

/-- The bytes are a signature of the message under a public point. -/
def verify (D : Eddsa p n) (A : Edwards.Point p) (message : Bytes)
    (signature : Vector UInt8 64) : Bool :=
  let R : Vector UInt8 32 := signature.take 32
  let s := LittleEndian.decode (signature.drop 32).toList
  s < n && D.expectedHalf A message R.toList s == R

end Eddsa

end KeyTree
