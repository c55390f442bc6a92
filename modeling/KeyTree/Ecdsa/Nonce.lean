import KeyTree.Ecdsa.Basic
import KeyTree.Hash.Hmac

/-!
# Nonces from the key and the message

A signer that draws its nonce from a keyed hash of the private key and the message digest needs no
randomness, and signs the same message in the same way each time. `NonceStream` is the stream of
values that RFC 6979 prescribes, for scalars of 32 bytes and HMAC-SHA256; `Ecdsa.sign` takes the
first of them that gives a signature.
-/

namespace KeyTree

/-- A hash-based stream of values: the key of the next hash, and the value it has reached. -/
structure NonceStream where
  key : Vector UInt8 32
  value : Vector UInt8 32

namespace NonceStream

/-- Moves on to the next value. -/
def next (s : NonceStream) : NonceStream :=
  ⟨s.key, hmacSha256 s.key.toList [s.value.toList]⟩

/-- Takes data into the key, and moves on. -/
def absorb (s : NonceStream) (tag : UInt8) (data : Bytes) : NonceStream :=
  next ⟨hmacSha256 s.key.toList [s.value.toList, [tag], data], s.value⟩

/-- The stream for some secret data, at its first value. -/
def start (data : Bytes) : NonceStream :=
  let s : NonceStream := ⟨Vector.replicate 32 0, Vector.replicate 32 1⟩
  ((s.absorb 0 data).absorb 1 data).next

/-- The stream at the value behind one that will not do. -/
def skip (s : NonceStream) : NonceStream := (s.absorb 0 []).next

/-- The value as a number. -/
def number (s : NonceStream) : Nat := BigEndian.decode s.value.toList

end NonceStream

namespace Ecdsa

variable {p n : Nat} [Modulus p] [Modulus n]

/-- The number of values that a signer takes from its stream. -/
def maxNonces : Nat := 1000

/-- The signature with the first good nonce among the next `k` values of a stream. A value that is
no scalar is skipped. RFC 6979 goes on drawing from its stream until a value will do. Here the
search ends after `k` values, with a tail of this library's own that makes signing total: the
numbers from the last value on are tried. Of ten neighbours one is always good, since besides zero
at most eight scalars lead to a forbidden half, four to an `r` of zero and four to the one `r` for
which `s` is zero. With the thousand values that `sign` allows, the tail cannot be reached in
practice. -/
def signFrom? (D : Ecdsa p n) (z d : Fin n) : (k : Nat) → NonceStream → Option (Fin n × Fin n)
  | 0, s => (List.range 10).findSome? fun i => D.signWith? z d (Modular.residue n (s.number + i))
  | k + 1, s =>
    (if h : s.number < n then D.signWith? z d ⟨s.number, h⟩ else none) <|> signFrom? D z d k s.skip

/-- The signature of the digest `z` under the key `d`. -/
def sign (D : Ecdsa p n) (z d : Fin n) : Fin n × Fin n :=
  let data := (BigEndian.encode 32 d.val).toList ++ (BigEndian.encode 32 z.val).toList
  (D.signFrom? z d maxNonces (NonceStream.start data)).getD (0, 0)

end Ecdsa

end KeyTree
