import KeyTree.Ed25519.Domain

/-!
# Key pairs on ed25519

Any 32 bytes are a secret key here: they enter only through their hash.
-/

namespace KeyTree.Ed25519

/-- A secret of 32 bytes and the public point that belongs to it. -/
structure KeyPair where
  secret : Vector UInt8 32
  point : Edwards.Point fieldPrime
  point_eq : point = domain.publicPoint (Eddsa.Secret.ofBytes secret)
deriving DecidableEq

namespace KeyPair

/-- The pair of a secret. -/
def ofSecret (secret : Vector UInt8 32) : KeyPair :=
  ⟨secret, domain.publicPoint (Eddsa.Secret.ofBytes secret), rfl⟩

/-- The public key in 32 bytes. -/
def publicKey (pair : KeyPair) : Vector UInt8 32 := Eddsa.encodePoint pair.point

/-- The signature of a message. -/
def sign (pair : KeyPair) (message : Bytes) : Vector UInt8 64 :=
  domain.sign (Eddsa.Secret.ofBytes pair.secret) pair.point message

/-- The bytes are a signature of the message under the public key of the pair. -/
def verify (pair : KeyPair) (message : Bytes) (signature : Vector UInt8 64) : Bool :=
  domain.verify pair.point message signature

end KeyPair

end KeyTree.Ed25519
