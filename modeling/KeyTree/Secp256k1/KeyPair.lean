import KeyTree.Ecdsa.Nonce
import KeyTree.Secp256k1.PrivateKey
import KeyTree.Secp256k1.Signature

/-!
# Signing and verifying on secp256k1

A message is signed through its SHA-256 digest, with a nonce that comes from the key and the digest,
so that one key signs one message in one way.
-/

namespace KeyTree.Secp256k1

/-- The digest of a message as a scalar. -/
def messageScalar (message : Bytes) : Scalar :=
  Modular.residue order (BigEndian.decode (sha256 message).toList)

/-- The two scalars of the signature of a message, before the second one is brought into the lower
half. -/
def PrivateKey.rawSignature (key : PrivateKey) (message : Bytes) : Scalar × Scalar :=
  domain.sign (messageScalar message) key.scalar

/-- The signature of a message. -/
def PrivateKey.sign (key : PrivateKey) (message : Bytes) : Signature :=
  let pair := key.rawSignature message
  Signature.ofScalars pair.1 pair.2

/-- The signature is one of the message under the key. -/
def PublicKey.accepts (key : PublicKey) (message : Bytes) (signature : Signature) : Bool :=
  domain.accepts (messageScalar message) key.point signature.r signature.s

/-- The bytes are the DER encoding of a signature of the message under the key, with its second half
in either form. -/
def PublicKey.verify (key : PublicKey) (message signature : Bytes) : Bool :=
  Signature.checkDer (key.accepts message) signature

/-- A private key with the public key that belongs to it. -/
structure KeyPair where
  privateKey : PrivateKey
  publicKey : PublicKey
  publicKey_eq : publicKey = privateKey.publicKey
deriving DecidableEq

namespace KeyPair

/-- The pair of a private key. -/
def ofPrivateKey (key : PrivateKey) : KeyPair := ⟨key, key.publicKey, rfl⟩

/-- Reads a private key and pairs it with its public key. -/
def ofBytes (bytes : Bytes) : Except Error KeyPair :=
  ofPrivateKey <$> PrivateKey.ofBytes bytes

end KeyPair

end KeyTree.Secp256k1
