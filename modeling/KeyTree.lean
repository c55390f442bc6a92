import KeyTree.Arith.DoubleAndAdd
import KeyTree.Arith.Modular
import KeyTree.Bytes.Endian
import KeyTree.Bytes.Hex
import KeyTree.Der
import KeyTree.Ecdsa.Basic
import KeyTree.Ecdsa.Nonce
import KeyTree.Ed25519.Domain
import KeyTree.Ed25519.KeyPair
import KeyTree.Eddsa
import KeyTree.EllipticCurve.Edwards
import KeyTree.EllipticCurve.Extended
import KeyTree.EllipticCurve.Jacobian
import KeyTree.EllipticCurve.Weierstrass
import KeyTree.Error
import KeyTree.Hash.Hmac
import KeyTree.Hash.Sha2
import KeyTree.Hash.Sha256
import KeyTree.Hash.Sha512
import KeyTree.Index
import KeyTree.Path.Basic
import KeyTree.Path.Edit
import KeyTree.Path.Text
import KeyTree.Proofs.Arith.PrimeField
import KeyTree.Proofs.EllipticCurve.Group
import KeyTree.Secp256k1.Domain
import KeyTree.Secp256k1.KeyPair
import KeyTree.Secp256k1.PrivateKey
import KeyTree.Secp256k1.PublicKey
import KeyTree.Secp256k1.Signature
import KeyTree.Session
import KeyTree.Tree.Derivation
import KeyTree.Tree.KeyPairs
import KeyTree.Tree.Node
import KeyTree.Tree.Retry
import KeyTree.Proofs.EllipticCurve.Multiple
import KeyTree.Proofs.EllipticCurve.Order
import KeyTree.Proofs.Arith.Primality
import KeyTree.Proofs.Secp256k1.Group
import KeyTree.Proofs.Ecdsa.Equation
import KeyTree.Proofs.Ecdsa.Signing
import KeyTree.Proofs.Bytes.Endian
import KeyTree.Proofs.Der.Grammar
import KeyTree.Proofs.Der.Length
import KeyTree.Proofs.Der.Integer
import KeyTree.Proofs.Der.Pair
import KeyTree.Proofs.Secp256k1.Signature
import KeyTree.Proofs.Secp256k1.Reading
import KeyTree.Proofs.Secp256k1.Verification
import KeyTree.Proofs.Secp256k1.PrivateKey
import KeyTree.Proofs.Tree.Retry
import KeyTree.Proofs.Tree.Root
import KeyTree.Proofs.Tree.Child
import KeyTree.Proofs.Tree.Validity
import KeyTree.Proofs.Tree.Public
import KeyTree.Proofs.Index.Text
import KeyTree.Proofs.Path.Text
import KeyTree.Proofs.Tree.KeyPairs
import KeyTree.Proofs.Session
import KeyTree.Proofs.Secp256k1.PublicEncoding
import KeyTree.Proofs.Secp256k1.KeyPair
import KeyTree.Proofs.Ed25519.Group
import KeyTree.Proofs.Ed25519.Signing
import KeyTree.Proofs.Eddsa.Encoding
import KeyTree.Proofs.Ed25519.Malleability
import KeyTree.Proofs.Tree.Attempts
import KeyTree.Proofs.Tree.Feed
import KeyTree.Proofs.Index.Order
import KeyTree.Proofs.Path.Edit
import KeyTree.Proofs.Der.Layout
import KeyTree.Proofs.Secp256k1.Layout
import KeyTree.Proofs.Index.Refusal
import KeyTree.Proofs.Path.Refusal
import KeyTree.Proofs.Index.Normal
import KeyTree.Proofs.Path.Normal
import KeyTree.Proofs.Hash.Blocks
import KeyTree.Proofs.Hash.Hmac
import KeyTree.Proofs.Tree.Verdict
import KeyTree.Proofs.Tree.Messages
import KeyTree.Proofs.Ecdsa.Nonce
import KeyTree.Proofs.Secp256k1.LowForm
