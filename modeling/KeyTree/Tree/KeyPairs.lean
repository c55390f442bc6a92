import KeyTree.Ed25519.KeyPair
import KeyTree.Path.Text
import KeyTree.Secp256k1.KeyPair
import KeyTree.Tree.Derivation

/-!
# The key pairs of nodes

A node's private key is the private key or the secret of a key pair. A seed and the text of a path
lead to one.
-/

namespace KeyTree

/-- The secp256k1 key pair of a node, whose key may be out of range. -/
def Node.secp256k1KeyPair (node : Node) : Except Error Secp256k1.KeyPair :=
  Secp256k1.KeyPair.ofBytes node.privateKey.toList

/-- The ed25519 key pair of a node. -/
def Node.ed25519KeyPair (node : Node) : Ed25519.KeyPair := .ofSecret node.privateKey

/-- The key pair at a path in the tree of a seed. -/
def Secp256k1.KeyPair.atPath (seed : Bytes) (path : String) : Except Error Secp256k1.KeyPair := do
  let path ← Path.parse path
  let node ← Node.derive .secp256k1 seed path.indices
  node.secp256k1KeyPair

/-- The key pair at a path in the tree of a seed. -/
def Ed25519.KeyPair.atPath (seed : Bytes) (path : String) : Except Error Ed25519.KeyPair := do
  let path ← Path.parse path
  let node ← Node.derive .ed25519 seed path.indices
  return node.ed25519KeyPair

end KeyTree
