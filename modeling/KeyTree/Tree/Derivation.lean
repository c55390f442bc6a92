import KeyTree.Index
import KeyTree.Secp256k1.PrivateKey
import KeyTree.Tree.Node
import KeyTree.Tree.Retry

/-!
# Growing a tree

The derivation of SLIP-0010. A seed gives the root of a tree, and a node and an index give a child.
On ed25519 every hash is a node. On secp256k1 a hash may propose a key that is out of range; then it
is put aside and another one is computed from it, until a proposal can be accepted. `Verdict.root`
and `Verdict.child` are the rules for that, and `Node.settle` follows them.
-/

namespace KeyTree

open Secp256k1 (PrivateKey)

/-! ## What is hashed for a child -/

namespace ChildMessage

/-- For a hardened child: a zero byte, the private key, the index. -/
def hardened (privateKey : Vector UInt8 32) (i : Index) : Bytes :=
  0x00 :: (privateKey.toList ++ i.toBytes.toList)

/-- For a normal child: the compressed public key, the index. -/
def normal (parent : PrivateKey) (i : Index) : Bytes :=
  parent.publicKey.compressed ++ i.toBytes.toList

/-- When a candidate is put aside: a one byte, the right half of the candidate, the index. -/
def retry (right : Vector UInt8 32) (i : Index) : Bytes :=
  0x01 :: (right.toList ++ i.toBytes.toList)

/-- For the first candidate of a child of a valid key. -/
def first (parent : PrivateKey) (i : Index) : Bytes :=
  if i.isHardened then hardened parent.toBytes i else normal parent i

end ChildMessage

/-! ## Verdicts -/

/-- What becomes of a candidate. -/
inductive Verdict where
  /-- It gives this node. -/
  | accept (node : Node)
  /-- It gives none, and this one is next. -/
  | retry (next : Candidate)
deriving DecidableEq

namespace Verdict

/-- A candidate for a root on secp256k1 is taken as it stands if its left half is a private key. -/
def root (c : Candidate) : Verdict :=
  match PrivateKey.ofBytes c.left.toList with
  | .ok _ => .accept (.ofCandidate c)
  | .error _ => .retry (hmacSha512 Curve.secp256k1.seedKey [c.toList])

/-- The left half of a candidate for a child on secp256k1 is added to the parent's key. -/
def child (parent : PrivateKey) (chainCode : Vector UInt8 32) (i : Index) (c : Candidate) :
    Verdict :=
  match parent.add? (BigEndian.decode c.left.toList) with
  | some key => .accept ⟨key.toBytes, c.right⟩
  | none => .retry (hmacSha512 chainCode.toList [ChildMessage.retry c.right i])

end Verdict

namespace Node

/-- The node of the first accepted candidate, from `start` on; every verdict but the last says which
candidate is next. -/
@[specialize] def settle {m : Type → Type} [Monad m] [MonadExceptOf Error m] (what : String)
    (judge : Candidate → m Verdict) (start : Candidate) : m Node :=
  let attempt : StateT Candidate m (Option Node) := do
    match ← judge (← get) with
    | .accept node => return some node
    | .retry next =>
      set next
      return none
  (Retry.untilSome what attempt).run' start

/-! ## Roots -/

/-- The root that a candidate leads to on secp256k1. -/
def rootFrom (c : Candidate) : Except Error Node :=
  settle "master key" (fun c => .ok (Verdict.root c)) c

/-- The root of the tree of a seed. -/
def root (curve : Curve) (seed : Bytes) : Except Error Node :=
  let c := hmacSha512 curve.seedKey [seed]
  match curve with
  | .ed25519 => .ok (.ofCandidate c)
  | .secp256k1 => rootFrom c

/-! ## Children -/

/-- The child that a candidate leads to on secp256k1. -/
def childFrom (parent : PrivateKey) (chainCode : Vector UInt8 32) (i : Index) (c : Candidate) :
    Except Error Node :=
  settle "child key" (fun c => .ok (Verdict.child parent chainCode i c)) c

/-- The child on ed25519, which has to be hardened. -/
def ed25519Child (node : Node) (i : Index) : Except Error Node :=
  if i.isHardened then
    .ok (.ofCandidate (hmacSha512 node.chainCode.toList [ChildMessage.hardened node.privateKey i]))
  else .error (.unsupportedDerivation "Normal keys are not allowed with ed25519")

/-- The child on secp256k1, where the node's key may be out of range. -/
def secp256k1Child (node : Node) (i : Index) : Except Error Node := do
  let parent ← PrivateKey.ofBytes node.privateKey.toList
  childFrom parent node.chainCode i
    (hmacSha512 node.chainCode.toList [ChildMessage.first parent i])

/-- The child of a node at an index. -/
def child (curve : Curve) (node : Node) (i : Index) : Except Error Node :=
  match curve with
  | .ed25519 => node.ed25519Child i
  | .secp256k1 => node.secp256k1Child i

/-! ## Descendants -/

/-- The node that some indices lead to, from the top down. -/
def descend (curve : Curve) (node : Node) (is : List Index) : Except Error Node :=
  is.foldlM (child curve) node

/-- The node that some indices lead to in the tree of a seed. -/
def derive (curve : Curve) (seed : Bytes) (is : List Index) : Except Error Node := do
  let node ← root curve seed
  node.descend curve is

end Node

end KeyTree
