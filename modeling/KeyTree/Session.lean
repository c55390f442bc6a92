import KeyTree.Tree.KeyPairs

/-!
# Sessions

A session walks through key trees: it stands at a node, knows the curve and the path it has walked
since the last root, and remembers the last signature of each kind. A step that fails changes
nothing.
-/

namespace KeyTree

/-- Where a session stands. -/
structure Session where
  curve : Curve
  node : Node
  path : Path
  /-- The DER encoding of the last secp256k1 signature; no bytes before the first one. -/
  signature : Bytes
  /-- The last ed25519 signature. -/
  edSignature : Option (Vector UInt8 64)
deriving DecidableEq

namespace Session

/-- What can be asked of a session. -/
inductive Step where
  /-- Go to the root of the tree of a seed. -/
  | master (seed : Bytes)
  /-- Take the node for one on this curve from now on. -/
  | curve (curve : Curve)
  /-- Go to a child. -/
  | child (index : Index)
  /-- Go to any node, valid or not, and count the path from there. -/
  | setNode (node : Node)
  /-- Compare the node with the one at the same path in the tree of a seed. -/
  | rederive (seed : Bytes)
  /-- Show the secp256k1 key pair of the node. -/
  | keyPair
  /-- Sign on secp256k1, and remember the signature. -/
  | sign (message : Bytes)
  /-- Verify the remembered secp256k1 signature. -/
  | verify (message : Bytes)
  /-- Show the ed25519 key pair of the node. -/
  | edKeyPair
  /-- Sign on ed25519, and remember the signature. -/
  | edSign (message : Bytes)
  /-- Verify the remembered ed25519 signature. -/
  | edVerify (message : Bytes)

/-- What a session answers. -/
inductive Answer where
  | done
  | equal (equal : Bool)
  | valid (valid : Bool)
  /-- There is no signature to verify. -/
  | unsigned
  | keyPair (pair : Secp256k1.KeyPair)
  | signature (signature : Secp256k1.Signature)
  | edKeyPair (pair : Ed25519.KeyPair)
  | edSignature (signature : Vector UInt8 64)

/-- A session at the root of the tree of a seed. -/
def start (curve : Curve) (seed : Bytes) : Except Error Session := do
  let node ← Node.root curve seed
  return ⟨curve, node, .master, [], none⟩

/-- The session at a root. -/
def toRoot (s : Session) (node : Node) : Session := { s with node, path := .master }

/-- The session at a child of its node. -/
def toChild (s : Session) (node : Node) (i : Index) : Session :=
  { s with node, path := s.path.child i }

/-- The session with this signature as its last one on secp256k1. -/
def remember (s : Session) (signature : Bytes) : Session := { s with signature }

/-- The session with this signature as its last one on ed25519. -/
def rememberEd (s : Session) (signature : Vector UInt8 64) : Session :=
  { s with edSignature := some signature }

/-- The answer to a step, and where the session stands after it. -/
def apply (s : Session) : Step → Except Error (Answer × Session)
  | .master seed => do
    let node ← Node.root s.curve seed
    return (.done, s.toRoot node)
  | .curve curve => return (.done, { s with curve })
  | .child i => do
    let node ← s.node.child s.curve i
    return (.done, s.toChild node i)
  | .setNode node => return (.done, s.toRoot node)
  | .rederive seed => do
    let node ← Node.derive s.curve seed s.path.indices
    return (.equal (node = s.node), s)
  | .keyPair => do
    let pair ← s.node.secp256k1KeyPair
    return (.keyPair pair, s)
  | .sign message => do
    let pair ← s.node.secp256k1KeyPair
    let signature := pair.privateKey.sign message
    return (.signature signature, s.remember signature.toDer)
  | .verify message => do
    let pair ← s.node.secp256k1KeyPair
    return (.valid (pair.publicKey.verify message s.signature), s)
  | .edKeyPair => return (.edKeyPair s.node.ed25519KeyPair, s)
  | .edSign message =>
    let signature := s.node.ed25519KeyPair.sign message
    return (.edSignature signature, s.rememberEd signature)
  | .edVerify message =>
    match s.edSignature with
    | none => return (.unsigned, s)
    | some signature => return (.valid (s.node.ed25519KeyPair.verify message signature), s)

/-- Where a session stands after a step, which may have failed. -/
def step (s : Session) (a : Step) : Session :=
  match s.apply a with
  | .ok (_, t) => t
  | .error _ => s

/-- Where a session stands after any number of steps. -/
def run (s : Session) (steps : List Step) : Session := steps.foldl step s

end Session

end KeyTree
