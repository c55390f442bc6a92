import KeyTree.Bytes.Hex
import KeyTree.Hash.Hmac

/-!
# Nodes

A node of a key tree is a private key together with a chain code, the secret that its children are
derived with. Which curve the key is for is not part of the node. Main statement: `redacted_eq_iff`,
a description shows the chain code and hides the private key.
-/

namespace KeyTree

/-- The curves that a tree can be grown on. -/
inductive Curve where
  | secp256k1
  | ed25519
deriving DecidableEq

namespace Curve

/-- The name of a curve. -/
def name : Curve → String
  | .secp256k1 => "secp256k1"
  | .ed25519 => "ed25519"

/-- The curve of a name. -/
def ofName? (text : String) : Option Curve :=
  if text = name .secp256k1 then some .secp256k1
  else if text = name .ed25519 then some .ed25519
  else none

/-- The text that keys the hash of a seed, so that one seed gives unrelated trees on two curves. -/
def seedKey : Curve → Bytes
  | .secp256k1 => ['B', 'i', 't', 'c', 'o', 'i', 'n', ' ', 's', 'e', 'e', 'd'].map Char.toUInt8
  | .ed25519 => ['e', 'd', '2', '5', '5', '1', '9', ' ', 's', 'e', 'e', 'd'].map Char.toUInt8

/-- A curve is found under its name. -/
@[simp] theorem ofName?_name (curve : Curve) : ofName? curve.name = some curve := by
  cases curve <;> decide

end Curve

/-- A node of a key tree. -/
structure Node where
  /-- The private key, most significant byte first. -/
  privateKey : Vector UInt8 32
  /-- What the children are derived with. -/
  chainCode : Vector UInt8 32
deriving DecidableEq

/-- What a hash proposes: a private key and the chain code that would go with it. -/
abbrev Candidate := Vector UInt8 64

namespace Candidate

/-- The half that may become a private key. -/
def left (c : Candidate) : Vector UInt8 32 := c.take 32

/-- The half that may become a chain code. -/
def right (c : Candidate) : Vector UInt8 32 := c.drop 32

end Candidate

namespace Node

/-- The node that a candidate is when it is taken as it stands. -/
def ofCandidate (c : Candidate) : Node := ⟨c.left, c.right⟩

/-- A description that does not give the private key away. -/
def redacted (node : Node) : String :=
  "Slip0010Result \x7b chain_code: \"" ++ Hex.encode node.chainCode.toList
    ++ "\", privkey: \"<redacted>\" \x7d"

/-- The description tells the chain code, and nothing else about the node. -/
theorem redacted_eq_iff {a b : Node} : a.redacted = b.redacted ↔ a.chainCode = b.chainCode := by
  unfold redacted
  rw [String.append_left_inj, String.append_right_inj, Hex.encode_inj, Vector.toList_inj]

end Node

end KeyTree
