import KeyTree.Proofs.Tree.Child
import KeyTree.Proofs.Tree.Root
import KeyTree.Tree.KeyPairs

/-!
# The nodes of a tree on secp256k1 are valid

A node is valid when its private key is one on secp256k1. A root is taken as it stands, so the rule
for roots looks at the key itself; a child is a sum modulo the order, so the rule for children only
has to rule out zero. Both rules accept valid nodes alone, hence both loops end with one, and along
a path every parent is valid because it was a root or a child itself.

* `rootFrom_sound`, `childFrom_sound`: what comes out of the loops.
* `descend_sound`: validity is kept on the way down, by induction on the indices.
* `derive_secp256k1_valid`: a derivation gives a valid node or uses up the attempts of a loop, and
  the key of the node is the private key of its key pair.
-/

namespace KeyTree.Node

open Secp256k1 Secp256k1.PrivateKey

/-- The private key of the node is one on secp256k1. -/
def Valid (node : Node) : Prop := InRange (BigEndian.decode node.privateKey.toList)

/-- A valid node came out, or none of the candidates for the value of this name would do. -/
def Sound (what : String) (outcome : Except Error Node) : Prop :=
  (∃ node, outcome = .ok node ∧ node.Valid) ∨ outcome = .error (.notConverged what)

/-- A sound outcome that is a node is a valid one. -/
theorem Sound.valid {what : String} {outcome : Except Error Node} (h : Sound what outcome)
    {node : Node} (hnode : outcome = .ok node) : node.Valid := by
  rcases h with ⟨node', hnode', hvalid⟩ | herror
  · rw [hnode, Except.ok.injEq] at hnode'
    rw [hnode']
    exact hvalid
  · rw [hnode] at herror
    exact absurd herror (by simp)

/-! ## One loop -/

theorem valid_ofCandidate {c : Candidate} (h : Acceptable c) : (ofCandidate c).Valid := h

/-- The sum is a residue other than zero, so it is a private key. -/
theorem valid_sumNode {k : ℕ} {I : Candidate} (h : Addable k I) : (sumNode k I).Valid := by
  rcases h with ⟨-, hne⟩
  unfold Valid
  rw [decode_sumNode]
  exact ⟨Nat.one_le_iff_ne_zero.2 hne, Nat.mod_lt _ Modulus.pos⟩

/-- A rule that accepts valid nodes alone ends with one. -/
theorem Rule.settle_sound (R : Rule) (h : ∀ c, R.Accepts c → (R.node c).Valid) (what : String)
    (c : Candidate) : Sound what (settle what R.judge c) := by
  rcases R.settle_cases what c with ⟨d, hacc, hsettle⟩ | herror
  · exact .inl ⟨R.node d, hsettle, h d hacc⟩
  · exact .inr herror

/-- The loop for a root is sound from any candidate. -/
theorem rootFrom_sound (c : Candidate) : Sound "master key" (rootFrom c) := by
  have hrule : ∀ d, rootRule.Accepts d → (rootRule.node d).Valid := by
    intro d hd
    exact valid_ofCandidate hd
  rw [rootFrom_eq]
  exact rootRule.settle_sound hrule "master key" c

/-- The loop for a child is sound from any candidate. -/
theorem childFrom_sound (parent : PrivateKey) (c : Vector UInt8 32) (i : Index) (I : Candidate) :
    Sound "child key" (childFrom parent c i I) := by
  have hrule : ∀ d, (childRule parent.scalar.val c i).Accepts d →
      ((childRule parent.scalar.val c i).node d).Valid := by
    intro d hd
    exact valid_sumNode hd
  rw [childFrom_eq]
  exact Rule.settle_sound _ hrule "child key" I

/-! ## One step down -/

/-- A valid node has a valid child, or the cap was reached. -/
theorem child_sound {node : Node} (h : node.Valid) (i : Index) :
    Sound "child key" (child .secp256k1 node i) := by
  rcases exists_of_inRange h with ⟨parent, hparent⟩
  show Sound "child key" (secp256k1Child node i)
  rw [secp256k1Child_eq hparent.symm]
  exact childFrom_sound parent node.chainCode i _

/-- A child is valid whatever the parent, since an invalid parent has none. -/
theorem valid_of_child {node leaf : Node} {i : Index} (h : child .secp256k1 node i = .ok leaf) :
    leaf.Valid := by
  by_cases hnode : node.Valid
  · exact (child_sound hnode i).valid h
  · have herror : child .secp256k1 node i = .error .invalidPrivateKey :=
      secp256k1Child_of_not_inRange hnode node.chainCode i
    rw [h] at herror
    exact absurd herror (by simp)

/-! ## Any way down -/

theorem descend_nil (curve : Curve) (node : Node) : node.descend curve [] = .ok node := rfl

theorem descend_cons (curve : Curve) (node : Node) (i : Index) (is : List Index) :
    node.descend curve (i :: is) = (do let next ← child curve node i; next.descend curve is) :=
  List.foldlM_cons

/-- On the way down every parent is valid: the first by assumption, the others as children. -/
theorem descend_sound {node : Node} (h : node.Valid) (is : List Index) :
    Sound "child key" (node.descend .secp256k1 is) := by
  induction is generalizing node with
  | nil =>
    left
    exact ⟨node, descend_nil .secp256k1 node, h⟩
  | cons i is ih =>
    rw [descend_cons]
    rcases child_sound h i with ⟨next, hnext, hvalid⟩ | herror
    · rw [hnext]
      exact ih hvalid
    · right
      rw [herror]
      rfl

/-- A derivation is sound, unless the cap was reached for the root already. -/
theorem derive_sound (seed : Bytes) (is : List Index) :
    Sound "child key" (derive .secp256k1 seed is) ∨
      derive .secp256k1 seed is = .error (.notConverged "master key") := by
  unfold derive
  rw [root_eq]
  rcases rootFrom_sound (seedHash seed) with ⟨node, hnode, hvalid⟩ | herror
  · left
    rw [hnode]
    exact descend_sound hvalid is
  · right
    rw [herror]
    rfl

/-! ## Key pairs -/

/-- The key pair of a valid node holds the key of the node as it stands. -/
theorem keyPair_of_valid {node : Node} (h : node.Valid) :
    ∃ pair, node.secp256k1KeyPair = .ok pair ∧ pair.privateKey.toBytes = node.privateKey := by
  rcases exists_of_inRange h with ⟨key, hkey⟩
  refine ⟨.ofPrivateKey key, ?_, toBytes_of_decode_eq hkey.symm⟩
  unfold secp256k1KeyPair KeyPair.ofBytes
  rw [ofBytes_eq_ok_iff.2 hkey.symm]
  rfl

/-- A derivation gives a valid node, whose key pair is that of its own key, or else a loop has used
up its attempts; there is no other error. Every child is valid, whatever its parent, and so is all
that comes out of the two loops, whatever they start from. -/
theorem derive_secp256k1_valid (seed : Bytes) (is : List Index) :
    ((∃ node pair, derive .secp256k1 seed is = .ok node ∧ node.Valid ∧
        node.secp256k1KeyPair = .ok pair ∧ pair.privateKey.toBytes = node.privateKey) ∨
      derive .secp256k1 seed is = .error (.notConverged "master key") ∨
      derive .secp256k1 seed is = .error (.notConverged "child key")) ∧
    (∀ (k c : Vector UInt8 32) (i : Index) (node : Node),
      child .secp256k1 ⟨k, c⟩ i = .ok node → node.Valid) ∧
    (∀ (c : Candidate) (node : Node), rootFrom c = .ok node → node.Valid) ∧
    ∀ (parent : PrivateKey) (c : Vector UInt8 32) (i : Index) (I : Candidate) (node : Node),
      childFrom parent c i I = .ok node → node.Valid := by
  refine ⟨?_, ?_, ?_, ?_⟩
  · rcases derive_sound seed is with (⟨node, hnode, hvalid⟩ | hchild) | hroot
    · left
      rcases keyPair_of_valid hvalid with ⟨pair, hpair, hbytes⟩
      exact ⟨node, pair, hnode, hvalid, hpair, hbytes⟩
    · exact .inr (.inr hchild)
    · exact .inr (.inl hroot)
  · intro k c i node h
    exact valid_of_child h
  · intro c node h
    exact (rootFrom_sound c).valid h
  · intro parent c i I node h
    exact (childFrom_sound parent c i I).valid h

/-- The hardened child of the key one, and what the loops make of a candidate of ones. -/
theorem derive_secp256k1_valid_one :
    (∃ node, child .secp256k1 ⟨BigEndian.encode 32 1, Vector.replicate 32 0⟩ ⟨0x80000000⟩ =
      .ok node ∧ node.Valid) ∧
    (∃ node, rootFrom (Vector.replicate 64 1) = .ok node ∧ node.Valid) ∧
    ∃ node, childFrom ⟨1, by decide⟩ (Vector.replicate 32 0) ⟨0⟩ (Vector.replicate 64 1) =
      .ok node ∧ node.Valid := by
  rcases derive_secp256k1_valid [] [] with ⟨-, hchild, hroot, hsum⟩
  have hfirst : child .secp256k1 ⟨BigEndian.encode 32 1, Vector.replicate 32 0⟩ ⟨0x80000000⟩ =
      .ok (sumNode (BigEndian.decode (BigEndian.encode 32 1).toList)
        (childCandidate (BigEndian.encode 32 1) (Vector.replicate 32 0) ⟨0x80000000⟩ 0)) := by
    apply secp256k1Child_of_first (by decide) _ _ (by decide)
    · decide +kernel
    · intro l hl
      omega
  have hones : rootFrom (Vector.replicate 64 1) = .ok (ofCandidate (Vector.replicate 64 1)) := by
    apply rootFrom_of_first (j := 0) (by decide)
    · decide
    · intro i hi
      omega
  have hsumOnes : childFrom ⟨1, by decide⟩ (Vector.replicate 32 0) ⟨0⟩ (Vector.replicate 64 1) =
      .ok (sumNode 1 (Vector.replicate 64 1)) := by
    rw [childFrom_eq]
    exact settleWithin_of_accept "child key" (Rule.judge_of_accepts (by decide)) 999
  exact ⟨⟨_, hfirst, hchild _ _ _ _ hfirst⟩, ⟨_, hones, hroot _ _ hones⟩,
    ⟨_, hsumOnes, hsum _ _ _ _ _ hsumOnes⟩⟩

end KeyTree.Node
