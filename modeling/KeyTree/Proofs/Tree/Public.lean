import KeyTree.Proofs.Tree.Validity
import KeyTree.Proofs.Tree.Verdict

/-!
# Public derivation

The normal children of a node are hashed from its public key, so their public keys can be told
without any private key: the multiple of the base point by the left half of a candidate is added to
the public key, and a candidate is put aside when that half is no scalar or the sum is infinity.
`ChildFrom` is this recursion. It has no bound, and it knows of the node no more than its public key
and its chain code.

* `rejects_iff`: both ways to derive put the same candidates aside, since a multiple of the base
  point is infinity exactly when its factor is zero modulo the order.
* `publicKey_eq_sum`: what one way accepts is the public key of what the other accepts.
* `childFrom_iff_of_child`: the public key of a normal child is the one that is derived publicly.
-/

namespace KeyTree

open Secp256k1 Secp256k1.PrivateKey Node

/-- A node without its private key. -/
structure PublicNode where
  publicKey : PublicKey
  /-- What the children are derived with. -/
  chainCode : Vector UInt8 32

namespace PublicNode

section Recursion

variable (K : PublicKey) (c : Vector UInt8 32) (i : Index)

/-- What a normal child is hashed from. -/
def firstHash : Candidate := hmacSha512 c.toList [K.compressed ++ i.toBytes.toList]

/-- The sum of the public key and the multiple of the base point by the left half of a candidate. -/
def sum (I : Candidate) : Weierstrass.Point fieldPrime :=
  domain.curve.add K.point (domain.curve.multiple (BigEndian.decode I.left.toList) domain.base)

/-- The left half of a candidate is not below the order, or the sum is infinity. -/
def Rejects (I : Candidate) : Prop :=
  order ≤ BigEndian.decode I.left.toList ∨ sum K I = .infinity

/-- The child that a candidate leads to: candidates are put aside as long as they are rejected. -/
inductive ChildFrom : Candidate → PublicNode → Prop
  | accept {I : Candidate} (h : ¬Rejects K I) : ChildFrom I ⟨⟨sum K I⟩, I.right⟩
  | retry {I : Candidate} {node : PublicNode} (h : Rejects K I)
      (rest : ChildFrom (retryHash c i I) node) : ChildFrom I node

end Recursion

/-! ## The recursion -/

section Runs

variable {K : PublicKey} {c : Vector UInt8 32} {i : Index}

/-- A candidate leads to one child at most. -/
theorem ChildFrom.unique {I : Candidate} {a b : PublicNode} (ha : ChildFrom K c i I a)
    (hb : ChildFrom K c i I b) : a = b := by
  induction ha with
  | accept h =>
    cases hb with
    | accept _ => rfl
    | retry h' _ => exact absurd h' h
  | retry h _ ih =>
    cases hb with
    | accept h' => exact absurd h h'
    | retry _ rest => exact ih rest

/-- The recursion ends with the first candidate of a chain that is not rejected. -/
theorem childFrom_of_first {I : ℕ → Candidate} (hI : ∀ j, I (j + 1) = retryHash c i (I j)) {j : ℕ}
    (hbefore : ∀ l < j, Rejects K (I l)) (h : ¬Rejects K (I j)) :
    ChildFrom K c i (I 0) ⟨⟨sum K (I j)⟩, (I j).right⟩ := by
  induction j generalizing I with
  | zero => exact .accept h
  | succ j ih =>
    -- the first is put aside, and the rest of the chain begins with the next one
    refine .retry (hbefore 0 (by omega)) ?_
    rw [← hI 0]
    have htail : ∀ l, I (l + 1 + 1) = retryHash c i (I (l + 1)) := by
      intro l
      exact hI (l + 1)
    refine ih (I := fun l => I (l + 1)) htail ?_ h
    intro l hl
    exact hbefore (l + 1) (by omega)

end Runs

/-! ## One candidate -/

/-- The sum of public points is the public point of the sum. -/
theorem sum_publicKey (parent : PrivateKey) (I : Candidate) :
    sum parent.publicKey I = domain.curve.coords
      ((BigEndian.decode I.left.toList + parent.scalar.val) • basePoint) :=
  parent.add_publicKey (BigEndian.decode I.left.toList)

/-- The candidates that cannot be added to the public key are those that cannot be added to the
private key. -/
theorem rejects_iff (parent : PrivateKey) (I : Candidate) :
    Rejects parent.publicKey I ↔ ¬Addable parent.scalar.val I := by
  unfold Rejects Addable
  rw [sum_publicKey, Weierstrass.coords_eq_infinity, nsmul_basePoint_eq_zero_iff]
  omega

/-- A candidate is put aside exactly if it cannot be added to the private key. -/
theorem verdict_eq_retry_iff (parent : PrivateKey) (c : Vector UInt8 32) (i : Index)
    (I : Candidate) :
    Verdict.child parent c i I = .retry (retryHash c i I) ↔ ¬Addable parent.scalar.val I := by
  rw [Verdict.child_eq_retry_iff, and_iff_left rfl]

/-- The public key of the sum of two numbers is the sum of their multiples. -/
theorem publicKey_eq_sum {parent key : PrivateKey} {I : Candidate}
    (h : key.toBytes = (sumNode parent.scalar.val I).privateKey) :
    key.publicKey = ⟨sum parent.publicKey I⟩ := by
  have hval : key.scalar.val = (BigEndian.decode I.left.toList + parent.scalar.val) % order := by
    rw [← decode_toBytes, h, decode_sumNode]
  rw [PrivateKey.publicKey_eq, sum_publicKey, hval, mod_nsmul_basePoint]

/-- What is hashed first for a normal index is told from the public key. -/
theorem first_eq_firstHash (parent : PrivateKey) (c : Vector UInt8 32) {i : Index}
    (hi : i.value.toNat.testBit 31 = false) :
    hmacSha512 c.toList [ChildMessage.first parent i] = firstHash parent.publicKey c i := by
  unfold ChildMessage.first
  rw [isHardened_eq_testBit, hi]
  rfl

/-! ## The whole run -/

/-- A normal child of a private key comes from a chain of candidates that begins as the public one
does, and it is the first of them that is not rejected. -/
theorem exists_first_of_child {parent : PrivateKey} {c : Vector UInt8 32} {i : Index}
    (hi : i.value.toNat.testBit 31 = false) {node : Node}
    (h : child .secp256k1 ⟨parent.toBytes, c⟩ i = .ok node) :
    ∃ I, node = sumNode parent.scalar.val I ∧
      ChildFrom parent.publicKey c i (firstHash parent.publicKey c i)
        ⟨⟨sum parent.publicKey I⟩, I.right⟩ := by
  have hdecode := parent.decode_toBytes
  have hrange : InRange (BigEndian.decode parent.toBytes.toList) := by
    rw [hdecode]
    exact parent.inRange_val
  change secp256k1Child ⟨parent.toBytes, c⟩ i = .ok node at h
  rw [secp256k1Child_of_inRange hrange, hdecode,
    (isChain_childCandidate _ parent.toBytes c i).settle_eq_ok_iff] at h
  rcases h with ⟨j, -, hacc, hbefore, rfl⟩
  refine ⟨childCandidate parent.toBytes c i j, rfl, ?_⟩
  rw [← first_eq_firstHash parent c hi, first_eq hdecode]
  apply childFrom_of_first (childCandidate_succ parent.toBytes c i)
  · intro l hl
    exact (rejects_iff parent _).2 (hbefore l hl)
  · rw [rejects_iff, not_not]
    exact hacc

/-- Where a normal child exists, its public key and its chain code are those that the public key and
the chain code of the parent lead to. Both ways to derive begin with one candidate, go from one to
the next in one way, and put the same ones aside. -/
theorem childFrom_iff_of_child (parent : PrivateKey) (c : Vector UInt8 32) {i : Index}
    (hi : i.value.toNat.testBit 31 = false) {node : Node}
    (h : child .secp256k1 ⟨parent.toBytes, c⟩ i = .ok node) :
    (∃ pair, node.secp256k1KeyPair = .ok pair ∧
      ∀ pub, ChildFrom parent.publicKey c i (firstHash parent.publicKey c i) pub ↔
        pub = ⟨pair.publicKey, node.chainCode⟩) ∧
    hmacSha512 c.toList [ChildMessage.first parent i] = firstHash parent.publicKey c i ∧
    ∀ I, Verdict.child parent c i I = .retry (retryHash c i I) ↔ Rejects parent.publicKey I := by
  refine ⟨?_, first_eq_firstHash parent c hi, ?_⟩
  · rcases keyPair_of_valid (valid_of_child h) with ⟨pair, hpair, hbytes⟩
    rcases exists_first_of_child hi h with ⟨I, rfl, hfirst⟩
    rw [← publicKey_eq_sum hbytes, ← pair.publicKey_eq] at hfirst
    refine ⟨pair, hpair, ?_⟩
    intro pub
    constructor
    · intro hpub
      exact hpub.unique hfirst
    · rintro rfl
      exact hfirst
  · intro I
    rw [verdict_eq_retry_iff, rejects_iff]

/-- The first normal child of the key one, with a chain code of zeros. -/
theorem childFrom_iff_of_child_one :
    ∃ node pair, child .secp256k1 ⟨toBytes ⟨1, by decide⟩, Vector.replicate 32 0⟩ ⟨0⟩ = .ok node ∧
      node.secp256k1KeyPair = .ok pair ∧
      ChildFrom (PrivateKey.publicKey ⟨1, by decide⟩) (Vector.replicate 32 0) ⟨0⟩
        (firstHash (PrivateKey.publicKey ⟨1, by decide⟩) (Vector.replicate 32 0) ⟨0⟩)
        ⟨pair.publicKey, node.chainCode⟩ := by
  have hsome : (child .secp256k1 ⟨toBytes ⟨1, by decide⟩, Vector.replicate 32 0⟩
      ⟨0⟩).toOption.isSome = true := by
    decide +kernel
  rcases hnode : child .secp256k1 ⟨toBytes ⟨1, by decide⟩, Vector.replicate 32 0⟩ ⟨0⟩ with e | node
  · rw [hnode] at hsome
    exact absurd hsome (by simp [Except.toOption])
  · rcases childFrom_iff_of_child ⟨1, by decide⟩ (Vector.replicate 32 0) (by decide) hnode with
      ⟨⟨pair, hpair, hpub⟩, -⟩
    exact ⟨node, pair, rfl, hpair, (hpub _).2 rfl⟩

end PublicNode

end KeyTree
