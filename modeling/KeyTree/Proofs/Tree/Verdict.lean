import KeyTree.Proofs.Index.Text
import KeyTree.Proofs.Tree.Child

/-!
# One candidate for a child

The verdict on one candidate for a child on secp256k1, as arithmetic on numbers without a bound: the
left half of the candidate, any number of 32 bytes, is added to the key of the parent, and the sum
is brought below the order. A candidate is put aside for two reasons, a left half that is no scalar
and a sum that is the order itself, and what is hashed then holds neither of the two summands.

* `add_mod_order`: a sum of two scalars as a number.
* `child_of_addable`, `child_of_not_addable`: the two verdicts.
* `child_exact`: which candidates are accepted, with which key, and what the key tells about the
  parent.
-/

namespace KeyTree

open Secp256k1 Secp256k1.PrivateKey Node

/-! ## The index in four bytes -/

namespace Index

theorem decode_toBytes (i : Index) : BigEndian.decode i.toBytes.toList = i.value.toNat :=
  BigEndian.decode_encode i.value.toNat_lt

theorem toBytes_injective : Function.Injective toBytes := by
  intro i j h
  have hdecode := decode_toBytes i
  rw [h, decode_toBytes] at hdecode
  exact ext_toNat hdecode.symm

/-- Any four bytes are an index. -/
theorem exists_toBytes (bytes : Vector UInt8 4) : ∃ i : Index, i.toBytes = bytes := by
  have hlt := BigEndian.decode_lt bytes.toList
  rw [Vector.length_toList] at hlt
  refine ⟨⟨UInt32.ofNat (BigEndian.decode bytes.toList)⟩, ?_⟩
  unfold toBytes
  rw [UInt32.toNat_ofNat_of_lt' hlt, BigEndian.encode_decode]

/-- Any four bytes are those of one index. -/
theorem existsUnique_toBytes (bytes : Vector UInt8 4) : ∃! i : Index, i.toBytes = bytes := by
  rcases exists_toBytes bytes with ⟨i, hi⟩
  refine ⟨i, hi, ?_⟩
  intro j hj
  exact toBytes_injective (hj.trans hi.symm)

end Index

/-! ## Sums below the order -/

/-- The sum of two numbers below the order is below it, or one subtraction brings it there. -/
theorem add_mod_order {k l : ℕ} (hk : k < order) (hl : l < order) :
    (l + k) % order = if l + k < order then l + k else l + k - order := by
  split
  · rename_i hlt
    exact Nat.mod_eq_of_lt hlt
  · rw [Nat.mod_eq_sub_mod (by omega), Nat.mod_eq_of_lt (by omega)]

/-- The sum is zero when it is the order, since a key is neither zero nor the order. -/
theorem add_mod_order_eq_zero_iff {k l : ℕ} (hk : InRange k) (hl : l < order) :
    (l + k) % order = 0 ↔ l + k = order := by
  have hpos := hk.1
  rw [add_mod_order hk.2 hl]
  split
  · omega
  · omega

/-- One summand is told from the sum and the other one. -/
theorem eq_sub_emod_order {k l : ℕ} (hk : k < order) :
    (k : ℤ) = (((l + k) % order : ℕ) - (l : ℤ)) % order := by
  have hmod : (((l + k) % order : ℕ) : ℤ) - l ≡ k [ZMOD order] := by
    have hsum := (Int.mod_modEq (l + k) order).sub_right (l : ℤ)
    rw [add_sub_cancel_left] at hsum
    exact_mod_cast hsum
  have hk' : (k : ℤ) % order = k := Int.emod_eq_of_lt (by omega) (by omega)
  rw [← hk']
  exact hmod.symm

namespace Verdict

/-- The number that a candidate adds to the key of the parent. -/
def summand (I : Candidate) : ℕ := BigEndian.decode I.left.toList

section Candidate

variable {parent : PrivateKey} {c : Vector UInt8 32} {i : Index} {I : Candidate}

/-! ## The two verdicts -/

/-- The sum of two scalars is zero modulo the order only if they make up the order. -/
theorem addable_iff (hk : InRange parent.scalar.val) :
    Addable parent.scalar.val I ↔
      summand I < order ∧ summand I + parent.scalar.val ≠ order := by
  unfold Addable
  refine and_congr_right ?_
  intro hl
  exact not_congr (add_mod_order_eq_zero_iff hk hl)

/-- A candidate that can be added is accepted, with the node of the sum. -/
theorem child_of_addable (h : Addable parent.scalar.val I) :
    Verdict.child parent c i I = .accept (sumNode parent.scalar.val I) := by
  have hjudge := judge_childRule parent c i I
  rw [Rule.judge_of_accepts h, Except.ok.injEq] at hjudge
  exact hjudge.symm

/-- What is hashed next knows of the candidate its right half alone, and nothing of the parent's
key. -/
theorem child_of_not_addable (h : ¬Addable parent.scalar.val I) :
    Verdict.child parent c i I = .retry (retryHash c i I) := by
  have hjudge := judge_childRule parent c i I
  rw [Rule.judge_of_not_accepts h, Except.ok.injEq] at hjudge
  exact hjudge.symm

/-- A candidate is accepted exactly if it can be added, and with that node only. -/
theorem child_eq_accept_iff {node : Node} :
    Verdict.child parent c i I = .accept node ↔
      Addable parent.scalar.val I ∧ node = sumNode parent.scalar.val I := by
  by_cases h : Addable parent.scalar.val I
  · rw [child_of_addable h]
    simp [h, eq_comm]
  · rw [child_of_not_addable h]
    simp [h]

/-- Any other candidate is put aside, for the hash of its right half. -/
theorem child_eq_retry_iff {next : Candidate} :
    Verdict.child parent c i I = .retry next ↔
      ¬Addable parent.scalar.val I ∧ next = retryHash c i I := by
  by_cases h : Addable parent.scalar.val I
  · rw [child_of_addable h]
    simp [h]
  · rw [child_of_not_addable h]
    simp [h, eq_comm]

/-! ## The key of an accepted candidate -/

/-- A summand of zero gives the key of the parent back. -/
theorem sumNode_of_zero (h : summand I = 0) :
    sumNode parent.scalar.val I = ⟨parent.toBytes, I.right⟩ := by
  have hval : (summand I + parent.scalar.val) % order = parent.scalar.val := by
    rw [h, Nat.zero_add, Nat.mod_eq_of_lt parent.scalar.isLt]
  exact congrArg (fun n => Node.mk (BigEndian.encode 32 n) I.right) hval

end Candidate

/-- A summand from one to the order less one is put aside for one parent alone, its negative. -/
theorem exists_retry_iff {I : Candidate} (h : InRange (summand I)) (c : Vector UInt8 32)
    (i : Index) :
    ∃ rejected : PrivateKey, rejected.scalar.val = order - summand I ∧
      ∀ parent : PrivateKey, (∃ next, Verdict.child parent c i I = .retry next) ↔
        parent = rejected := by
  rcases h with ⟨hpos, hlt⟩
  have hrange : InRange (order - summand I) := ⟨by omega, by omega⟩
  rcases exists_of_inRange hrange with ⟨rejected, hrejected⟩
  refine ⟨rejected, hrejected, ?_⟩
  intro parent
  have hsum : ¬Addable parent.scalar.val I ↔ parent.scalar.val = rejected.scalar.val := by
    rw [addable_iff parent.inRange_val, hrejected]
    omega
  simp only [child_eq_retry_iff, exists_and_left, exists_eq, and_true]
  rw [hsum]
  constructor
  · intro hval
    exact ext_val hval
  · intro hparent
    rw [hparent]

/-- The verdict on a candidate for a child, in numbers. A candidate is accepted when its left half
is below the order and the sum with the key of the parent is not the order. The child has the right
half as its chain code, and as its key the sum, or the sum less the order, with nothing lost; the
key of the parent is the difference of that key and the left half. Every other candidate is put
aside for the hash of its right half and the index, whatever the key of the parent and the left
half. A left half of zero gives the key of the parent, and any other one below the order is put
aside for exactly one parent. The index is any four bytes. -/
theorem child_exact (parent : PrivateKey) (c : Vector UInt8 32) (i : Index) (I : Candidate) :
    ((∃ node, Verdict.child parent c i I = .accept node) ↔
      summand I < order ∧ summand I + parent.scalar.val ≠ order) ∧
    (∀ node, Verdict.child parent c i I = .accept node →
      node.chainCode = I.right ∧
      BigEndian.decode node.privateKey.toList =
        (if summand I + parent.scalar.val < order then summand I + parent.scalar.val
          else summand I + parent.scalar.val - order) ∧
      (parent.scalar.val : ℤ) =
        ((BigEndian.decode node.privateKey.toList : ℤ) - summand I) % order) ∧
    (¬(summand I < order ∧ summand I + parent.scalar.val ≠ order) →
      Verdict.child parent c i I =
        .retry (hmacSha512 c.toList [0x01 :: (I.right.toList ++ i.toBytes.toList)])) ∧
    (∀ (parent' : PrivateKey) (I' next next' : Candidate), I'.right = I.right →
      Verdict.child parent c i I = .retry next → Verdict.child parent' c i I' = .retry next' →
      next' = next) ∧
    (summand I = 0 → Verdict.child parent c i I = .accept ⟨parent.toBytes, I.right⟩) ∧
    (1 ≤ summand I → summand I < order →
      ∃ rejected : PrivateKey, rejected.scalar.val = order - summand I ∧
        ∀ parent' : PrivateKey, (∃ next, Verdict.child parent' c i I = .retry next) ↔
          parent' = rejected) ∧
    ∀ bytes : Vector UInt8 4, ∃! i' : Index, i'.toBytes = bytes := by
  have hrange := parent.inRange_val
  have haddable := addable_iff (I := I) hrange
  refine ⟨?_, ?_, ?_, ?_, ?_, ?_, Index.existsUnique_toBytes⟩
  · simp only [child_eq_accept_iff, exists_and_left, exists_eq, and_true]
    exact haddable
  · intro node hnode
    rcases child_eq_accept_iff.1 hnode with ⟨hacc, rfl⟩
    rw [decode_sumNode]
    exact ⟨rfl, add_mod_order hrange.2 hacc.1, eq_sub_emod_order hrange.2⟩
  · intro hrejected
    exact child_of_not_addable fun hacc => hrejected (haddable.1 hacc)
  · intro parent' I' next next' hright hnext hnext'
    rcases child_eq_retry_iff.1 hnext with ⟨-, rfl⟩
    rcases child_eq_retry_iff.1 hnext' with ⟨-, rfl⟩
    unfold retryHash
    rw [hright]
  · intro hzero
    have hacc : Addable parent.scalar.val I := by
      rw [haddable, hzero]
      exact ⟨Modulus.pos, by have := hrange.2; omega⟩
    rw [child_of_addable hacc, sumNode_of_zero hzero]
  · intro hpos hlt
    exact exists_retry_iff ⟨hpos, hlt⟩ c i

/-- The greatest key and a left half whose sum with it takes more than 32 bytes; then the key one
and left halves of the order, of zero, and of one. -/
theorem child_exact_wide :
    (∃ node, Verdict.child ⟨-1, by decide⟩ (Vector.replicate 32 0) ⟨0⟩
        (BigEndian.encode 64 ((order - 2) * byteLimit 32)) = .accept node ∧
      BigEndian.decode node.privateKey.toList = order - 3) ∧
    Verdict.child ⟨1, by decide⟩ (Vector.replicate 32 0) ⟨0⟩
        (BigEndian.encode 64 (order * byteLimit 32)) =
      .retry (hmacSha512 (Vector.replicate 32 0).toList
        [0x01 :: ((Candidate.right (BigEndian.encode 64 (order * byteLimit 32))).toList ++
          (Index.toBytes ⟨0⟩).toList)]) ∧
    Verdict.child ⟨1, by decide⟩ (Vector.replicate 32 0) ⟨0⟩ (Vector.replicate 64 0) =
      .accept ⟨PrivateKey.toBytes ⟨1, by decide⟩, Candidate.right (Vector.replicate 64 0)⟩ ∧
    ∃ rejected : PrivateKey, rejected.scalar.val = order - 1 ∧
      ∀ parent : PrivateKey, (∃ next, Verdict.child parent (Vector.replicate 32 0) ⟨0⟩
        (BigEndian.encode 64 (byteLimit 32)) = .retry next) ↔ parent = rejected := by
  rcases child_exact ⟨-1, by decide⟩ (Vector.replicate 32 0) ⟨0⟩
    (BigEndian.encode 64 ((order - 2) * byteLimit 32)) with ⟨haccept, hkey, -⟩
  rcases child_exact ⟨1, by decide⟩ (Vector.replicate 32 0) ⟨0⟩
    (BigEndian.encode 64 (order * byteLimit 32)) with ⟨-, -, hretry, -⟩
  rcases child_exact ⟨1, by decide⟩ (Vector.replicate 32 0) ⟨0⟩
    (Vector.replicate 64 0) with ⟨-, -, -, -, hzero, -⟩
  rcases child_exact ⟨1, by decide⟩ (Vector.replicate 32 0) ⟨0⟩
    (BigEndian.encode 64 (byteLimit 32)) with ⟨-, -, -, -, -, hone, -⟩
  refine ⟨?_, hretry (by decide), hzero (by decide), hone (by decide) (by decide)⟩
  rcases haccept.2 (by decide) with ⟨node, hnode⟩
  refine ⟨node, hnode, ?_⟩
  rw [(hkey node hnode).2.1]
  decide

end Verdict

end KeyTree
