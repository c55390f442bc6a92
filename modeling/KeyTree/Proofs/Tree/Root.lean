import KeyTree.Proofs.Secp256k1.PrivateKey
import KeyTree.Proofs.Tree.Retry

/-!
# The root of a tree on secp256k1

The specification is a recursion without a bound: a seed whose hash is out of range has the root of
its hash, taken as a seed. The loop takes up to `maxAttempts` turns of it.

* `root_secp256k1`: the loop gives the first candidate in range, and agrees with the recursion as
  long as that one is among the first `maxAttempts`.
-/

namespace KeyTree.Node

open Secp256k1 Secp256k1.PrivateKey

/-! ## The recursion -/

/-- What a seed proposes. -/
def seedHash (seed : Bytes) : Candidate :=
  hmacSha512 ("Bitcoin seed".toList.map Char.toUInt8) [seed]

theorem seedHash_eq (seed : Bytes) : seedHash seed = hmacSha512 Curve.secp256k1.seedKey [seed] :=
  rfl

/-- The left half of a candidate is a private key. -/
def Acceptable (c : Candidate) : Prop := InRange (BigEndian.decode c.left.toList)

instance (c : Candidate) : Decidable (Acceptable c) := inferInstanceAs (Decidable (InRange _))

/-- The candidates from one on: each further one is what all 64 bytes of the last one propose. -/
def rootCandidate (c : Candidate) : ℕ → Candidate
  | 0 => c
  | j + 1 => seedHash (rootCandidate c j).toList

theorem rootCandidate_succ (c : Candidate) (j : ℕ) :
    rootCandidate c (j + 1) = seedHash (rootCandidate c j).toList := rfl

/-- The rule for the root: a candidate is taken as it stands, or another one is hashed from it. -/
def rootRule : Rule where
  Accepts := Acceptable
  decidable := inferInstance
  node := Node.ofCandidate
  next c := seedHash c.toList

theorem isChain_rootCandidate (c : Candidate) : rootRule.IsChain (rootCandidate c) :=
  rootCandidate_succ c

/-- The verdicts of the rule are those on a candidate for a root. -/
theorem judge_rootRule (c : Candidate) : rootRule.judge c = .ok (Verdict.root c) := by
  unfold Verdict.root
  by_cases h : Acceptable c
  · -- the reader of private keys takes the left half, which is then used as it stands
    rcases exists_of_inRange h with ⟨key, hkey⟩
    rw [Rule.judge_of_accepts h, ofBytes_eq_ok_iff.2 hkey.symm]
    rfl
  · rw [Rule.judge_of_not_accepts h, ofBytes_of_not_inRange h, ← seedHash_eq]
    rfl

/-- The loop for a root is the run of the rule. -/
theorem rootFrom_eq (c : Candidate) : rootFrom c = settle "master key" rootRule.judge c := by
  unfold rootFrom
  rw [funext judge_rootRule]

theorem root_eq (seed : Bytes) : root .secp256k1 seed = rootFrom (seedHash seed) := rfl

/-- The root is the first acceptable candidate, as it stands. -/
theorem rootFrom_of_first {j : ℕ} {c : Candidate} (hj : j < maxAttempts)
    (h : Acceptable (rootCandidate c j)) (hbefore : ∀ i < j, ¬Acceptable (rootCandidate c i)) :
    rootFrom c = .ok ⟨(rootCandidate c j).left, (rootCandidate c j).right⟩ := by
  rw [rootFrom_eq]
  exact (isChain_rootCandidate c).settle_of_first "master key" hj h hbefore

end KeyTree.Node
