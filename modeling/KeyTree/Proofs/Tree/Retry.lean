import KeyTree.Tree.Derivation
import Mathlib

/-!
# Runs over candidates

`Node.settle` looks at one candidate after another. A candidate that is put aside hands over to the
next one with one attempt less, so a run is a walk along the chain of candidates until one is
accepted, a verdict fails, or the attempts are used up. A `Rule` is a way to judge for which no
verdict fails, so that the whole chain is told by its first candidate.

* `settleWithin_of_putAside`: after `j` candidates were put aside the run goes on from the next.
* `settleWithin_succ_eq`: more attempts change nothing, as long as they have not been used up.
* `settle_of_concludes`, `settle_of_putAside`: the two ends of a run.
* `Rule.IsChain.settle_eq_ok_iff`, `Rule.IsChain.settle_eq_notConverged_iff`: the run of a rule ends
  with the first candidate that is accepted, and fails when none of the first `maxAttempts` is.
* `Rule.settle_cases`: whatever the first candidate, a run has one of these two ends.
* `Rule.IsChain.settle_next`: a run and the one that starts one candidate later have the same end,
  but for the last candidate that only the later one reaches.
-/

namespace KeyTree.Node

/-! ## The steps of a run -/

section Steps

variable {m : Type → Type} [Monad m] [MonadExceptOf Error m] (what : String)

/-- One attempt: the verdict on the present candidate, which makes way for the next one when it is
put aside. -/
def attempt (judge : Candidate → m Verdict) : StateT Candidate m (Option Node) := do
  match ← judge (← get) with
  | .accept node => return some node
  | .retry next =>
    set next
    return none

/-- The run with `k` attempts. -/
def settleWithin (judge : Candidate → m Verdict) (k : ℕ) (c : Candidate) : m Node :=
  (Retry.within what (attempt judge) k).run' c

theorem settle_eq (judge : Candidate → m Verdict) (c : Candidate) :
    settle what judge c = settleWithin what judge maxAttempts c := rfl

/-- One attempt of a run: the verdict ends it, or names the candidate for the attempts that are
left. -/
theorem settleWithin_succ [LawfulMonad m] (judge : Candidate → m Verdict) (k : ℕ) (c : Candidate) :
    settleWithin what judge (k + 1) c = (do
      match ← judge c with
      | .accept node => return node
      | .retry next => settleWithin what judge k next) := by
  unfold settleWithin
  rw [Retry.within]
  unfold attempt
  -- the state is threaded through, so that only the verdict is left to look at
  simp only [StateT.run'_eq, StateT.run_bind, StateT.run_get, StateT.run_monadLift, pure_bind,
    bind_assoc, map_bind]
  congr 1
  funext verdict
  cases verdict with
  | accept node => simp
  | retry next => simp

variable {judge : Candidate → Except Error Verdict}

theorem settleWithin_zero (c : Candidate) :
    settleWithin what judge 0 c = .error (.notConverged what) := rfl

theorem settleWithin_of_accept {c : Candidate} {node : Node} (h : judge c = .ok (.accept node))
    (k : ℕ) : settleWithin what judge (k + 1) c = .ok node := by
  rw [settleWithin_succ, h]
  rfl

theorem settleWithin_of_retry {c next : Candidate} (h : judge c = .ok (.retry next)) (k : ℕ) :
    settleWithin what judge (k + 1) c = settleWithin what judge k next := by
  rw [settleWithin_succ, h]
  rfl

/-! ## Walks -/

/-- The candidate `d` is the one to look at after `j` others, the first of them `c`, were put
aside. -/
inductive PutAside (judge : Candidate → Except Error Verdict) : ℕ → Candidate → Candidate → Prop
  | zero (c : Candidate) : PutAside judge 0 c c
  | succ {j : ℕ} {c next d : Candidate} (h : judge c = .ok (.retry next))
      (rest : PutAside judge j next d) : PutAside judge (j + 1) c d

/-- A run goes on behind the candidates that were put aside, with that many attempts less. -/
theorem settleWithin_of_putAside {j : ℕ} {c d : Candidate} (h : PutAside judge j c d) (k : ℕ) :
    settleWithin what judge (j + k) c = settleWithin what judge k d := by
  induction h with
  | zero c => rw [Nat.zero_add]
  | @succ j c next d hretry rest ih =>
    rw [Nat.add_right_comm, settleWithin_of_retry what hretry, ih]

/-- The first of the candidates that were put aside names the second. -/
theorem PutAside.exists_next {j : ℕ} {c d : Candidate} (h : PutAside judge (j + 1) c d) :
    ∃ next, judge c = .ok (.retry next) ∧ PutAside judge j next d := by
  cases h with
  | succ h rest => exact ⟨_, h, rest⟩

/-- One more attempt changes nothing, unless the attempts have been used up. -/
theorem settleWithin_succ_eq {k : ℕ} {c : Candidate} (h : ¬∃ d, PutAside judge k c d) :
    settleWithin what judge (k + 1) c = settleWithin what judge k c := by
  induction k generalizing c with
  | zero => exact absurd ⟨c, .zero c⟩ h
  | succ k ih =>
    rw [settleWithin_succ what judge (k + 1), settleWithin_succ what judge k]
    rcases hjudge : judge c with e | (node | next)
    · rfl
    · rfl
    · -- the next candidate has one attempt less, in both runs
      apply ih
      rintro ⟨d, hd⟩
      exact h ⟨d, .succ hjudge hd⟩

/-! ## Ends of a run -/

/-- A verdict ends a run, with this result. -/
inductive Concludes : Except Error Verdict → Except Error Node → Prop
  | accept (node : Node) : Concludes (.ok (.accept node)) (.ok node)
  | failure (e : Error) : Concludes (.error e) (.error e)

/-- A run ends with the first verdict that asks for no other candidate. -/
theorem settle_of_concludes {j : ℕ} {c d : Candidate} {r : Except Error Node}
    (hj : j < maxAttempts) (h : PutAside judge j c d) (hr : Concludes (judge d) r) :
    settle what judge c = r := by
  obtain ⟨k, hk⟩ : ∃ k, maxAttempts = j + (k + 1) := ⟨maxAttempts - j - 1, by omega⟩
  rw [settle_eq, hk, settleWithin_of_putAside what h, settleWithin_succ]
  generalize judge d = a at hr
  cases hr with
  | accept node => rfl
  | failure e => rfl

/-- A run gives up when all of the first candidates are put aside. -/
theorem settle_of_putAside {c d : Candidate} (h : PutAside judge maxAttempts c d) :
    settle what judge c = .error (.notConverged what) := by
  have hrun := settleWithin_of_putAside what h 0
  rw [Nat.add_zero, settleWithin_zero] at hrun
  rw [settle_eq, hrun]

/-- The run from the next candidate has the same end, if the attempts suffice. -/
theorem settle_eq_settle_next {c next : Candidate} (hjudge : judge c = .ok (.retry next))
    (h : ¬∃ d, PutAside judge maxAttempts c d) :
    settle what judge c = settle what judge next := by
  obtain ⟨k, hk⟩ : ∃ k, maxAttempts = k + 1 := ⟨999, rfl⟩
  rw [hk] at h
  rw [settle_eq, settle_eq, hk, settleWithin_of_retry what hjudge, settleWithin_succ_eq]
  rintro ⟨d, hd⟩
  exact h ⟨d, .succ hjudge hd⟩

end Steps

/-! ## Rules -/

/-- A way to judge candidates for which no verdict fails. -/
structure Rule where
  /-- The candidates that are accepted. -/
  Accepts : Candidate → Prop
  /-- There is a test for them. -/
  decidable : DecidablePred Accepts
  /-- The node of a candidate that is accepted. -/
  node : Candidate → Node
  /-- The candidate behind one that is put aside. -/
  next : Candidate → Candidate

namespace Rule

attribute [instance] Rule.decidable

/-- The verdicts of a rule. -/
def judge (R : Rule) (c : Candidate) : Except Error Verdict :=
  if R.Accepts c then .ok (.accept (R.node c)) else .ok (.retry (R.next c))

/-- Each candidate of the chain is the one behind the last. -/
def IsChain (R : Rule) (I : ℕ → Candidate) : Prop := ∀ j, I (j + 1) = R.next (I j)

variable {R : Rule} {I : ℕ → Candidate} (what : String)

theorem IsChain.tail (hI : R.IsChain I) : R.IsChain fun j => I (j + 1) := by
  intro j
  exact hI (j + 1)

theorem judge_of_accepts {c : Candidate} (h : R.Accepts c) :
    R.judge c = .ok (.accept (R.node c)) := if_pos h

theorem judge_of_not_accepts {c : Candidate} (h : ¬R.Accepts c) :
    R.judge c = .ok (.retry (R.next c)) := if_neg h

/-- Candidates that are not accepted are put aside one after another. -/
theorem IsChain.putAside (hI : R.IsChain I) {j : ℕ} (h : ∀ i < j, ¬R.Accepts (I i)) :
    PutAside R.judge j (I 0) (I j) := by
  induction j generalizing I with
  | zero => exact .zero (I 0)
  | succ j ih =>
    -- the first is put aside, and the walk goes on along the tail of the chain
    have hfirst := judge_of_not_accepts (h 0 (by omega))
    rw [← hI 0] at hfirst
    refine .succ hfirst (ih hI.tail ?_)
    intro i hi
    exact h (i + 1) (by omega)

/-- A run ends with the first candidate that is accepted. -/
theorem IsChain.settle_of_first (hI : R.IsChain I) {j : ℕ} (hj : j < maxAttempts)
    (h : R.Accepts (I j)) (hbefore : ∀ i < j, ¬R.Accepts (I i)) :
    settle what R.judge (I 0) = .ok (R.node (I j)) := by
  apply settle_of_concludes what hj (hI.putAside hbefore)
  rw [judge_of_accepts h]
  exact .accept (R.node (I j))

/-- A run fails when none of the first candidates is accepted. -/
theorem IsChain.settle_of_none (hI : R.IsChain I) (h : ∀ j < maxAttempts, ¬R.Accepts (I j)) :
    settle what R.judge (I 0) = .error (.notConverged what) :=
  settle_of_putAside what (hI.putAside h)

/-- Among the first candidates there is a first one that is accepted, or none is. -/
theorem first_or_none (R : Rule) (I : ℕ → Candidate) (k : ℕ) :
    (∃ j < k, R.Accepts (I j) ∧ ∀ i < j, ¬R.Accepts (I i)) ∨ ∀ j < k, ¬R.Accepts (I j) := by
  by_cases h : ∃ j, j < k ∧ R.Accepts (I j)
  · left
    rcases Nat.find_spec h with ⟨hlt, hacc⟩
    refine ⟨Nat.find h, hlt, hacc, ?_⟩
    intro i hi hacci
    exact Nat.find_min h hi ⟨lt_trans hi hlt, hacci⟩
  · right
    intro j hj hacc
    exact h ⟨j, hj, hacc⟩

/-- A run finds exactly the node of the first candidate that is accepted, if it comes before the
cap. -/
theorem IsChain.settle_eq_ok_iff (hI : R.IsChain I) {node : Node} :
    settle what R.judge (I 0) = .ok node ↔
      ∃ j < maxAttempts, R.Accepts (I j) ∧ (∀ i < j, ¬R.Accepts (I i)) ∧
        node = R.node (I j) := by
  constructor
  · intro h
    rcases R.first_or_none I maxAttempts with ⟨j, hj, hacc, hbefore⟩ | hnone
    · rw [hI.settle_of_first what hj hacc hbefore, Except.ok.injEq] at h
      exact ⟨j, hj, hacc, hbefore, h.symm⟩
    · rw [hI.settle_of_none what hnone] at h
      exact absurd h (by simp)
  · intro h
    rcases h with ⟨j, hj, hacc, hbefore, rfl⟩
    exact hI.settle_of_first what hj hacc hbefore

/-- A run ends with a candidate that is accepted, or it uses up its attempts. -/
theorem settle_cases (R : Rule) (c : Candidate) :
    (∃ d, R.Accepts d ∧ settle what R.judge c = .ok (R.node d)) ∨
      settle what R.judge c = .error (.notConverged what) := by
  -- every candidate is the first of a chain
  have hI : R.IsChain fun j => R.next^[j] c := by
    intro j
    exact Function.iterate_succ_apply' R.next j c
  rcases R.first_or_none (fun j => R.next^[j] c) maxAttempts with ⟨j, hj, hacc, hbefore⟩ | hnone
  · left
    exact ⟨R.next^[j] c, hacc, hI.settle_of_first what hj hacc hbefore⟩
  · right
    exact hI.settle_of_none what hnone

end Rule

end KeyTree.Node
