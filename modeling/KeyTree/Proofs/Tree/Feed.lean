import KeyTree.Proofs.Tree.Attempts
import KeyTree.Proofs.Tree.Retry

/-!
# What a judge is fed

`Node.settle` for a judge with state of its own. Each candidate but the first is the one that the
judge asked for when it put the last one aside. The loop keeps that candidate in a state around the
judge's; `feed` makes one attempt of both states, so that the calls of the loop over candidates are
those of `Retry.untilSome`.

* `call_settleWithin`: the loop over candidates is the loop over these attempts.
* `settle_feeds`: what a judge is fed, and how that ends.
-/

namespace KeyTree.Node

open Retry Retry.Stateful

variable {σ : Type}

/-! ## Both states in one -/

/-- A verdict on the candidate that is next, with the candidate in the state. -/
def feed (judge : Candidate → Stateful σ Verdict) : Stateful (Candidate × σ) (Option Node) :=
  ofCalls fun p =>
    match (judge p.1).call p.2 with
    | (.ok (.accept node), t) => (.ok (some node), p.1, t)
    | (.ok (.retry next), t) => (.ok none, next, t)
    | (.error e, t) => (.error e, p.1, t)

section Feed

variable {judge : Candidate → Stateful σ Verdict} {c next : Candidate} {s t : σ} {node : Node}
  {e : Error}

/-- A candidate that is accepted stays, and gives its node. -/
theorem call_feed_of_accept (h : (judge c).call s = (.ok (.accept node), t)) :
    (feed judge).call (c, s) = (.ok (some node), c, t) := by
  rw [feed, call_ofCalls]
  dsimp only
  rw [h]

/-- A candidate that is put aside makes way for the one that the judge names. -/
theorem call_feed_of_retry (h : (judge c).call s = (.ok (.retry next), t)) :
    (feed judge).call (c, s) = (.ok none, next, t) := by
  rw [feed, call_ofCalls]
  dsimp only
  rw [h]

/-- A candidate on which the judge fails stays. -/
theorem call_feed_of_error (h : (judge c).call s = (.error e, t)) :
    (feed judge).call (c, s) = (.error e, c, t) := by
  rw [feed, call_ofCalls]
  dsimp only
  rw [h]

/-- The loop goes on only because the judge has asked for the next candidate. -/
theorem retry_of_call_feed (h : (feed judge).call (c, s) = (.ok none, next, t)) :
    (judge c).call s = (.ok (.retry next), t) := by
  rcases hcall : (judge c).call s with ⟨e | (node | next'), t'⟩
  · rw [call_feed_of_error hcall] at h
    cases h
  · rw [call_feed_of_accept hcall] at h
    cases h
  · rw [call_feed_of_retry hcall] at h
    cases h
    rfl

/-- The loop ends only with what the judge has said. -/
theorem concludes_of_call_feed {o : Except Error (Option Node)} {r : Except Error Node}
    (h : (feed judge).call (c, s) = (o, next, t)) (hr : Decides o r) :
    ∃ a, (judge c).call s = (a, t) ∧ Concludes a r := by
  rcases hcall : (judge c).call s with ⟨e | (node | next'), t'⟩
  · rw [call_feed_of_error hcall] at h
    cases h
    cases hr
    exact ⟨_, rfl, .failure e⟩
  · rw [call_feed_of_accept hcall] at h
    cases h
    cases hr
    exact ⟨_, rfl, .accept node⟩
  · rw [call_feed_of_retry hcall] at h
    cases h
    cases hr

variable (what : String)

/-- The loop over candidates is the loop over the attempts, without the last candidate. -/
theorem call_settleWithin (judge : Candidate → Stateful σ Verdict) (k : ℕ) (c : Candidate) (s : σ) :
    (settleWithin what judge k c).call s =
      Prod.map id Prod.snd ((within what (feed judge) k).call (c, s)) := by
  induction k generalizing c s with
  | zero => rfl
  | succ k ih =>
    rw [settleWithin_succ]
    rcases hcall : (judge c).call s with ⟨e | (node | next), t⟩
    · have hfeed := call_feed_of_error hcall
      rw [call_bind_of_error hcall, within_succ_of_decides what (r := .error e), hfeed]
      · rfl
      · rw [hfeed]
        exact .failure e
    · have hfeed := call_feed_of_accept hcall
      rw [call_bind_of_ok hcall, within_succ_of_decides what (r := .ok node), hfeed]
      · rfl
      · rw [hfeed]
        exact .value node
    · rw [call_bind_of_ok hcall, within_succ_of_none what (call_feed_of_retry hcall)]
      exact ih next t

/-! ## What the judge is asked -/

/-- The judge, with a list in its state of the candidates that it was asked about. -/
def logged (judge : Candidate → Stateful σ Verdict) (c : Candidate) :
    Stateful (σ × List Candidate) Verdict :=
  recorded (fun _ => c) (judge c)

theorem call_logged {a : Except Error Verdict} (h : (judge c).call s = (a, t))
    (asked : List Candidate) : (logged judge c).call (s, asked) = (a, t, asked ++ [c]) := by
  rw [logged, call_recorded, h]

/-- The log notes the candidate that the judge is asked about, and changes nothing else. -/
theorem call_feed_logged (judge : Candidate → Stateful σ Verdict) (c : Candidate) (s : σ)
    (asked : List Candidate) :
    (feed (logged judge)).call (c, s, asked) =
      (((feed judge).call (c, s)).1, ((feed judge).call (c, s)).2.1, ((feed judge).call (c, s)).2.2,
        asked ++ [c]) := by
  rcases hcall : (judge c).call s with ⟨e | (node | next), t⟩
  · rw [call_feed_of_error hcall, call_feed_of_error (call_logged hcall asked)]
  · rw [call_feed_of_accept hcall, call_feed_of_accept (call_logged hcall asked)]
  · rw [call_feed_of_retry hcall, call_feed_of_retry (call_logged hcall asked)]

/-- The candidate that comes after `j` others. -/
def fed (judge : Candidate → Stateful σ Verdict) (c : Candidate) (s : σ) (j : ℕ) : Candidate :=
  (state (feed judge) (c, s) j).1

/-- The state of the judge after `j` candidates. -/
def judgeState (judge : Candidate → Stateful σ Verdict) (c : Candidate) (s : σ) (j : ℕ) : σ :=
  (state (feed judge) (c, s) j).2

/-- After `k` calls the log holds the first `k` candidates. -/
theorem state_feed_logged (judge : Candidate → Stateful σ Verdict) (c : Candidate) (s : σ)
    (k : ℕ) : state (feed (logged judge)) (c, s, []) k =
      (fed judge c s k, judgeState judge c s k, (List.range k).map (fed judge c s)) := by
  induction k with
  | zero => rfl
  | succ k ih =>
    rw [state_succ, ih, call_feed_logged, List.range_succ, List.map_append]
    rfl

theorem outcome_feed_logged (judge : Candidate → Stateful σ Verdict) (c : Candidate) (s : σ)
    (k : ℕ) : outcome (feed (logged judge)) (c, s, []) k = outcome (feed judge) (c, s) k := by
  unfold outcome
  rw [state_feed_logged, call_feed_logged]
  rfl

/-- Started at `c` with the judge in the state `s`, the run asks the judge about these candidates,
one after another, and ends with this result and the judge in the state `t`. -/
structure Settles (what : String) (judge : Candidate → Stateful σ Verdict) (c : Candidate) (s : σ)
    (asked : List Candidate) (r : Except Error Node) (t : σ) : Prop where
  run : (settle what judge c).call s = (r, t)
  calls : (settle what (logged judge) c).call (s, []) = (r, t, asked)

/-- A run settles with the first verdict that asks for no other candidate. -/
theorem settles_of_decides {j : ℕ} {r : Except Error Node} (hj : j < maxAttempts)
    (hbefore : ∀ i < j, outcome (feed judge) (c, s) i = .ok none)
    (h : Decides (outcome (feed judge) (c, s) j) r) :
    Settles what judge c s ((List.range (j + 1)).map (fed judge c s)) r
      (judgeState judge c s (j + 1)) where
  run := by
    rw [settle_eq, call_settleWithin, within_of_decides what hj hbefore h]
    rfl
  calls := by
    simp only [← outcome_feed_logged judge c s] at hbefore h
    rw [settle_eq, call_settleWithin, within_of_decides what hj hbefore h, state_feed_logged]
    rfl

/-- A run gives up when every verdict before the cap asks for another candidate. -/
theorem settles_of_none (h : ∀ i < maxAttempts, outcome (feed judge) (c, s) i = .ok none) :
    Settles what judge c s ((List.range maxAttempts).map (fed judge c s))
      (.error (.notConverged what)) (judgeState judge c s maxAttempts) where
  run := by
    rw [settle_eq, call_settleWithin, within_of_none what h]
    rfl
  calls := by
    simp only [← outcome_feed_logged judge c s] at h
    rw [settle_eq, call_settleWithin, within_of_none what h, state_feed_logged, Prod.map_apply, id]

/-- How a run goes from any candidate and any state of the judge. -/
theorem exists_settles (judge : Candidate → Stateful σ Verdict) (c : Candidate) (s : σ) :
    ∃ (I : ℕ → Candidate) (S : ℕ → σ) (k : ℕ), I 0 = c ∧ S 0 = s ∧
      (∀ j < k, (judge (I j)).call (S j) = (.ok (.retry (I (j + 1))), S (j + 1))) ∧
      ((k < maxAttempts ∧ ∃ a r, (judge (I k)).call (S k) = (a, S (k + 1)) ∧ Concludes a r ∧
          Settles what judge c s ((List.range (k + 1)).map I) r (S (k + 1))) ∨
        (k = maxAttempts ∧ Settles what judge c s ((List.range k).map I)
          (.error (.notConverged what)) (S k))) := by
  rcases exists_decides_or_none (feed judge) (c, s) maxAttempts with ⟨k, hk, hnone, hend⟩
  refine ⟨fed judge c s, judgeState judge c s, k, rfl, rfl, ?_, ?_⟩
  · intro j hj
    have hcall := call_state (feed judge) (c, s) j
    rw [hnone j hj] at hcall
    exact retry_of_call_feed hcall
  · rcases Nat.lt_or_eq_of_le hk with hlt | rfl
    · rcases hend with rfl | ⟨r, hr⟩
      · omega
      · rcases concludes_of_call_feed (call_state (feed judge) (c, s) k) hr with ⟨a, ha, hconcludes⟩
        exact .inl ⟨hlt, a, r, ha, hconcludes, settles_of_decides what hlt hnone hr⟩
    · exact .inr ⟨rfl, settles_of_none what hnone⟩

end Feed

/-! ## The chain of candidates -/

/-- A judge is fed the candidates that it asks for. From any candidate and any state of the judge,
the candidate `I (j + 1)` is the one in its verdict on `I j`, and the judge is asked about these one
after another and about no others. The result is the node or the failure of the first verdict that
asks for no candidate, if it is one of the first 1000, and otherwise the loop gives up. For a judge
without state this makes the run from a candidate that is put aside the run from the next one,
unless all of the first 1000 are put aside. -/
theorem settle_feeds :
    (∀ (σ : Type) (what : String) (judge : Candidate → Stateful σ Verdict) (c : Candidate) (s : σ),
      ∃ (I : ℕ → Candidate) (S : ℕ → σ) (k : ℕ), I 0 = c ∧ S 0 = s ∧
        (∀ j < k, (judge (I j)).call (S j) = (.ok (.retry (I (j + 1))), S (j + 1))) ∧
        ((k < 1000 ∧ ∃ a r, (judge (I k)).call (S k) = (a, S (k + 1)) ∧ Concludes a r ∧
            Settles what judge c s ((List.range (k + 1)).map I) r (S (k + 1))) ∨
          (k = 1000 ∧ Settles what judge c s ((List.range k).map I)
            (.error (.notConverged what)) (S k)))) ∧
    ∀ (what : String) (judge : Candidate → Except Error Verdict) (c : Candidate),
      (∀ j < 1000, ∀ d r, PutAside judge j c d → Concludes (judge d) r →
        settle what judge c = r) ∧
      ((∃ d, PutAside judge 1000 c d) → settle what judge c = .error (.notConverged what)) ∧
      ∀ next, judge c = .ok (.retry next) → (¬∃ d, PutAside judge 1000 c d) →
        settle what judge c = settle what judge next := by
  constructor
  · intro σ what judge c s
    exact exists_settles what judge c s
  · intro what judge c
    refine ⟨?_, ?_, ?_⟩
    · intro j hj d r hd hr
      exact settle_of_concludes what hj hd hr
    · rintro ⟨d, hd⟩
      exact settle_of_putAside what hd
    · intro next hjudge h
      exact settle_eq_settle_next what hjudge h

/-- Puts two candidates aside, and accepts any other. -/
def twice (c : Candidate) : Except Error Verdict :=
  if c = Vector.replicate 64 1 then .ok (.retry (Vector.replicate 64 2))
  else if c = Vector.replicate 64 2 then .ok (.retry (Vector.replicate 64 3))
  else .ok (.accept (.ofCandidate c))

/-- From the first of the two, the node is that of the third candidate, as it is from the second. -/
theorem settle_feeds_twice :
    settle "key" twice (Vector.replicate 64 1) = settle "key" twice (Vector.replicate 64 2) ∧
    settle "key" twice (Vector.replicate 64 1) = .ok (.ofCandidate (Vector.replicate 64 3)) := by
  have hfirst : twice (Vector.replicate 64 1) = .ok (.retry (Vector.replicate 64 2)) := by decide
  have hsecond : twice (Vector.replicate 64 2) = .ok (.retry (Vector.replicate 64 3)) := by decide
  have hthird : twice (Vector.replicate 64 3) =
      .ok (.accept (.ofCandidate (Vector.replicate 64 3))) := by decide
  rcases settle_feeds.2 "key" twice (Vector.replicate 64 1) with ⟨hresult, -, hnext⟩
  constructor
  · refine hnext _ hfirst ?_
    rintro ⟨d, hd⟩
    rcases PutAside.exists_next (j := 999) hd with ⟨c₁, h₁, hd⟩
    obtain rfl : Vector.replicate 64 2 = c₁ := by simpa [hfirst] using h₁
    rcases PutAside.exists_next (j := 998) hd with ⟨c₂, h₂, hd⟩
    obtain rfl : Vector.replicate 64 3 = c₂ := by simpa [hsecond] using h₂
    rcases PutAside.exists_next (j := 997) hd with ⟨c₃, h₃, -⟩
    exact absurd h₃ (by simp [hthird])
  · refine hresult 2 (by decide) (Vector.replicate 64 3) _ ?_ ?_
    · exact .succ hfirst (.succ hsecond (.zero _))
    · rw [hthird]
      exact .accept _

end KeyTree.Node
