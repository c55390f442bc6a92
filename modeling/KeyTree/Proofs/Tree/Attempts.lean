import KeyTree.Tree.Retry
import Mathlib

/-!
# The calls of an attempt

`Retry.untilSome` for an attempt with state of its own, which also outlives a failure. `state` says
where the attempt stands after some calls and `outcome` what the next call gives, both without the
loop. To see which calls the loop makes, `recorded` notes something down at each of them.

* `within_add`: calls that give no value lead the loop on, with that many attempts less.
* `within_of_decides`, `within_of_none`: the loop ends with the first call that gives a value or
  fails, and gives up when none of its attempts does.
* `untilSome_ends`: the ends of a loop with `maxAttempts` attempts, and the calls that it makes.
-/

namespace KeyTree.Retry

variable {σ α β γ : Type}

/-! ## Calls -/

/-- What may fail, and has a state that outlives a failure. -/
abbrev Stateful (σ α : Type) : Type := ExceptT Error (StateM σ) α

namespace Stateful

/-- What a call in this state gives, and the state after it. -/
def call (x : Stateful σ α) (s : σ) : Except Error α × σ := x.run.run s

/-- What has these calls. -/
def ofCalls (f : σ → Except Error α × σ) : Stateful σ α := ExceptT.mk f

@[simp] theorem call_ofCalls (f : σ → Except Error α × σ) (s : σ) : (ofCalls f).call s = f s := rfl

/-- A call that gives a value hands it on, with the state. -/
theorem call_bind_of_ok {x : Stateful σ α} {s t : σ} {a : α} (h : x.call s = (.ok a, t))
    (f : α → Stateful σ β) : call (x >>= f) s = (f a).call t := by
  unfold call at h ⊢
  rw [ExceptT.run_bind, StateT.run_bind, h]
  rfl

/-- A call that fails is the last one, and its state stays. -/
theorem call_bind_of_error {x : Stateful σ α} {s t : σ} {e : Error} (h : x.call s = (.error e, t))
    (f : α → Stateful σ β) : call (x >>= f) s = (.error e, t) := by
  unfold call at h ⊢
  rw [ExceptT.run_bind, StateT.run_bind, h]
  rfl

/-- The same with a list in its state, to which each call adds what `note` makes of the state that
the call is made in. -/
def recorded (note : σ → γ) (x : Stateful σ α) : Stateful (σ × List γ) α :=
  ofCalls fun s => ((x.call s.1).1, (x.call s.1).2, s.2 ++ [note s.1])

@[simp] theorem call_recorded (note : σ → γ) (x : Stateful σ α) (s : σ × List γ) :
    (recorded note x).call s = ((x.call s.1).1, (x.call s.1).2, s.2 ++ [note s.1]) := rfl

end Stateful

open Stateful

/-! ## Runs of calls -/

variable (attempt : Stateful σ (Option α)) (s : σ)

/-- The state after `k` calls. -/
def state : ℕ → σ
  | 0 => s
  | k + 1 => (attempt.call (state k)).2

/-- What a call gives that is made after `k` others. -/
def outcome (k : ℕ) : Except Error (Option α) := (attempt.call (state attempt s k)).1

@[simp] theorem state_zero : state attempt s 0 = s := rfl

theorem state_succ (k : ℕ) : state attempt s (k + 1) = (attempt.call (state attempt s k)).2 := rfl

/-- Each call is made in the state that the one before it has left. -/
theorem call_state (k : ℕ) :
    attempt.call (state attempt s k) = (outcome attempt s k, state attempt s (k + 1)) := rfl

/-- Recording leaves the states alone, and the list shows them all. -/
theorem state_recorded (note : σ → γ) (seen : List γ) (k : ℕ) :
    state (recorded note attempt) (s, seen) k =
      (state attempt s k, seen ++ (List.range k).map fun i => note (state attempt s i)) := by
  induction k with
  | zero => simp
  | succ k ih =>
    rw [state_succ, ih, call_recorded, state_succ, List.range_succ, List.map_append,
      ← List.append_assoc]
    rfl

theorem state_recorded_id (k : ℕ) : state (recorded id attempt) (s, []) k =
    (state attempt s k, (List.range k).map (state attempt s)) :=
  state_recorded attempt s id [] k

/-- Recording leaves the outcomes alone. -/
theorem outcome_recorded (note : σ → γ) (seen : List γ) (k : ℕ) :
    outcome (recorded note attempt) (s, seen) k = outcome attempt s k := by
  unfold outcome
  rw [state_recorded, call_recorded]

/-- The outcome of a call ends a loop, with this result. -/
inductive Decides : Except Error (Option α) → Except Error α → Prop
  | value (a : α) : Decides (.ok (some a)) (.ok a)
  | failure (e : Error) : Decides (.error e) (.error e)

/-- Among the first calls there is a first one that ends a loop, or none does. -/
theorem exists_decides_or_none (n : ℕ) :
    ∃ k ≤ n, (∀ i < k, outcome attempt s i = .ok none) ∧
      (k = n ∨ ∃ r, Decides (outcome attempt s k) r) := by
  induction n with
  | zero =>
    refine ⟨0, Nat.le_refl 0, ?_, .inl rfl⟩
    intro i hi
    omega
  | succ n ih =>
    rcases ih with ⟨k, hk, hbefore, rfl | hdecides⟩
    · -- none of the first calls ends a loop, so the next one is looked at
      cases hnext : outcome attempt s k with
      | error e =>
        refine ⟨k, Nat.le_succ k, hbefore, .inr ⟨.error e, ?_⟩⟩
        rw [hnext]
        exact .failure e
      | ok value? =>
        cases value? with
        | none =>
          refine ⟨k + 1, Nat.le_refl _, ?_, .inl rfl⟩
          intro i hi
          rcases Nat.lt_succ_iff_lt_or_eq.1 hi with hlt | rfl
          · exact hbefore i hlt
          · exact hnext
        | some a =>
          refine ⟨k, Nat.le_succ k, hbefore, .inr ⟨.ok a, ?_⟩⟩
          rw [hnext]
          exact .value a
    · exact ⟨k, Nat.le_succ_of_le hk, hbefore, .inr hdecides⟩

/-! ## The loop -/

variable {attempt s} (what : String)

/-- A call that gives no value leads the loop on. -/
theorem within_succ_of_none {k : ℕ} {t : σ} (h : attempt.call s = (.ok none, t)) :
    call (within what attempt (k + 1)) s = call (within what attempt k) t :=
  call_bind_of_ok h _

/-- Any other call is the last one. -/
theorem within_succ_of_decides {k : ℕ} {r : Except Error α}
    (h : Decides (attempt.call s).1 r) :
    call (within what attempt (k + 1)) s = (r, (attempt.call s).2) := by
  rcases hcall : attempt.call s with ⟨o, t⟩
  rw [hcall] at h
  cases h with
  | value a => exact call_bind_of_ok hcall _
  | failure e => exact call_bind_of_error hcall _

/-- Calls that give no value lead the loop on, with that many attempts less. -/
theorem within_add {j k : ℕ} (h : ∀ i < j, outcome attempt s i = .ok none) :
    call (within what attempt (j + k)) s = call (within what attempt k) (state attempt s j) := by
  induction j generalizing k with
  | zero => rw [Nat.zero_add, state_zero]
  | succ j ih =>
    have hcall := call_state attempt s j
    rw [h j (Nat.lt_succ_self j)] at hcall
    rw [Nat.succ_add_eq_add_succ, ih fun i hi => h i (by omega), within_succ_of_none what hcall]

/-- The loop ends with the first call that gives a value or fails. -/
theorem within_of_decides {j n : ℕ} {r : Except Error α} (hj : j < n)
    (hbefore : ∀ i < j, outcome attempt s i = .ok none) (h : Decides (outcome attempt s j) r) :
    call (within what attempt n) s = (r, state attempt s (j + 1)) := by
  obtain ⟨k, rfl⟩ : ∃ k, n = j + (k + 1) := ⟨n - j - 1, by omega⟩
  rw [within_add what hbefore, within_succ_of_decides what h, state_succ]

/-- The loop gives up when none of its attempts gives a value or fails. -/
theorem within_of_none {n : ℕ} (h : ∀ i < n, outcome attempt s i = .ok none) :
    call (within what attempt n) s = (.error (.notConverged what), state attempt s n) := by
  rw [← Nat.add_zero n, within_add what h]
  rfl

/-- Started at `s`, the loop makes `k` calls, each in the state that the calls before it lead to,
and ends with this result. -/
structure Ends (what : String) (attempt : Stateful σ (Option α)) (s : σ) (k : ℕ)
    (r : Except Error α) : Prop where
  run : call (untilSome what attempt) s = (r, state attempt s k)
  calls : call (untilSome what (recorded id attempt)) (s, []) =
    (r, state attempt s k, (List.range k).map (state attempt s))

/-- A loop ends with the first call that decides, if it comes before the cap. -/
theorem ends_of_decides {j : ℕ} {r : Except Error α} (hj : j < maxAttempts)
    (hbefore : ∀ i < j, outcome attempt s i = .ok none) (h : Decides (outcome attempt s j) r) :
    Ends what attempt s (j + 1) r where
  run := within_of_decides what hj hbefore h
  calls := by
    simp only [← outcome_recorded attempt s id []] at hbefore h
    rw [← state_recorded_id]
    exact within_of_decides what hj hbefore h

/-- A loop gives up when no call before the cap decides. -/
theorem ends_of_none (h : ∀ i < maxAttempts, outcome attempt s i = .ok none) :
    Ends what attempt s maxAttempts (.error (.notConverged what)) where
  run := within_of_none what h
  calls := by
    simp only [← outcome_recorded attempt s id []] at h
    rw [← state_recorded_id]
    exact within_of_none what h

/-- The text of the cap tells its number. -/
theorem message_notConverged :
    (Error.notConverged what).message = what ++ " did not converge after 1000 attempts" := by
  have htext : (Error.notConverged what).message =
      what ++ " did not converge after " ++ "1000" ++ " attempts" := rfl
  rw [htext, String.append_assoc, String.append_assoc]
  rfl

/-- A loop ends with the first of its calls that gives a value or fails, and makes no further one.
When it is the call behind `j` others, and `j` is less than 1000, the result is that value or
failure, and the state has gone through these `j + 1` calls and nothing else. When the first 1000
calls give no value, these are all that are made, and the loop gives up. -/
theorem untilSome_ends (attempt : Stateful σ (Option α)) (s : σ) :
    (∀ j < 1000, (∀ i < j, outcome attempt s i = .ok none) →
      ∀ r, Decides (outcome attempt s j) r → Ends what attempt s (j + 1) r) ∧
    ((∀ i < 1000, outcome attempt s i = .ok none) →
      Ends what attempt s 1000 (.error (.notConverged what))) ∧
    (Error.notConverged what).message = what ++ " did not converge after 1000 attempts" := by
  refine ⟨?_, ?_, message_notConverged what⟩
  · intro j hj hbefore r h
    exact ends_of_decides what hj hbefore h
  · intro h
    exact ends_of_none what h

/-! ## An attempt that counts -/

/-- Counts its calls, and gives a value when it has counted up to `n`. -/
def countTo (n : ℕ) : Stateful ℕ (Option ℕ) :=
  ofCalls fun k => (.ok (if k = n then some k else none), k + 1)

/-- An attempt that counts has the number of the calls for its state. -/
theorem state_countTo (n k : ℕ) : state (countTo n) 0 k = k := by
  induction k with
  | zero => rfl
  | succ k ih => rw [state_succ, ih, countTo, call_ofCalls]

/-- An attempt that counts gives a value at its number only. -/
theorem outcome_countTo (n k : ℕ) :
    outcome (countTo n) 0 k = .ok (if k = n then some k else none) := by
  rw [outcome, state_countTo, countTo, call_ofCalls]

/-- A value at the last of 1000 calls is given, a value at the next one is not reached, and behind a
failure at the first call there is no other call. -/
theorem untilSome_ends_last :
    Ends "key" (countTo 999) 0 1000 (.ok 999) ∧
    Ends "key" (countTo 1000) 0 1000 (.error (.notConverged "key")) ∧
    Ends "key" (throw .invalidPrivateKey : Stateful ℕ (Option ℕ)) 0 1
      (.error .invalidPrivateKey) := by
  have hnone {n i : ℕ} (h : i < n) : outcome (countTo n) 0 i = .ok none := by
    rw [outcome_countTo, if_neg (by omega)]
  refine ⟨?_, ?_, ?_⟩
  · refine (untilSome_ends "key" (countTo 999) 0).1 999 (by decide) (fun i hi => hnone hi) _ ?_
    rw [outcome_countTo, if_pos rfl]
    exact .value 999
  · exact (untilSome_ends "key" (countTo 1000) 0).2.1 fun i hi => hnone hi
  · refine (untilSome_ends "key" _ 0).1 0 (by decide) ?_ _ (.failure .invalidPrivateKey)
    intro i hi
    omega

end KeyTree.Retry
