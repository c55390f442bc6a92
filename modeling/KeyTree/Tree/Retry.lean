import KeyTree.Error

/-!
# Trying again

An attempt may give a value, give none, or fail. `untilSome` runs it until one of the first and the
last happens, up to a fixed number of times. The attempt may keep state of its own from one run to
the next, in whatever monad it lives.
-/

namespace KeyTree.Retry

variable {m : Type → Type} [Monad m] [MonadExceptOf Error m] {α : Type}

/-- The first value of `k` runs of an attempt. -/
@[specialize] def within (what : String) (attempt : m (Option α)) : (k : Nat) → m α
  | 0 => throw (.notConverged what)
  | k + 1 => do
    match ← attempt with
    | some a => return a
    | none => within what attempt k

/-- The first value of an attempt that is run `maxAttempts` times at most. -/
@[specialize] def untilSome (what : String) (attempt : m (Option α)) : m α :=
  within what attempt maxAttempts

end KeyTree.Retry
