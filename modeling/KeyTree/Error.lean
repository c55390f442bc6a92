/-!
# Constants and errors

The constants of the whole library, everything that can go wrong with keys, indices, paths and
derivation, and the text for each error.
-/

namespace KeyTree

/-- The version of the library. -/
def version : String := "0.1.0"

/-- The number of candidates that a derivation step looks at before it gives up. -/
def maxAttempts : Nat := 1000

/-- A cause of failure. -/
inductive Error where
  /-- Not 32 bytes that write a number from 1 to the group order less one. -/
  | invalidPrivateKey
  /-- Not the encoding of a point of the curve. -/
  | invalidPublicKey
  /-- Not the strict DER encoding of two integers. -/
  | invalidSignature
  /-- The curve has no such child. -/
  | unsupportedDerivation (detail : String)
  /-- The number is too large for an index. -/
  | invalidIndex (detail : String)
  /-- The text is not a path. -/
  | invalidPath (detail : String)
  /-- A step of a derivation failed. -/
  | keyDerivation (detail : String)
  /-- None of the first `maxAttempts` candidates for the value of this name would do. -/
  | notConverged (what : String)
deriving DecidableEq

/-- The full text of an error. -/
def Error.message : Error → String
  | .invalidPrivateKey => "Invalid private key: not a valid secp256k1 private key"
  | .invalidPublicKey => "Invalid public key: not a valid secp256k1 public key"
  | .invalidSignature => "Invalid signature: not a valid DER encoded ECDSA signature"
  | .unsupportedDerivation detail => "Unsupported derivation: " ++ detail
  | .invalidIndex detail => "Invalid index: " ++ detail
  | .invalidPath detail => "Invalid derivation path: " ++ detail
  | .keyDerivation detail => "Key derivation error: " ++ detail
  | .notConverged what => what ++ " did not converge after " ++ Nat.repr maxAttempts ++ " attempts"

/-! ## Outcomes -/

/-- What succeeded is handed on. -/
@[simp] theorem ok_bind {α β : Type} (a : α) (f : α → Except Error β) :
    (Except.ok a >>= f) = f a := rfl

/-- What failed ends there. -/
@[simp] theorem error_bind {α β : Type} (e : Error) (f : α → Except Error β) :
    (Except.error e >>= f) = Except.error e := rfl

/-- What succeeds in two parts succeeds in each. -/
theorem bind_eq_ok {α β : Type} {x : Except Error α} {f : α → Except Error β} {b : β}
    (h : (x >>= f) = .ok b) : ∃ a, x = .ok a ∧ f a = .ok b := by
  rcases x with e | a
  · exact absurd h (by simp)
  · exact ⟨a, rfl, h⟩

/-- A second part that cannot fail leaves the failures to the first one. -/
theorem bind_pure_eq_error_iff {α β : Type} {x : Except Error α} {f : α → β} {e : Error} :
    (x >>= fun a => pure (f a)) = .error e ↔ x = .error e := by
  rcases x with e' | a
  · rw [error_bind, Except.error.injEq, Except.error.injEq]
  · rw [ok_bind]
    exact iff_of_false (fun h => nomatch h) (fun h => nomatch h)

end KeyTree
