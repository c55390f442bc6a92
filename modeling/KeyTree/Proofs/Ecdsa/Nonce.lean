import KeyTree.Ecdsa.Nonce
import Mathlib

/-!
# The nonce of a signature

The stream of RFC 6979 goes on for as long as its values will not do. `NonceStream.nth` are these
values, and a value makes a signature when it is a scalar from which both halves come out other than
zero. The signer takes a value after the other and stops at the first that makes a signature.

* `signFrom?_of_first`, `sign_of_first`: the signature is the one with the first good value.
-/

namespace KeyTree

/-- The value at the place `j` of a stream, counted from zero. -/
def NonceStream.nth (stream : NonceStream) (j : ℕ) : ℕ := (NonceStream.skip^[j] stream).number

theorem NonceStream.nth_zero (stream : NonceStream) : stream.nth 0 = stream.number := rfl

/-- Behind the first value stands the stream that has skipped it. -/
theorem NonceStream.nth_succ (stream : NonceStream) (j : ℕ) :
    stream.nth (j + 1) = stream.skip.nth j := by
  unfold nth
  rw [Function.iterate_succ_apply]

namespace Ecdsa

variable {p n : ℕ} [Modulus p] [Modulus n] (D : Ecdsa p n) (z d : Fin n)

/-- The signature with a number as the nonce, if the number is a scalar that makes one. -/
def signNumber? (k : ℕ) : Option (Fin n × Fin n) :=
  if h : k < n then D.signWith? z d ⟨k, h⟩ else none

/-- The stream that the signer takes its nonces from: its data are the key and the digest. -/
def nonceStream : NonceStream :=
  NonceStream.start ((BigEndian.encode 32 d.val).toList ++ (BigEndian.encode 32 z.val).toList)

/-- The search takes the signature of the first value, or goes on behind it. -/
theorem signFrom?_succ (k : ℕ) (stream : NonceStream) :
    D.signFrom? z d (k + 1) stream =
      (D.signNumber? z d stream.number <|> D.signFrom? z d k stream.skip) := rfl

variable {D z d}

/-- The search stops at the first value that makes a signature. -/
theorem signFrom?_of_first {k j : ℕ} (hj : j < k) {stream : NonceStream} {sig : Fin n × Fin n}
    (h : D.signNumber? z d (stream.nth j) = some sig)
    (hbefore : ∀ i < j, D.signNumber? z d (stream.nth i) = none) :
    D.signFrom? z d k stream = some sig := by
  induction j generalizing k stream with
  | zero =>
    obtain ⟨k, rfl⟩ : ∃ l, k = l + 1 := ⟨k - 1, by omega⟩
    rw [NonceStream.nth_zero] at h
    rw [signFrom?_succ, h]
    rfl
  | succ j ih =>
    obtain ⟨k, rfl⟩ : ∃ l, k = l + 1 := ⟨k - 1, by omega⟩
    -- the first value is skipped, and the rest of the stream is searched with one value less
    have hfirst := hbefore 0 (by omega)
    rw [NonceStream.nth_zero] at hfirst
    rw [NonceStream.nth_succ] at h
    rw [signFrom?_succ, hfirst]
    show D.signFrom? z d k stream.skip = some sig
    refine ih (by omega) h ?_
    intro i hi
    rw [← NonceStream.nth_succ]
    exact hbefore (i + 1) (by omega)

/-- The signature is the one with the first good value, provided it comes before the cap. -/
theorem sign_of_first {j : ℕ} (hj : j < maxNonces) {sig : Fin n × Fin n}
    (h : D.signNumber? z d ((nonceStream z d).nth j) = some sig)
    (hbefore : ∀ i < j, D.signNumber? z d ((nonceStream z d).nth i) = none) :
    D.sign z d = sig := by
  have hsearch := signFrom?_of_first hj h hbefore
  unfold nonceStream at hsearch
  unfold sign
  dsimp only
  rw [hsearch, Option.getD_some]

end Ecdsa

end KeyTree
