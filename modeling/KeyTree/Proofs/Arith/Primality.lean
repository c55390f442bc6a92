import KeyTree.Arith.DoubleAndAdd
import Mathlib.NumberTheory.LucasPrimality
import Mathlib.Data.Nat.Prime.Basic
import Mathlib.Tactic

/-!
# Certificates of primality

A number `m` is prime if some `a` has order `m - 1` modulo `m`. To see that it has, the prime
factors of `m - 1` have to be known, and to see that those are prime one asks the same of them. A
certificate lists such steps from the small numbers up; `Chain` checks it by squaring and
multiplying, so that the kernel can evaluate it for numbers of 256 bits.

* `Chain.prime`: every number that a certificate speaks of is prime.
-/

namespace KeyTree.Primality

/-- The power `a ^ n` modulo `m`. -/
def powMod (m a n : ℕ) : ℕ :=
  DoubleAndAdd.multiple (fun x => x * x % m) (fun x => x * a % m) (1 % m) n

/-- The walk over the digits of `n` computes the power. -/
theorem powMod_eq (m a n : ℕ) : powMod m a n = a ^ n % m := by
  unfold powMod
  apply DoubleAndAdd.multiple_rel (R := fun n x => x = a ^ n % m)
  · rfl
  · rintro n x rfl
    rw [← Nat.mul_mod, ← pow_add, two_mul]
  · rintro n x rfl
    rw [Nat.mod_mul_mod, pow_succ]

/-- One step of a certificate: a number, an element of full order, and the prime factors of the
number less one, each as often as it divides. -/
structure Step where
  number : ℕ
  root : ℕ
  factors : List ℕ

/-- The step shows its number prime, provided the numbers in `known` are. -/
def Step.Holds (known : List ℕ) (s : Step) : Prop :=
  1 < s.number ∧ s.factors.prod + 1 = s.number ∧ powMod s.number s.root (s.number - 1) = 1 ∧
    ∀ q ∈ s.factors, q ∈ known ∧ powMod s.number s.root ((s.number - 1) / q) ≠ 1

instance (known : List ℕ) : DecidablePred (Step.Holds known) := fun _ =>
  inferInstanceAs (Decidable (_ ∧ _))

/-- Every step holds, given the numbers known before and those of the steps in front of it. -/
def Chain : List ℕ → List Step → Prop
  | _, [] => True
  | known, s :: steps => s.Holds known ∧ Chain (s.number :: known) steps

instance decidableChain : (known : List ℕ) → (steps : List Step) → Decidable (Chain known steps)
  | _, [] => isTrue trivial
  | known, s :: steps =>
    have := decidableChain (s.number :: known) steps
    inferInstanceAs (Decidable (_ ∧ _))

/-- A power is one modulo `m` exactly if the walk gives one. -/
theorem natCast_pow_eq_one_iff {m : ℕ} (hm : 1 < m) (a n : ℕ) :
    (a : ZMod m) ^ n = 1 ↔ powMod m a n = 1 := by
  rw [powMod_eq, ← Nat.cast_pow, ← Nat.cast_one, ZMod.natCast_eq_natCast_iff', Nat.mod_eq_of_lt hm]

/-- A step that holds shows its number prime, by Lucas: the root has full order, since no quotient
of the order by a prime factor will do. -/
theorem Step.Holds.prime {known : List ℕ} {s : Step} (hknown : ∀ q ∈ known, q.Prime)
    (h : s.Holds known) : s.number.Prime := by
  rcases h with ⟨h1, hprod, hfull, hpart⟩
  apply lucas_primality s.number (s.root : ZMod s.number)
  · exact (natCast_pow_eq_one_iff h1 _ _).2 hfull
  · intro q hq hdvd
    -- a prime that divides the product is one of the factors
    rw [← hprod, Nat.add_sub_cancel] at hdvd
    rcases (Prime.dvd_prod_iff hq.prime).1 hdvd with ⟨f, hf, hqf⟩
    rcases hpart f hf with ⟨hfknown, hfpow⟩
    have hqf' : q = f := (Nat.prime_dvd_prime_iff_eq hq (hknown f hfknown)).1 hqf
    rw [hqf']
    intro hone
    exact hfpow ((natCast_pow_eq_one_iff h1 _ _).1 hone)

/-- Every number that a certificate speaks of is prime. -/
theorem Chain.prime {known : List ℕ} {steps : List Step} (hknown : ∀ q ∈ known, q.Prime)
    (h : Chain known steps) : ∀ m ∈ steps.map Step.number, m.Prime := by
  induction steps generalizing known with
  | nil =>
    intro m hm
    exact absurd hm List.not_mem_nil
  | cons t steps ih =>
    rcases h with ⟨ht, hrest⟩
    have htp := ht.prime hknown
    have hknown' : ∀ q ∈ t.number :: known, q.Prime := by
      intro q hq
      rcases List.mem_cons.1 hq with rfl | hq
      · exact htp
      · exact hknown q hq
    intro m hm
    rcases List.mem_cons.1 hm with rfl | hm
    · exact htp
    · exact ih hknown' hrest m hm

end KeyTree.Primality
