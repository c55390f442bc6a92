/-!
# Double and add

A multiple of a point and a power of a number are reached by one walk over the binary digits of the
factor. `multiple` is that walk for any two operations "double" and "add one". Main statement:
`multiple_rel`, whatever links the counts `0`, `2 * n` and `n + 1` to the operations links every
count to its multiple.
-/

namespace KeyTree.DoubleAndAdd

variable {α : Type}

/-- The walk over the `k` low binary digits of `n`, from the highest one down. -/
@[specialize] def walk (double addOne : α → α) (zero : α) : (k n : Nat) → α
  | 0, _ => zero
  | k + 1, n =>
    let even := double (walk double addOne zero k (n / 2))
    if n % 2 = 1 then addOne even else even

/-- The result of adding one `n` times to `zero`, by doublings. -/
@[specialize] def multiple (double addOne : α → α) (zero : α) (n : Nat) : α :=
  walk double addOne zero (n.log2 + 1) n

/-- A walk keeps what its two steps keep, as long as `k` bits hold the number. -/
theorem walk_rel {double addOne : α → α} {zero : α} {R : Nat → α → Prop} (h₀ : R 0 zero)
    (h₂ : ∀ n x, R n x → R (2 * n) (double x)) (h₁ : ∀ n x, R n x → R (n + 1) (addOne x))
    {k n : Nat} (hk : n >>> k = 0) : R n (walk double addOne zero k n) := by
  induction k generalizing n with
  | zero => obtain rfl : n = 0 := hk; exact h₀
  | succ k ih =>
    have h := h₂ _ _ (ih (n := n / 2) (by rwa [Nat.shiftRight_succ_inside] at hk))
    simp only [walk]
    split
    · rename_i hn
      have h' := h₁ _ _ h
      rwa [show 2 * (n / 2) + 1 = n by omega] at h'
    · rename_i hn
      rwa [show 2 * (n / 2) = n by omega] at h

/-- What links the counts `0`, `2 * n` and `n + 1` to the operations links every count to its
multiple. -/
theorem multiple_rel {double addOne : α → α} {zero : α} {R : Nat → α → Prop} (h₀ : R 0 zero)
    (h₂ : ∀ n x, R n x → R (2 * n) (double x)) (h₁ : ∀ n x, R n x → R (n + 1) (addOne x))
    (n : Nat) : R n (multiple double addOne zero n) :=
  walk_rel h₀ h₂ h₁ (by
    rw [Nat.shiftRight_eq_div_pow]
    exact Nat.div_eq_of_lt Nat.lt_log2_self)

end KeyTree.DoubleAndAdd
