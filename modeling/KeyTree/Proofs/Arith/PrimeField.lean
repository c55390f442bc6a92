import KeyTree.Arith.Modular
import Mathlib

/-!
# Numbers modulo a prime as a field

`Modular` computes on `Fin p`; the algebra lives in `ZMod p`. `toZMod` is the bridge: it is
injective and takes every operation of the library to the one of the field, so that an identity
between computed numbers is an identity in a field.

* `toZMod_pow`: squaring and multiplying computes the power, for any modulus.
* `toZMod_inverse`: for a prime modulus `inverse` is the inverse, by Fermat's little theorem.
* `sqrt?_eq_none_iff`: for a prime modulus that leaves 3 modulo 4, `sqrt?` finds a root of every
  square.
-/

namespace KeyTree.Modular

variable {p : ℕ}

/-- The element of the ring that a number modulo `p` stands for. -/
def toZMod (a : Fin p) : ZMod p := (a.val : ZMod p)

/-! ## Operations -/

@[simp] theorem toZMod_add (a b : Fin p) : toZMod (a + b) = toZMod a + toZMod b := by
  unfold toZMod
  rw [Fin.val_add, ZMod.natCast_mod, Nat.cast_add]

@[simp] theorem toZMod_mul (a b : Fin p) : toZMod (a * b) = toZMod a * toZMod b := by
  unfold toZMod
  rw [Fin.val_mul, ZMod.natCast_mod, Nat.cast_mul]

@[simp] theorem toZMod_sub (a b : Fin p) : toZMod (a - b) = toZMod a - toZMod b := by
  unfold toZMod
  rw [Fin.sub_def, ZMod.natCast_mod, Nat.cast_add, Nat.cast_sub b.isLt.le, ZMod.natCast_self]
  ring

@[simp] theorem toZMod_neg (a : Fin p) : toZMod (-a) = -toZMod a := by
  unfold toZMod
  rw [Fin.neg_def, ZMod.natCast_mod, Nat.cast_sub a.isLt.le, ZMod.natCast_self]
  ring

@[simp] theorem val_toZMod (a : Fin p) : (toZMod a).val = a.val := by
  exact ZMod.val_natCast_of_lt a.isLt

theorem toZMod_injective : Function.Injective (toZMod : Fin p → ZMod p) := by
  intro a b h
  have hval := congrArg ZMod.val h
  rw [val_toZMod, val_toZMod] at hval
  exact Fin.ext hval

@[simp] theorem toZMod_inj {a b : Fin p} : toZMod a = toZMod b ↔ a = b :=
  toZMod_injective.eq_iff

/-! ## Back from the field -/

section Prime

variable [Fact p.Prime]

/-- The number that stands for an element of the ring. -/
def ofZMod (a : ZMod p) : Fin p := ⟨a.val, ZMod.val_lt a⟩

@[simp] theorem val_ofZMod (a : ZMod p) : (ofZMod a).val = a.val := rfl

@[simp] theorem toZMod_ofZMod (a : ZMod p) : toZMod (ofZMod a) = a := by
  exact ZMod.natCast_zmod_val a

@[simp] theorem ofZMod_toZMod (a : Fin p) : ofZMod (toZMod a) = a := by
  apply toZMod_injective
  rw [toZMod_ofZMod]

@[simp] theorem ofZMod_inj {a b : ZMod p} : ofZMod a = ofZMod b ↔ a = b := by
  rw [← toZMod_inj, toZMod_ofZMod, toZMod_ofZMod]

/-- A computed number is the image of an element as soon as it stands for that element. -/
theorem eq_ofZMod_iff {a : Fin p} {b : ZMod p} : a = ofZMod b ↔ toZMod a = b := by
  rw [← toZMod_inj, toZMod_ofZMod]

/-- The number of a negative is the negative of the number. -/
theorem ofZMod_neg (a : ZMod p) : ofZMod (-a) = -ofZMod a := by
  symm
  rw [eq_ofZMod_iff, toZMod_neg, toZMod_ofZMod]

/-- Modulo an odd prime an element and its negative have different parities. -/
theorem parity_neg_ne (hp : p % 2 = 1) {a : ZMod p} (ha : a ≠ 0) : (-a).val % 2 ≠ a.val % 2 := by
  have hval : a.val ≠ 0 := fun h => ha ((ZMod.val_eq_zero a).1 h)
  have hlt := ZMod.val_lt a
  rw [ZMod.neg_val, if_neg ha]
  omega

/-- Modulo a prime that leaves 3, this power is a square root of every square. -/
theorem pow_mul_pow_of_isSquare (hp : p % 4 = 3) {a : ZMod p} (h : IsSquare a) :
    a ^ ((p + 1) / 4) * a ^ ((p + 1) / 4) = a := by
  rcases h with ⟨b, rfl⟩
  by_cases hb : b = 0
  · have hexp : (p + 1) / 4 ≠ 0 := by omega
    rw [hb, mul_zero, zero_pow hexp, mul_zero]
  · -- four times the exponent is two more than the one of Fermat
    have hexp : (p + 1) / 4 + (p + 1) / 4 + ((p + 1) / 4 + (p + 1) / 4) = p - 1 + 2 := by omega
    rw [← pow_add, mul_pow, ← pow_add, hexp, pow_add, ZMod.pow_card_sub_one_eq_one hb, one_mul, sq]

end Prime

/-! ## Numerals and powers -/

variable [Modulus p]

/-- A reduced number and the number itself stand for one residue. -/
@[simp] theorem toZMod_residue (n : ℕ) : toZMod (residue p n) = (n : ZMod p) := by
  unfold toZMod
  rw [val_residue, ZMod.natCast_mod]

@[simp] theorem toZMod_zero : toZMod (0 : Fin p) = 0 := by
  have h := toZMod_residue (p := p) 0
  rwa [Nat.cast_zero] at h

@[simp] theorem toZMod_one : toZMod (1 : Fin p) = 1 := by
  have h := toZMod_residue (p := p) 1
  rwa [Nat.cast_one] at h

@[simp] theorem toZMod_ofNat (n : ℕ) [n.AtLeastTwo] :
    toZMod (ofNat(n) : Fin p) = (ofNat(n) : ZMod p) := by
  exact toZMod_residue n

@[simp] theorem toZMod_eq_zero {a : Fin p} : toZMod a = 0 ↔ a = 0 := by
  rw [← toZMod_zero, toZMod_inj]

/-- Only zero has zero as its negative. -/
theorem neg_eq_zero_iff {a : Fin p} : -a = 0 ↔ a = 0 := by
  rw [← toZMod_eq_zero, toZMod_neg, neg_eq_zero, toZMod_eq_zero]

/-- Squaring and multiplying computes the power. -/
@[simp] theorem toZMod_pow (a : Fin p) (n : ℕ) : toZMod (pow a n) = toZMod a ^ n := by
  unfold pow
  -- the invariant of the walk: after the digits of `n` the number stands for the `n`-th power
  apply DoubleAndAdd.multiple_rel (R := fun n x => toZMod x = toZMod a ^ n)
  · rw [toZMod_one, pow_zero]
  · intro n x hx
    rw [toZMod_mul, hx, two_mul, pow_add]
  · intro n x hx
    rw [toZMod_mul, hx, pow_succ]

/-- Fermat's power is the inverse of any number but zero. -/
theorem toZMod_inverse [Fact p.Prime] {a : Fin p} (h : a ≠ 0) :
    toZMod (inverse a) = (toZMod a)⁻¹ := by
  have hp := (Fact.out : p.Prime).two_le
  have h₀ : toZMod a ≠ 0 := fun h' => h (toZMod_eq_zero.1 h')
  have hfermat : toZMod a ^ (p - 2) * toZMod a = 1 := by
    rw [← pow_succ, show p - 2 + 1 = p - 1 by omega]
    exact ZMod.pow_card_sub_one_eq_one h₀
  unfold inverse
  rw [toZMod_pow]
  exact eq_inv_of_mul_eq_one_left hfermat

/-- Euler's criterion, on the computed power. -/
theorem isSquare_toZMod_iff [Fact p.Prime] {a : Fin p} (h : a ≠ 0) :
    IsSquare (toZMod a) ↔ pow a (p / 2) = 1 := by
  rw [ZMod.euler_criterion p (toZMod_eq_zero.not.2 h), ← toZMod_pow, ← toZMod_one, toZMod_inj]

/-- A square root is found for every square. -/
theorem sqrt?_eq_none_iff [Fact p.Prime] (hp : p % 4 = 3) {a : Fin p} :
    sqrt? a = none ↔ ¬IsSquare (toZMod a) := by
  have hroot : pow a ((p + 1) / 4) * pow a ((p + 1) / 4) = a ↔ IsSquare (toZMod a) := by
    rw [← toZMod_inj, toZMod_mul, toZMod_pow]
    constructor
    · intro h
      exact ⟨_, h.symm⟩
    · exact pow_mul_pow_of_isSquare hp
  rw [← hroot]
  simp [sqrt?]

end KeyTree.Modular
