import KeyTree.Arith.DoubleAndAdd

/-!
# Arithmetic modulo a prime

Numbers modulo `p` are `Fin p`. Powers are taken by squaring, and for a prime `p` the two other
operations are powers: the inverse (Fermat) and, when `p` leaves the remainder 3 modulo 4, a
square root. The definitions make sense for any `p`; only their meaning needs a prime.
-/

namespace KeyTree

/-- A number modulo which one can compute: any but zero. -/
class Modulus (p : Nat) : Prop where
  pos : 0 < p

namespace Modular

variable {p : Nat} [Modulus p]

/-- A number modulo `p`. -/
def residue (p : Nat) [Modulus p] (n : Nat) : Fin p := ⟨n % p, Nat.mod_lt n Modulus.pos⟩

instance instOfNatResidue (n : Nat) : OfNat (Fin p) n := ⟨residue p n⟩

@[simp] theorem val_residue (n : Nat) : (residue p n).val = n % p := rfl

/-- The power of a number, by squaring. -/
def pow (a : Fin p) (n : Nat) : Fin p :=
  DoubleAndAdd.multiple (fun x => x * x) (fun x => x * a) 1 n

/-- The inverse, and zero for zero. -/
def inverse (a : Fin p) : Fin p := pow a (p - 2)

/-- A square root, if there is one. -/
def sqrt? (a : Fin p) : Option (Fin p) :=
  let r := pow a ((p + 1) / 4)
  if r * r = a then some r else none

/-- A root that was found is a root: the candidate is squared before it is given out. -/
theorem mul_self_of_sqrt? {a r : Fin p} (h : sqrt? a = some r) : r * r = a := by
  simp only [sqrt?] at h
  split at h
  · simp_all
  · simp at h

end Modular

end KeyTree
