import KeyTree.Proofs.Index.Refusal

/-!
# The printed form of an index

Of all the runs of digits that write a number the printer takes the one without a needless zero in
front, and of the marks it takes one.

* `toDigits_decimal`: digits without a zero in front are the ones that their number is printed with.
* `toChars_of_normal`, `toChars_of_hardened`: the text of an index from its word.
-/

namespace KeyTree.Index

/-! ## Digits -/

/-- A decimal digit stands for less than ten. -/
theorem digit_sub_lt {c : Char} (h : '0' ≤ c ∧ c ≤ '9') : c.toNat - '0'.toNat < 10 := by
  have hle : c.toNat ≤ '9'.toNat := h.2
  have hnine : '9'.toNat = '0'.toNat + 9 := rfl
  omega

/-- The digit of what a digit stands for is that digit. -/
theorem digitChar_sub {c : Char} (h : '0' ≤ c ∧ c ≤ '9') :
    Nat.digitChar (c.toNat - '0'.toNat) = c := by
  have hge : '0'.toNat ≤ c.toNat := h.1
  have hzero : '0'.toNat = 48 := rfl
  apply Char.toNat_inj.1
  rw [Nat.toNat_digitChar_of_lt_ten (digit_sub_lt h)]
  omega

theorem decimal_singleton (c : Char) : decimal [c] = c.toNat - '0'.toNat := by
  simp [decimal]

/-- A digit behind the others counts once, and they count ten times more. -/
theorem decimal_concat (digits : List Char) (c : Char) :
    decimal (digits ++ [c]) = 10 * decimal digits + (c.toNat - '0'.toNat) := by
  rw [← ofDigitChars_eq_decimal, ← ofDigitChars_eq_decimal, Nat.ofDigitChars_append,
    Nat.ofDigitChars_cons, Nat.ofDigitChars_nil]

/-- A zero in front does not count. -/
theorem decimal_zero_cons (digits : List Char) : decimal ('0' :: digits) = decimal digits := by
  rw [decimal, Nat.sub_self, zero_mul, zero_add]

/-- A digit other than zero in front makes a number other than zero. -/
theorem decimal_pos {c : Char} (h : '0' ≤ c ∧ c ≤ '9') (hc : c ≠ '0') (digits : List Char) :
    0 < decimal (c :: digits) := by
  have hge : '0'.toNat ≤ c.toNat := h.1
  have hne : c.toNat ≠ '0'.toNat := fun heq => hc (Char.toNat_inj.1 heq)
  have hpow : 0 < 10 ^ digits.length := Nat.pow_pos (by decide)
  have hdigit : 0 < (c.toNat - '0'.toNat) * 10 ^ digits.length := Nat.mul_pos (by omega) hpow
  rw [decimal]
  omega

/-- What a single digit stands for is printed as that digit. -/
theorem toDigits_digit {c : Char} (h : '0' ≤ c ∧ c ≤ '9') :
    Nat.toDigits 10 (c.toNat - '0'.toNat) = [c] := by
  rw [Nat.toDigits_of_lt_base (digit_sub_lt h), digitChar_sub h]

/-- Digits without a zero in front are the ones that their number is printed with. -/
theorem toDigits_decimal {c : Char} {digits : List Char} (hc : c ≠ '0')
    (h : ∀ d ∈ c :: digits, '0' ≤ d ∧ d ≤ '9') :
    Nat.toDigits 10 (decimal (c :: digits)) = c :: digits := by
  -- the last digit is split off, since that is how numbers are printed
  induction digits using List.reverseRecOn with
  | nil => rw [decimal_singleton, toDigits_digit (h c List.mem_cons_self)]
  | append_singleton digits d ih =>
    rw [← List.cons_append] at h ⊢
    rcases List.forall_mem_append.1 h with ⟨hfront, hlast⟩
    have hd := hlast d (List.mem_singleton_self d)
    have hpos := decimal_pos (hfront c List.mem_cons_self) hc digits
    rw [decimal_concat, ← Nat.toDigits_append_toDigits (by decide) hpos (digit_sub_lt hd),
      ih hfront, toDigits_digit hd]

/-! ## Indices -/

theorem Numeral.digits {digits : List Char} {n : ℕ} (h : Numeral digits n) : Digits digits :=
  ⟨h.ne_nil, h.digit⟩

/-- A number below the top bit is printed as it is. -/
theorem toChars_of_normal {i : Index} (h : i.value.toNat < 2 ^ 31) :
    i.toChars = Nat.toDigits 10 i.value.toNat := by
  have hnormal : i.isHardened = false := isHardened_eq_false_iff.2 h
  unfold toChars
  rw [hnormal, if_neg Bool.false_ne_true, List.append_nil, toNat_value_of_normal hnormal]

/-- A number with the top bit set is printed without it, and with the mark behind. -/
theorem toChars_of_hardened {i : Index} {n : ℕ} (h : n < 2 ^ 31)
    (hi : i.value.toNat = n + 2 ^ 31) : i.toChars = Nat.toDigits 10 n ++ ['\x27'] := by
  have hhardened : i.isHardened = true := isHardened_iff.2 (by omega)
  have hnumber : i.number.toNat = n := by
    have hvalue := toNat_value_of_hardened hhardened
    omega
  unfold toChars
  rw [hhardened, if_pos rfl, hnumber]
  rfl

end KeyTree.Index
