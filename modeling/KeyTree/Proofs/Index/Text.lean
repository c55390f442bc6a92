import KeyTree.Index
import Mathlib

/-!
# The text of an index

An index is written as a run of decimal digits, with a mark behind it if it is hardened. `Writes` is
this grammar with all the texts that it leaves open: leading zeros, and three marks to choose from.
It says nothing about how a text is taken apart.

* `ofChars_eq_ok_iff`: the reader takes the texts of the grammar, with their meaning, and no others.
* `writes_toChars`: the printer writes a text of the grammar, so that every index is read back.
-/

namespace KeyTree

namespace Index

/-! ## Words -/

theorem toNat_hardenedBit : hardenedBit.toNat = 2 ^ 31 := rfl

theorem lt_hardenedBit_iff {n : UInt32} : n < hardenedBit ↔ n.toNat < 2 ^ 31 :=
  UInt32.lt_iff_toNat_lt

theorem ext_toNat {i j : Index} (h : i.value.toNat = j.value.toNat) : i = j := by
  rcases i with ⟨i⟩
  rcases j with ⟨j⟩
  exact congrArg Index.mk (UInt32.toNat_inj.1 h)

/-- A hardened index has the top bit, so that its word is not below 2^31. -/
theorem isHardened_iff {i : Index} : i.isHardened = true ↔ 2 ^ 31 ≤ i.value.toNat := by
  unfold isHardened
  rw [decide_eq_true_iff, UInt32.le_iff_toNat_le, toNat_hardenedBit]

theorem isHardened_eq_false_iff {i : Index} :
    i.isHardened = false ↔ i.value.toNat < 2 ^ 31 := by
  rw [Bool.eq_false_iff, ne_eq, isHardened_iff, not_le]

/-- The number of an index is its word without the top bit. -/
theorem toNat_number (i : Index) : i.number.toNat = i.value.toNat % 2 ^ 31 := by
  unfold number
  rw [UInt32.toNat_mod, toNat_hardenedBit]

theorem toNat_number_lt (i : Index) : i.number.toNat < 2 ^ 31 := by
  rw [toNat_number]
  exact Nat.mod_lt _ (by decide)

/-- Without the mark the word is the number. -/
theorem toNat_value_of_normal {i : Index} (h : i.isHardened = false) :
    i.value.toNat = i.number.toNat := by
  rw [isHardened_eq_false_iff] at h
  rw [toNat_number, Nat.mod_eq_of_lt h]

/-- With the mark the word is the number and the top bit. -/
theorem toNat_value_of_hardened {i : Index} (h : i.isHardened = true) :
    i.value.toNat = i.number.toNat + 2 ^ 31 := by
  have hlt : i.value.toNat < 2 ^ 32 := i.value.toNat_lt
  have hnumber := i.toNat_number
  rw [isHardened_iff] at h
  omega

/-- A number is a normal index as long as it does not reach the top bit. -/
theorem normal_eq_ok_iff {n : UInt32} {i : Index} :
    normal n = .ok i ↔ n.toNat < 2 ^ 31 ∧ i.value.toNat = n.toNat := by
  unfold normal
  simp only [lt_hardenedBit_iff]
  by_cases h : n.toNat < 2 ^ 31
  · rw [if_pos h, Except.ok.injEq]
    constructor
    · rintro rfl
      exact ⟨h, rfl⟩
    · rintro ⟨-, hi⟩
      exact ext_toNat hi.symm
  · rw [if_neg h]
    exact iff_of_false (by simp) fun hn => h hn.1

/-- Below the top bit nothing wraps around when that bit is set. -/
theorem toNat_add_hardenedBit {n : UInt32} (h : n.toNat < 2 ^ 31) :
    (n + hardenedBit).toNat = n.toNat + 2 ^ 31 := by
  rw [UInt32.toNat_add, toNat_hardenedBit]
  omega

/-- A hardened index is a number that does not reach the top bit, with that bit set. -/
theorem hardened_eq_ok_iff {n : UInt32} {i : Index} :
    hardened n = .ok i ↔ n.toNat < 2 ^ 31 ∧ i.value.toNat = n.toNat + 2 ^ 31 := by
  unfold hardened
  simp only [lt_hardenedBit_iff]
  by_cases h : n.toNat < 2 ^ 31
  · rw [if_pos h, Except.ok.injEq]
    constructor
    · rintro rfl
      exact ⟨h, toNat_add_hardenedBit h⟩
    · rintro ⟨-, hi⟩
      exact ext_toNat ((toNat_add_hardenedBit h).trans hi.symm)
  · rw [if_neg h]
    exact iff_of_false (by simp) fun hn => h hn.1

/-! ## Decimal digits -/

/-- The number that decimal digits write: each digit counts by its place. -/
def decimal : List Char → ℕ
  | [] => 0
  | c :: digits => (c.toNat - '0'.toNat) * 10 ^ digits.length + decimal digits

/-- The fold over the digits counts each of them by its place. -/
theorem ofDigitChars_eq_decimal (digits : List Char) :
    Nat.ofDigitChars 10 digits 0 = decimal digits := by
  induction digits with
  | nil => rfl
  | cons c digits ih =>
    rw [Nat.ofDigitChars_cons, Nat.ofDigitChars_eq_ofDigitChars_zero, ih, decimal]
    ring

/-- The digits are those of ASCII alone. -/
theorem isDigit_iff {c : Char} : c.isDigit = true ↔ '0' ≤ c ∧ c ≤ '9' := by
  unfold Char.isDigit
  rw [Bool.and_eq_true, decide_eq_true_iff, decide_eq_true_iff]
  rfl

/-- A run of decimal digits, at least one, that writes a number below `2^31`. -/
structure Numeral (digits : List Char) (n : ℕ) : Prop where
  ne_nil : digits ≠ []
  digit : ∀ c ∈ digits, '0' ≤ c ∧ c ≤ '9'
  decimal_eq : decimal digits = n
  lt : n < 2 ^ 31

/-- The number is read from every run of digits whose value is a word. -/
theorem readNumber?_eq_some_iff {digits : List Char} {n : UInt32} :
    readNumber? digits = some n ↔
      digits ≠ [] ∧ (∀ c ∈ digits, '0' ≤ c ∧ c ≤ '9') ∧ decimal digits = n.toNat := by
  have hall : digits.all Char.isDigit = true ↔ ∀ c ∈ digits, '0' ≤ c ∧ c ≤ '9' := by
    rw [List.all_eq_true]
    simp only [isDigit_iff]
  unfold readNumber?
  dsimp only
  rw [ofDigitChars_eq_decimal, ← hall, ← and_assoc]
  by_cases hdigits : digits ≠ [] ∧ digits.all Char.isDigit = true
  · rw [if_pos hdigits, and_iff_right hdigits]
    by_cases hlt : decimal digits < UInt32.size
    · rw [if_pos hlt, Option.some.injEq, ← UInt32.toNat_inj, UInt32.toNat_ofNat_of_lt' hlt]
    · rw [if_neg hlt]
      refine iff_of_false (by simp) ?_
      intro heq
      exact hlt (heq ▸ n.toNat_lt_size)
  · rw [if_neg hdigits]
    exact iff_of_false (by simp) fun h => hdigits h.1

/-- A numeral is a run of digits that is read as a word below the top bit. -/
theorem numeral_iff {digits : List Char} {n : UInt32} :
    Numeral digits n.toNat ↔ readNumber? digits = some n ∧ n.toNat < 2 ^ 31 := by
  rw [readNumber?_eq_some_iff]
  constructor
  · intro h
    exact ⟨⟨h.ne_nil, h.digit, h.decimal_eq⟩, h.lt⟩
  · rintro ⟨⟨hne, hdigit, hdecimal⟩, hlt⟩
    exact ⟨hne, hdigit, hdecimal, hlt⟩

/-- What a numeral writes is a word. -/
theorem Numeral.exists_toNat {digits : List Char} {n : ℕ} (h : Numeral digits n) :
    ∃ w : UInt32, w.toNat = n :=
  ⟨UInt32.ofNat n, UInt32.toNat_ofNat_of_lt' (h.lt.trans (by decide))⟩

/-- The digits that a number is printed with. -/
theorem numeral_toDigits {n : ℕ} (h : n < 2 ^ 31) : Numeral (Nat.toDigits 10 n) n where
  ne_nil := Nat.toDigits_ne_nil
  digit := by
    intro c hc
    exact isDigit_iff.1 (Nat.isDigit_of_mem_toDigits (by omega) (by omega) hc)
  decimal_eq := by rw [← ofDigitChars_eq_decimal, Nat.ofDigitChars_ten_toDigits]
  lt := h

/-! ## Marks -/

theorem isMark_iff {c : Char} : isMark c = true ↔ c = '\x27' ∨ c = 'h' ∨ c = 'H' := by
  unfold isMark hardenedMark
  rw [Bool.or_eq_true, Bool.or_eq_true, decide_eq_true_iff, decide_eq_true_iff,
    decide_eq_true_iff, or_assoc]

theorem isMark_eq_false {c : Char} (h : '0' ≤ c ∧ c ≤ '9') : isMark c = false := by
  rw [Bool.eq_false_iff, ne_eq, isMark_iff]
  rintro (rfl | rfl | rfl)
  · exact absurd h (by decide)
  · exact absurd h (by decide)
  · exact absurd h (by decide)

/-- A mark at the end is taken off. -/
theorem splitMark_concat (digits : List Char) {mark : Char} (h : isMark mark = true) :
    splitMark (digits ++ [mark]) = (digits, true) := by
  unfold splitMark
  rw [List.getLast?_concat]
  dsimp only
  rw [if_pos h, List.dropLast_concat]

/-- A text that does not end in a mark stays whole. -/
theorem splitMark_of_not_mark {text : List Char}
    (h : ∀ digits c, text = digits ++ [c] → isMark c = false) : splitMark text = (text, false) := by
  unfold splitMark
  rcases List.eq_nil_or_concat' text with rfl | ⟨digits, c, rfl⟩
  · rfl
  · rw [List.getLast?_concat]
    dsimp only
    rw [h digits c rfl]
    rfl

/-- A text ends with a mark, or it does not. -/
theorem exists_mark_or_forall_not_mark (text : List Char) :
    (∃ digits mark, text = digits ++ [mark] ∧ isMark mark = true) ∨
      ∀ digits c, text = digits ++ [c] → isMark c = false := by
  by_cases h : ∃ digits mark, text = digits ++ [mark] ∧ isMark mark = true
  · exact .inl h
  · right
    intro digits c heq
    rw [Bool.eq_false_iff]
    intro hmark
    exact h ⟨digits, c, heq, hmark⟩

/-- A numeral ends in a digit, which is no mark. -/
theorem Numeral.splitMark {digits : List Char} {n : ℕ} (h : Numeral digits n) :
    splitMark digits = (digits, false) := by
  apply splitMark_of_not_mark
  rintro front c rfl
  exact isMark_eq_false (h.digit c (by simp))

/-! ## The grammar -/

/-- The text writes the index: a number for a normal index, a number and a mark for a hardened
one. -/
inductive Writes : List Char → Index → Prop
  | normal {digits : List Char} {i : Index} (h : Numeral digits i.value.toNat) : Writes digits i
  | hardened {digits : List Char} {mark : Char} {n : ℕ} {i : Index} (h : Numeral digits n)
      (hmark : mark = '\x27' ∨ mark = 'h' ∨ mark = 'H') (hi : i.value.toNat = n + 2 ^ 31) :
      Writes (digits ++ [mark]) i

/-! ## Reading -/

/-- Once a text is split, the number is read and made an index. -/
theorem ofChars_eq_ok_iff_of_splitMark {text digits : List Char} {marked : Bool} {i : Index}
    (h : splitMark text = (digits, marked)) :
    ofChars text = .ok i ↔
      ∃ n, readNumber? digits = some n ∧ (if marked then hardened n else normal n) = .ok i := by
  unfold ofChars
  rw [h]
  dsimp only
  rcases readNumber? digits with _ | n
  · simp
  · simp

/-- A text with a mark is read as the hardened index of the numeral before it. -/
theorem ofChars_concat_eq_ok_iff {digits : List Char} {mark : Char} {i : Index}
    (hmark : isMark mark = true) :
    ofChars (digits ++ [mark]) = .ok i ↔ ∃ n, Numeral digits n ∧ i.value.toNat = n + 2 ^ 31 := by
  rw [ofChars_eq_ok_iff_of_splitMark (splitMark_concat digits hmark)]
  simp only [if_true, hardened_eq_ok_iff]
  constructor
  · rintro ⟨w, hread, hlt, hi⟩
    exact ⟨w.toNat, numeral_iff.2 ⟨hread, hlt⟩, hi⟩
  · rintro ⟨n, hn, hi⟩
    rcases hn.exists_toNat with ⟨w, rfl⟩
    rcases numeral_iff.1 hn with ⟨hread, hlt⟩
    exact ⟨w, hread, hlt, hi⟩

/-- A text without a mark is read as the normal index of the numeral that it is. -/
theorem ofChars_eq_ok_iff_numeral {text : List Char} {i : Index}
    (h : splitMark text = (text, false)) :
    ofChars text = .ok i ↔ Numeral text i.value.toNat := by
  rw [ofChars_eq_ok_iff_of_splitMark h, numeral_iff]
  simp only [Bool.false_eq_true, if_false, normal_eq_ok_iff]
  constructor
  · rintro ⟨w, hread, hlt, hi⟩
    rw [UInt32.toNat_inj] at hi
    subst hi
    exact ⟨hread, hlt⟩
  · rintro ⟨hread, hlt⟩
    exact ⟨i.value, hread, hlt, rfl⟩

/-- A text is read as the index that it writes. -/
theorem ofChars_of_writes {text : List Char} {i : Index} (h : Writes text i) :
    ofChars text = .ok i := by
  cases h with
  | normal h => exact (ofChars_eq_ok_iff_numeral h.splitMark).2 h
  | hardened h hmark hi => exact (ofChars_concat_eq_ok_iff (isMark_iff.2 hmark)).2 ⟨_, h, hi⟩

/-- A text that is read writes what it is read as. -/
theorem writes_of_ofChars {text : List Char} {i : Index} (h : ofChars text = .ok i) :
    Writes text i := by
  rcases exists_mark_or_forall_not_mark text with ⟨digits, mark, rfl, hmark⟩ | hnone
  · rcases (ofChars_concat_eq_ok_iff hmark).1 h with ⟨n, hn, hi⟩
    exact .hardened hn (isMark_iff.1 hmark) hi
  · exact .normal ((ofChars_eq_ok_iff_numeral (splitMark_of_not_mark hnone)).1 h)

/-- The texts that are read are those of the grammar. -/
theorem ofChars_eq_ok_iff {text : List Char} {i : Index} : ofChars text = .ok i ↔ Writes text i :=
  ⟨writes_of_ofChars, ofChars_of_writes⟩

/-! ## Printing -/

/-- The printer writes the index. -/
theorem writes_toChars (i : Index) : Writes i.toChars i := by
  have hnumeral : Numeral (Nat.toDigits 10 i.number.toNat) i.number.toNat :=
    numeral_toDigits i.toNat_number_lt
  unfold toChars
  cases h : i.isHardened with
  | true =>
    rw [if_pos rfl]
    exact .hardened hnumeral (.inl rfl) (toNat_value_of_hardened h)
  | false =>
    rw [if_neg Bool.false_ne_true, List.append_nil]
    refine .normal ?_
    rw [toNat_value_of_normal h]
    exact hnumeral

/-- No text of an index holds a slash. -/
theorem Writes.slash_notMem {text : List Char} {i : Index} (h : Writes text i) : '/' ∉ text := by
  have hdigits {digits : List Char} {n : ℕ} (hn : Numeral digits n) : '/' ∉ digits := by
    intro hmem
    exact absurd (hn.digit _ hmem) (by decide)
  cases h with
  | normal h => exact hdigits h
  | @hardened digits mark n i h hmark hi =>
    rw [List.mem_append, List.mem_singleton, not_or]
    refine ⟨hdigits h, ?_⟩
    rintro rfl
    exact absurd hmark (by decide)

end Index

end KeyTree
