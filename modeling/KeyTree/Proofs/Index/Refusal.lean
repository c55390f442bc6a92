import KeyTree.Proofs.Index.Text

/-!
# Texts that write no index

There are two ways not to be an index: what stands before the mark is no number of 32 bits in
decimal digits, or it is one that is too large for an index of its kind. `Faulty` says which fault a
text has and by which error it is reported, without a reader.

* `ofChars_eq_error_iff`: the reader reports the fault of the text, and nothing else.
-/

namespace KeyTree

/-- The error is about a text, or about a number that a text writes. -/
inductive Error.OfText : Error → Prop
  | path (detail : String) : OfText (.invalidPath detail)
  | index (detail : String) : OfText (.invalidIndex detail)

namespace Index

/-! ## The parts of a text -/

/-- The text without the mark at its end, and whether there is one. -/
inductive Unmarked : List Char → List Char → Bool → Prop
  | marked {digits : List Char} {mark : Char} (h : mark = '\x27' ∨ mark = 'h' ∨ mark = 'H') :
      Unmarked (digits ++ [mark]) digits true
  | plain {text : List Char}
      (h : ∀ front c, text = front ++ [c] → ¬(c = '\x27' ∨ c = 'h' ∨ c = 'H')) :
      Unmarked text text false

/-- The reader takes the mark off that the text has. -/
theorem Unmarked.splitMark_eq {text digits : List Char} {marked : Bool}
    (h : Unmarked text digits marked) : splitMark text = (digits, marked) := by
  cases h with
  | marked h => exact splitMark_concat digits (isMark_iff.2 h)
  | plain h =>
    apply splitMark_of_not_mark
    intro front c heq
    rw [Bool.eq_false_iff, ne_eq, isMark_iff]
    exact h front c heq

/-- Every text can be taken apart. -/
theorem exists_unmarked (text : List Char) : ∃ digits marked, Unmarked text digits marked := by
  rcases exists_mark_or_forall_not_mark text with ⟨digits, mark, rfl, hmark⟩ | hnone
  · exact ⟨digits, true, .marked (isMark_iff.1 hmark)⟩
  · refine ⟨text, false, .plain ?_⟩
    intro front c heq
    rw [← isMark_iff, hnone front c heq]
    simp

/-- A run of decimal digits, at least one. -/
structure Digits (digits : List Char) : Prop where
  ne_nil : digits ≠ []
  digit : ∀ c ∈ digits, '0' ≤ c ∧ c ≤ '9'

/-! ## Faults -/

/-- The text writes no index, for a fault that is reported by this error. -/
inductive Faulty : List Char → Error → Prop
  /-- Before the mark there is nothing, or something that is not a digit, or a number that is too
  large for a word. -/
  | noWord {text digits : List Char} {marked : Bool} (h : Unmarked text digits marked)
      (hbad : digits = [] ∨ (∃ c ∈ digits, ¬('0' ≤ c ∧ c ≤ '9')) ∨ 2 ^ 32 ≤ decimal digits) :
      Faulty text
        (.invalidPath ("Invalid derivation path component: " ++ String.ofList text))
  /-- A word before a mark, but the top bit is taken. -/
  | hardened {text digits : List Char} (h : Unmarked text digits true) (hdigits : Digits digits)
      (hge : 2 ^ 31 ≤ decimal digits) (hlt : decimal digits < 2 ^ 32) :
      Faulty text
        (.invalidIndex ("hardened index " ++ Nat.repr (decimal digits) ++ " overflows 32 bits"))
  /-- A word without a mark, but it has the top bit. -/
  | normal {text digits : List Char} (h : Unmarked text digits false) (hdigits : Digits digits)
      (hge : 2 ^ 31 ≤ decimal digits) (hlt : decimal digits < 2 ^ 32) :
      Faulty text
        (.invalidIndex ("normal index " ++ Nat.repr (decimal digits) ++ " must be below 2^31"))

/-- The fault is one of the text, or of the number in it. -/
theorem Faulty.ofText {text : List Char} {e : Error} (h : Faulty text e) : e.OfText := by
  cases h with
  | noWord => exact .path _
  | hardened => exact .index _
  | normal => exact .index _

/-! ## The errors of the reader -/

/-- A word is read from the digits that write it. -/
theorem readNumber?_eq_some_iff_digits {digits : List Char} {n : UInt32} :
    readNumber? digits = some n ↔ Digits digits ∧ decimal digits = n.toNat := by
  rw [readNumber?_eq_some_iff, ← and_assoc]
  refine and_congr_left' ?_
  exact ⟨fun h => ⟨h.1, h.2⟩, fun h => ⟨h.ne_nil, h.digit⟩⟩

/-- No word is read from nothing, from anything that is not a digit, and from digits that write 2^32
or more. -/
theorem readNumber?_eq_none_iff {digits : List Char} :
    readNumber? digits = none ↔
      digits = [] ∨ (∃ c ∈ digits, ¬('0' ≤ c ∧ c ≤ '9')) ∨ 2 ^ 32 ≤ decimal digits := by
  constructor
  · intro h
    by_contra hgood
    push Not at hgood
    rcases hgood with ⟨hne, hdigit, hlt⟩
    have hread : readNumber? digits = some (UInt32.ofNat (decimal digits)) :=
      readNumber?_eq_some_iff.2 ⟨hne, hdigit, (UInt32.toNat_ofNat_of_lt' hlt).symm⟩
    rw [hread] at h
    exact absurd h (by simp)
  · intro h
    rw [Option.eq_none_iff_forall_ne_some]
    intro n hread
    rcases readNumber?_eq_some_iff.1 hread with ⟨hne, hdigit, hdecimal⟩
    have hlt : n.toNat < 2 ^ 32 := n.toNat_lt
    rcases h with hnil | ⟨c, hc, hbad⟩ | hge
    · exact hne hnil
    · exact hbad (hdigit c hc)
    · omega

/-- A number is refused for a normal index when it reaches the top bit, with it in the text. -/
theorem normal_eq_error_iff {n : UInt32} {e : Error} :
    normal n = .error e ↔ 2 ^ 31 ≤ n.toNat ∧
      e = .invalidIndex ("normal index " ++ Nat.repr n.toNat ++ " must be below 2^31") := by
  unfold normal
  simp only [lt_hardenedBit_iff]
  split
  · exact iff_of_false (by simp) (by omega)
  · rename_i h
    rw [Except.error.injEq, eq_comm, and_iff_right (not_lt.1 h)]

/-- A number is refused for a hardened index when it reaches the top bit, with it in the text. -/
theorem hardened_eq_error_iff {n : UInt32} {e : Error} :
    hardened n = .error e ↔ 2 ^ 31 ≤ n.toNat ∧
      e = .invalidIndex ("hardened index " ++ Nat.repr n.toNat ++ " overflows 32 bits") := by
  unfold hardened
  simp only [lt_hardenedBit_iff]
  split
  · exact iff_of_false (by simp) (by omega)
  · rename_i h
    rw [Except.error.injEq, eq_comm, and_iff_right (not_lt.1 h)]

/-- A text is refused when no number is read from it, or when its number is refused. -/
theorem ofChars_eq_error_iff_of_splitMark {text digits : List Char} {marked : Bool} {e : Error}
    (h : splitMark text = (digits, marked)) :
    ofChars text = .error e ↔
      (readNumber? digits = none ∧
        e = .invalidPath ("Invalid derivation path component: " ++ String.ofList text)) ∨
      ∃ n, readNumber? digits = some n ∧ (if marked then hardened n else normal n) = .error e := by
  unfold ofChars
  rw [h]
  dsimp only
  rcases readNumber? digits with _ | n
  · simp [eq_comm]
  · simp

/-- What the reader reports is a fault of the text. -/
theorem faulty_of_ofChars {text : List Char} {e : Error} (h : ofChars text = .error e) :
    Faulty text e := by
  rcases exists_unmarked text with ⟨digits, marked, hunmarked⟩
  rcases (ofChars_eq_error_iff_of_splitMark hunmarked.splitMark_eq).1 h with
    ⟨hnone, rfl⟩ | ⟨n, hread, hkind⟩
  · exact .noWord hunmarked (readNumber?_eq_none_iff.1 hnone)
  · rcases readNumber?_eq_some_iff_digits.1 hread with ⟨hdigits, hdecimal⟩
    have hlt : n.toNat < 2 ^ 32 := n.toNat_lt
    cases marked with
    | true =>
      rcases hardened_eq_error_iff.1 hkind with ⟨hge, rfl⟩
      rw [← hdecimal] at hge hlt ⊢
      exact .hardened hunmarked hdigits hge hlt
    | false =>
      rcases normal_eq_error_iff.1 hkind with ⟨hge, rfl⟩
      rw [← hdecimal] at hge hlt ⊢
      exact .normal hunmarked hdigits hge hlt

/-- Digits that write less than 2^32 are read as a word. -/
theorem Digits.exists_readNumber? {digits : List Char} (h : Digits digits)
    (hlt : decimal digits < 2 ^ 32) :
    ∃ n : UInt32, readNumber? digits = some n ∧ n.toNat = decimal digits := by
  have hn : (UInt32.ofNat (decimal digits)).toNat = decimal digits :=
    UInt32.toNat_ofNat_of_lt' hlt
  exact ⟨_, readNumber?_eq_some_iff_digits.2 ⟨h, hn.symm⟩, hn⟩

/-- A fault of the text is what the reader reports. -/
theorem ofChars_of_faulty {text : List Char} {e : Error} (h : Faulty text e) :
    ofChars text = .error e := by
  cases h with
  | noWord h hbad =>
    rw [ofChars_eq_error_iff_of_splitMark h.splitMark_eq]
    exact .inl ⟨readNumber?_eq_none_iff.2 hbad, rfl⟩
  | hardened h hdigits hge hlt =>
    rcases hdigits.exists_readNumber? hlt with ⟨n, hread, hn⟩
    rw [ofChars_eq_error_iff_of_splitMark h.splitMark_eq]
    rw [← hn] at hge ⊢
    exact .inr ⟨n, hread, hardened_eq_error_iff.2 ⟨hge, rfl⟩⟩
  | normal h hdigits hge hlt =>
    rcases hdigits.exists_readNumber? hlt with ⟨n, hread, hn⟩
    rw [ofChars_eq_error_iff_of_splitMark h.splitMark_eq]
    rw [← hn] at hge ⊢
    exact .inr ⟨n, hread, normal_eq_error_iff.2 ⟨hge, rfl⟩⟩

/-- The reader reports the fault of the text, and nothing else. -/
theorem ofChars_eq_error_iff {text : List Char} {e : Error} :
    ofChars text = .error e ↔ Faulty text e :=
  ⟨faulty_of_ofChars, ofChars_of_faulty⟩

end Index

end KeyTree
