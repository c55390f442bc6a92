import KeyTree.Proofs.Index.Normal
import KeyTree.Proofs.Path.Text

/-!
# The normal form of a path's text

A path has many texts, which differ in their marks and in zeros in front of their numbers. They are
brought to one form by a single pass over the characters, without reading any number; reading a text
and printing the path comes to the same.

* `render_eq_normalize`: the text of the path that was read is the normal form of what was read.
* `normalize_eq_iff`: what is in normal form already.
* `render_parse_normalizes`: both, with what follows for reading again and for equal paths.
-/

namespace KeyTree.Path

/-! ## The pass over a text -/

/-- The character that stands for this one: all marks become the printed one. -/
def plainChar (c : Char) : Char := if c = 'h' ∨ c = 'H' then '\x27' else c

/-- The text starts with a decimal digit. -/
def startsWithDigit (text : List Char) : Bool := text.head?.any Char.isDigit

/-- The text with plain marks and without needless zeros. A zero is needless at the start of a
component, or behind zeros that are, as long as another digit follows. -/
def normalChars (atStart : Bool) : List Char → List Char
  | [] => []
  | c :: text =>
    if atStart ∧ c = '0' ∧ startsWithDigit text then normalChars true text
    else plainChar c :: normalChars (c = '/') text

/-- The normal form of a text. -/
def normalize (text : String) : String := String.ofList (normalChars false text.toList)

theorem startsWithDigit_cons (c : Char) (text : List Char) :
    startsWithDigit (c :: text) = true ↔ '0' ≤ c ∧ c ≤ '9' := by
  rw [← Index.isDigit_iff]
  rfl

/-- A needless zero is left out, and what follows it is at the start still. -/
theorem normalChars_zero {text : List Char} (h : startsWithDigit text = true) :
    normalChars true ('0' :: text) = normalChars true text := by
  rw [normalChars]
  exact if_pos ⟨rfl, rfl, h⟩

/-- Any other character stays, as a plain one; behind a slash a component starts. -/
theorem normalChars_keep {atStart : Bool} {c : Char} {text : List Char}
    (h : ¬(atStart = true ∧ c = '0' ∧ startsWithDigit text = true)) :
    normalChars atStart (c :: text) = plainChar c :: normalChars (c = '/') text := by
  rw [normalChars]
  exact if_neg h

/-- Away from the start of a component every character stays. -/
theorem normalChars_false_cons (c : Char) (text : List Char) :
    normalChars false (c :: text) = plainChar c :: normalChars (c = '/') text :=
  normalChars_keep (by simp)

/-- A component starts behind a slash. -/
theorem normalChars_slash (text : List Char) :
    normalChars false ('/' :: text) = '/' :: normalChars true text :=
  normalChars_false_cons '/' text

/-! ## The normal form of an index -/

/-- A digit stands for itself, and no component starts behind it. -/
theorem plainChar_digit {c : Char} (h : '0' ≤ c ∧ c ≤ '9') : plainChar c = c ∧ c ≠ '/' := by
  have hmark := Index.isMark_eq_false h
  rw [Bool.eq_false_iff, ne_eq, Index.isMark_iff] at hmark
  refine ⟨if_neg fun hc => hmark (.inr hc), ?_⟩
  rintro rfl
  exact absurd h (by decide)

/-- All marks become the printed one, and no component starts behind them. -/
theorem plainChar_mark {c : Char} (h : c = '\x27' ∨ c = 'h' ∨ c = 'H') :
    plainChar c = '\x27' ∧ c ≠ '/' := by
  rcases h with rfl | rfl | rfl
  · decide
  · decide
  · decide

/-- A kept digit is copied. -/
theorem normalChars_keep_digit {atStart : Bool} {c : Char} {text : List Char}
    (hc : '0' ≤ c ∧ c ≤ '9')
    (h : ¬(atStart = true ∧ c = '0' ∧ startsWithDigit text = true)) :
    normalChars atStart (c :: text) = c :: normalChars false text := by
  rcases plainChar_digit hc with ⟨hplain, hslash⟩
  rw [normalChars_keep h, hplain, decide_eq_false hslash]

/-- Behind its first digit that stays, a number is not changed. -/
theorem normalChars_false_digits {digits : List Char} (h : ∀ c ∈ digits, '0' ≤ c ∧ c ≤ '9')
    (text : List Char) : normalChars false (digits ++ text) = digits ++ normalChars false text := by
  induction digits with
  | nil => rfl
  | cons c digits ih =>
    rcases List.forall_mem_cons.1 h with ⟨hc, hdigits⟩
    rw [List.cons_append, normalChars_keep_digit hc (by simp), ih hdigits, List.cons_append]

/-- Digits at the start of a component become the ones that their number is printed with. -/
theorem normalChars_digits {digits : List Char} (h : Index.Digits digits) {text : List Char}
    (htext : startsWithDigit text = false) :
    normalChars true (digits ++ text) =
      Nat.toDigits 10 (Index.decimal digits) ++ normalChars false text := by
  induction digits with
  | nil => exact absurd rfl h.ne_nil
  | cons c digits ih =>
    rcases List.forall_mem_cons.1 h.digit with ⟨hc, hdigits⟩
    by_cases hzero : c = '0'
    · subst hzero
      rcases digits with _ | ⟨d, digits⟩
      · -- the only digit is kept, also if it is a zero
        rw [List.cons_append, List.nil_append, normalChars_keep_digit hc (by simp [htext])]
        rfl
      · have hnext : startsWithDigit (d :: digits ++ text) = true :=
          (startsWithDigit_cons d _).2 (hdigits d List.mem_cons_self)
        rw [List.cons_append, normalChars_zero hnext, ih ⟨List.cons_ne_nil d digits, hdigits⟩,
          Index.decimal_zero_cons]
    · rw [List.cons_append, normalChars_keep_digit hc (by simp [hzero]),
        normalChars_false_digits hdigits, Index.toDigits_decimal hzero h.digit, List.cons_append]

/-- A text of an index becomes the printed one. -/
theorem normalChars_writes {first : List Char} {i : Index} (h : Index.Writes first i)
    {text : List Char} (htext : startsWithDigit text = false) :
    normalChars true (first ++ text) = i.toChars ++ normalChars false text := by
  cases h with
  | normal h =>
    rw [normalChars_digits h.digits htext, h.decimal_eq, Index.toChars_of_normal h.lt]
  | @hardened digits mark n i h hmark hi =>
    rcases plainChar_mark hmark with ⟨hplain, hslash⟩
    have hbehind : startsWithDigit (mark :: text) = false := by
      rw [Bool.eq_false_iff, ne_eq, startsWithDigit_cons]
      intro hdigit
      rw [← Index.isMark_iff, Index.isMark_eq_false hdigit] at hmark
      exact absurd hmark (by simp)
    rw [List.append_assoc, List.singleton_append, normalChars_digits h.digits hbehind,
      normalChars_false_cons, hplain, decide_eq_false hslash, h.decimal_eq,
      Index.toChars_of_hardened h.lt hi, List.append_assoc, List.singleton_append]

/-- What is joined starts with a slash, or is empty. -/
theorem startsWithDigit_joined (texts : List (List Char)) :
    startsWithDigit (joined texts) = false := by
  cases texts with
  | nil => rfl
  | cons text texts => rfl

/-- The pass over joined texts is the pass over each: every text becomes that of the index it
writes. -/
theorem normalChars_joined {texts : List (List Char)} {is : List Index}
    (h : List.Forall₂ Index.Writes texts is) :
    normalChars false (joined texts) = joined (is.map Index.toChars) := by
  induction h with
  | nil => rfl
  | cons hfirst hothers ih =>
    rw [joined_cons, normalChars_slash, normalChars_writes hfirst (startsWithDigit_joined _), ih,
      List.map_cons, joined_cons]

/-- The text of the path that was read is the normal form of what was read. -/
theorem render_eq_normalize {text : String} {p : Path} (h : parse text = .ok p) :
    p.render = normalize text := by
  rcases writes_of_parse h with ⟨texts, htext, htexts⟩
  unfold render toChars normalize
  rw [htext, normalChars_false_cons, ← List.flatMap_map]
  exact congrArg (fun rest => String.ofList ('m' :: rest)) (normalChars_joined htexts).symm

/-! ## What is in normal form -/

/-- The first of several digits is a zero. -/
def LeadingZero (text : List Char) : Prop :=
  ∃ c rest, text = '0' :: c :: rest ∧ '0' ≤ c ∧ c ≤ '9'

/-- The printed mark is the only one, and no component starts with a needless zero. -/
structure NormalForm (text : List Char) : Prop where
  marks : 'h' ∉ text ∧ 'H' ∉ text
  zeros : ∀ front rest, text = front ++ '/' :: rest → ¬LeadingZero rest

/-- A needless zero is in front of another digit. -/
theorem leadingZero_cons {c : Char} {text : List Char} :
    LeadingZero (c :: text) ↔ c = '0' ∧ startsWithDigit text = true := by
  unfold LeadingZero
  rcases text with _ | ⟨d, text⟩
  · simp [startsWithDigit]
  · rw [startsWithDigit_cons]
    constructor
    · rintro ⟨e, rest, h, hdigit⟩
      simp only [List.cons.injEq] at h
      rcases h with ⟨rfl, rfl, rfl⟩
      exact ⟨rfl, hdigit⟩
    · rintro ⟨rfl, hdigit⟩
      exact ⟨d, text, rfl, hdigit⟩

theorem normalForm_nil : NormalForm [] where
  marks := by simp
  zeros := by simp

/-- A text in normal form starts with a plain character, with no needless zero behind it if it is a
slash, and goes on in normal form. -/
theorem normalForm_cons {c : Char} {text : List Char} :
    NormalForm (c :: text) ↔
      plainChar c = c ∧ NormalForm text ∧ (c = '/' → ¬LeadingZero text) := by
  have hplain : plainChar c = c ↔ c ≠ 'h' ∧ c ≠ 'H' := by
    unfold plainChar
    split
    · rename_i h
      rcases h with rfl | rfl
      · decide
      · decide
    · rename_i h
      simpa using h
  rw [hplain]
  constructor
  · intro h
    rcases h with ⟨⟨hh, hH⟩, hzeros⟩
    rw [List.mem_cons, not_or] at hh hH
    refine ⟨⟨Ne.symm hh.1, Ne.symm hH.1⟩, ⟨⟨hh.2, hH.2⟩, ?_⟩, ?_⟩
    · rintro front rest rfl
      exact hzeros (c :: front) rest rfl
    · rintro rfl
      exact hzeros [] text rfl
  · rintro ⟨⟨hh, hH⟩, ⟨⟨hh', hH'⟩, hzeros⟩, hslash⟩
    refine ⟨by simp [hh', hH', hh.symm, hH.symm], ?_⟩
    intro front rest h
    -- the slash is the first character, or it stands in the text behind it
    rcases front with _ | ⟨d, front⟩
    · rw [List.nil_append, List.cons.injEq] at h
      rcases h with ⟨rfl, rfl⟩
      exact hslash rfl
    · rw [List.cons_append, List.cons.injEq] at h
      exact hzeros front rest h.2

/-- The pass makes no text longer. -/
theorem length_normalChars_le (atStart : Bool) (text : List Char) :
    (normalChars atStart text).length ≤ text.length := by
  induction text generalizing atStart with
  | nil => exact le_rfl
  | cons c text ih =>
    rw [normalChars, List.length_cons]
    split
    · have hle := ih true
      omega
    · have hle := ih (decide (c = '/'))
      rw [List.length_cons]
      omega

/-- The pass leaves a text alone when there is no mark to replace and no zero to drop. -/
theorem normalChars_eq_iff (atStart : Bool) (text : List Char) :
    normalChars atStart text = text ↔
      NormalForm text ∧ (atStart = true → ¬LeadingZero text) := by
  induction text generalizing atStart with
  | nil =>
    refine iff_of_true rfl ⟨normalForm_nil, ?_⟩
    rintro - ⟨c, rest, h, -⟩
    exact absurd h (by simp)
  | cons c text ih =>
    by_cases hdrop : atStart = true ∧ c = '0' ∧ startsWithDigit text = true
    · rcases hdrop with ⟨rfl, rfl, hdigit⟩
      refine iff_of_false ?_ fun h => h.2 rfl (leadingZero_cons.2 ⟨rfl, hdigit⟩)
      -- a dropped zero makes the text shorter
      intro h
      have hle := length_normalChars_le true text
      rw [normalChars_zero hdigit] at h
      rw [h, List.length_cons] at hle
      omega
    · have hstart : atStart = true → ¬LeadingZero (c :: text) := by
        rw [leadingZero_cons]
        exact fun h h' => hdrop ⟨h, h'⟩
      rw [normalChars_keep hdrop, List.cons.injEq, ih, normalForm_cons, decide_eq_true_iff,
        and_iff_left hstart]

/-- The texts that are in normal form already. -/
theorem normalize_eq_iff {text : String} : normalize text = text ↔ NormalForm text.toList := by
  unfold normalize
  rw [← String.toList_inj, String.toList_ofList, normalChars_eq_iff]
  simp

/-! ## Reading and printing -/

/-- Reading a text and printing the path brings the text to its normal form. So a text comes back
when it is in normal form already, doing it twice is doing it once, and two texts are texts of one
path when they have one normal form. -/
theorem render_parse_normalizes :
    (∀ text p, parse text = .ok p →
      p.render = normalize text ∧ (p.render = text ↔ NormalForm text.toList) ∧
        ∃ q, parse p.render = .ok q ∧ q.render = p.render) ∧
      ∀ text text' p q, parse text = .ok p → parse text' = .ok q →
        (p = q ↔ normalize text = normalize text') := by
  constructor
  · intro text p h
    refine ⟨render_eq_normalize h, ?_, p, parse_render p, rfl⟩
    rw [render_eq_normalize h, normalize_eq_iff]
  · intro text text' p q hp hq
    rw [← render_eq_normalize hp, ← render_eq_normalize hq]
    constructor
    · rintro rfl
      rfl
    · intro h
      have hread := parse_render p
      rw [h, parse_render, Except.ok.injEq] at hread
      exact hread.symm

/-- Three marks, and zeros that are dropped or kept. -/
theorem render_parse_normalizes_zeros :
    (⟨[⟨0x8000002C⟩, ⟨7⟩, ⟨0x80000000⟩]⟩ : Path).render = normalize "m/0044h/007/00H" ∧
      normalize "m/0044h/007/00H" = normalize "m/44\x27/7/0h" := by
  have h : parse "m/0044h/007/00H" = .ok ⟨[⟨0x8000002C⟩, ⟨7⟩, ⟨0x80000000⟩]⟩ := by decide
  have h' : parse "m/44\x27/7/0h" = .ok ⟨[⟨0x8000002C⟩, ⟨7⟩, ⟨0x80000000⟩]⟩ := by decide
  rcases render_parse_normalizes with ⟨hread, hequal⟩
  exact ⟨(hread _ _ h).1, (hequal _ _ _ _ h h').1 rfl⟩

example : normalize "m/0044h/007/00H" = "m/44\x27/7/0\x27" := by decide

end KeyTree.Path
