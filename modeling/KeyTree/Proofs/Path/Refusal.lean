import KeyTree.Proofs.Index.Refusal
import KeyTree.Proofs.Path.Text

/-!
# Texts that write no path

A text that does not start like a path is refused as a whole. In any other one the components are
looked at from left to right, and the first that writes no index decides: its fault is reported, and
what stands behind it is not looked at.

* `ofComponents_eq_error_iff`: the first fault wins.
* `parse_eq_error_iff`: the reader reports the fault of the text, and nothing else.
* `parse_error_exact`: and it does so whatever stands behind the faulty component.
-/

namespace KeyTree.Path

/-! ## Faults -/

/-- The text does not start with an `m`, or something other than a slash comes next. -/
def BadStart (text : String) : Prop :=
  (∀ rest, text.toList ≠ 'm' :: rest) ∨ ∃ c rest, text.toList = 'm' :: c :: rest ∧ c ≠ '/'

/-- The text writes no path, for a fault that is reported by this error. -/
inductive Faulty : String → Error → Prop
  | start {text : String} (h : BadStart text) :
      Faulty text (.invalidPath ("Invalid derivation path: " ++ text))
  /-- Behind an `m` come texts without a slash, each behind a slash, of which this one is the first
  that writes no index. -/
  | component {text : String} {good others : List (List Char)} {bad : List Char} {e : Error}
      (htext : text.toList = 'm' :: joined (good ++ bad :: others))
      (hslash : ∀ t ∈ good ++ bad :: others, '/' ∉ t)
      (hgood : ∀ t ∈ good, ∃ i, Index.Writes t i) (hbad : Index.Faulty bad e) : Faulty text e

/-- The fault is one of the text, or of a number in it. -/
theorem Faulty.ofText {text : String} {e : Error} (h : Faulty text e) : e.OfText := by
  cases h with
  | start => exact .path _
  | component htext hslash hgood hbad => exact hbad.ofText

/-! ## The first fault -/

/-- The first fault wins. -/
theorem ofComponents_eq_error_iff {texts : List (List Char)} {e : Error} :
    ofComponents texts = .error e ↔
      ∃ good bad others, texts = good ++ bad :: others ∧
        (∀ t ∈ good, ∃ i, Index.Writes t i) ∧ Index.Faulty bad e := by
  induction texts with
  | nil =>
    refine iff_of_false (by simp [ofComponents]) ?_
    rintro ⟨good, bad, others, h, -⟩
    exact absurd h (by simp)
  | cons text texts ih =>
    rw [ofComponents_cons]
    simp only [← Index.ofChars_eq_ok_iff, ← Index.ofChars_eq_error_iff] at ih ⊢
    rcases hfirst : Index.ofChars text with e' | i
    · rw [error_bind, Except.error.injEq]
      constructor
      · rintro rfl
        exact ⟨[], text, texts, rfl, by simp, hfirst⟩
      · rintro ⟨good, bad, others, h, hgood, hbad⟩
        -- the first text is faulty, so no good one comes before the bad one
        rcases List.cons_eq_append_iff.1 h with ⟨rfl, hcons⟩ | ⟨good', rfl, -⟩
        · rw [List.cons.injEq] at hcons
          rw [hcons.1, hfirst] at hbad
          exact Except.error.inj hbad
        · rcases hgood text List.mem_cons_self with ⟨i, hi⟩
          rw [hfirst] at hi
          exact absurd hi (by simp)
    · rw [ok_bind, bind_pure_eq_error_iff, ih]
      constructor
      · rintro ⟨good, bad, others, rfl, hgood, hbad⟩
        exact ⟨text :: good, bad, others, rfl, List.forall_mem_cons.2 ⟨⟨i, hfirst⟩, hgood⟩, hbad⟩
      · rintro ⟨good, bad, others, h, hgood, hbad⟩
        rcases List.cons_eq_append_iff.1 h with ⟨rfl, hcons⟩ | ⟨good', rfl, hothers⟩
        · rw [List.cons.injEq] at hcons
          rw [hcons.1, hfirst] at hbad
          exact absurd hbad (by simp)
        · exact ⟨good', bad, others, hothers, (List.forall_mem_cons.1 hgood).2, hbad⟩

/-! ## Reading -/

/-- No component holds a slash. -/
theorem slash_notMem_components (text : List Char) :
    ∀ t ∈ (components text).1 :: (components text).2, '/' ∉ t := by
  induction text with
  | nil => simp [components]
  | cons c text ih =>
    by_cases hc : c = '/'
    · subst hc
      rw [components_slash]
      exact List.forall_mem_cons.2 ⟨by simp, ih⟩
    · rw [components_cons hc]
      rcases List.forall_mem_cons.1 ih with ⟨hfirst, hothers⟩
      refine List.forall_mem_cons.2 ⟨?_, hothers⟩
      rw [List.mem_cons, not_or]
      exact ⟨Ne.symm hc, hfirst⟩

/-- A text starts like a path, or it does not. -/
theorem start_cases (text : String) :
    text.toList = ['m'] ∨ (∃ rest, text.toList = 'm' :: '/' :: rest) ∨ BadStart text := by
  unfold BadStart
  rcases text.toList with _ | ⟨c, _ | ⟨d, rest⟩⟩
  · simp
  · by_cases hc : c = 'm'
    · simp [hc]
    · simp [hc]
  · by_cases hc : c = 'm'
    · by_cases hd : d = '/'
      · simp [hc, hd]
      · simp [hc, hd]
    · simp [hc]

/-- A text that does not start like a path is refused as a whole. -/
theorem parse_of_badStart {text : String} (h : BadStart text) :
    parse text = .error (.invalidPath ("Invalid derivation path: " ++ text)) := by
  rcases h with hm | ⟨c, rest, htext, hc⟩
  · exact parse_of_other (hm []) fun rest => hm ('/' :: rest)
  · apply parse_of_other
    · simp [htext]
    · simp [htext, hc]

/-- What the reader reports is a fault of the text. -/
theorem faulty_of_parse {text : String} {e : Error} (h : parse text = .error e) :
    Faulty text e := by
  rcases start_cases text with hmaster | ⟨rest, hrest⟩ | hstart
  · rw [parse_of_master hmaster] at h
    exact absurd h (by simp)
  · rw [parse_of_slash hrest] at h
    rcases hcomponents : ofComponents ((components rest).1 :: (components rest).2) with e' | is
    · rw [hcomponents, Except.map_error, Except.error.injEq] at h
      subst h
      rcases ofComponents_eq_error_iff.1 hcomponents with ⟨good, bad, others, hsplit, hgood, hbad⟩
      have hjoin : text.toList = 'm' :: joined (good ++ bad :: others) := by
        rw [hrest, ← hsplit, joined_cons, components_join]
      have hslash := slash_notMem_components rest
      rw [hsplit] at hslash
      exact .component hjoin hslash hgood hbad
    · rw [hcomponents, Except.map_ok] at h
      exact absurd h (by simp)
  · rw [parse_of_badStart hstart, Except.error.injEq] at h
    rw [← h]
    exact .start hstart

/-- A fault of the text is what the reader reports. -/
theorem parse_of_faulty {text : String} {e : Error} (h : Faulty text e) :
    parse text = .error e := by
  cases h with
  | start h => exact parse_of_badStart h
  | @component good others bad _ htext hslash hgood hbad =>
    have herror : ofComponents (good ++ bad :: others) = .error e :=
      ofComponents_eq_error_iff.2 ⟨good, bad, others, rfl, hgood, hbad⟩
    -- there is a component, namely the bad one
    rcases htexts : good ++ bad :: others with _ | ⟨first, rest⟩
    · exact absurd htexts (by simp)
    · rw [htexts] at htext hslash herror
      rw [parse_of_joined htext hslash, herror, Except.map_error]

/-- The reader reports the fault of the text, and nothing else. -/
theorem parse_eq_error_iff {text : String} {e : Error} : parse text = .error e ↔ Faulty text e :=
  ⟨faulty_of_parse, parse_of_faulty⟩

/-- A text that is no path is refused for what it is, or for a number in it. -/
theorem parse_error {text : String} {e : Error} (h : parse text = .error e) : e.OfText :=
  (faulty_of_parse h).ofText

/-! ## What stands behind a fault -/

theorem joined_append (texts texts' : List (List Char)) :
    joined (texts ++ texts') = joined texts ++ joined texts' := List.flatMap_append

/-- A text that is empty or starts with a slash holds further components. -/
theorem exists_joined {behind : List Char} (h : behind = [] ∨ ∃ rest, behind = '/' :: rest) :
    ∃ others, behind = joined others ∧ ∀ t ∈ others, '/' ∉ t := by
  rcases h with rfl | ⟨rest, rfl⟩
  · exact ⟨[], rfl, by simp⟩
  · refine ⟨(components rest).1 :: (components rest).2, ?_, slash_notMem_components rest⟩
    rw [joined_cons, components_join]

/-- A text that is not read has a fault, which is the one that is reported: the text as a whole does
not start like a path, or there is a first component that writes no index. In that case it does not
matter what stands behind the component. -/
theorem parse_error_exact :
    (∀ text e, parse text = .error e ↔ Faulty text e) ∧
      ∀ (good : List (List Char)) (bad behind : List Char) (e : Error),
        (∀ t ∈ good, ∃ i, Index.Writes t i) → '/' ∉ bad → Index.Faulty bad e →
        (behind = [] ∨ ∃ rest, behind = '/' :: rest) →
        parse (String.ofList ('m' :: (joined (good ++ [bad]) ++ behind))) = .error e := by
  refine ⟨fun text e => parse_eq_error_iff, ?_⟩
  intro good bad behind e hgood hslash hbad hbehind
  rcases exists_joined hbehind with ⟨others, rfl, hothers⟩
  have htext : (String.ofList ('m' :: (joined (good ++ [bad]) ++ joined others))).toList =
      'm' :: joined (good ++ bad :: others) := by
    rw [String.toList_ofList, ← joined_append, List.append_assoc, List.singleton_append]
  refine parse_of_faulty (.component htext ?_ hgood hbad)
  intro t ht
  rw [List.mem_append, List.mem_cons] at ht
  rcases ht with ht | rfl | ht
  · rcases hgood t ht with ⟨i, hi⟩
    exact hi.slash_notMem
  · exact hslash
  · exact hothers t ht

/-- A number that is too large, between a good component and two bad ones. -/
theorem parse_error_exact_large :
    parse "m/1h/02147483648/x//" =
      .error (.invalidIndex "normal index 2147483648 must be below 2^31") := by
  have hgood : ∀ t ∈ ["1h".toList], ∃ i, Index.Writes t i := by
    intro t ht
    rw [List.mem_singleton] at ht
    subst ht
    exact ⟨⟨0x80000001⟩, Index.writes_of_ofChars (by decide)⟩
  have hbad : Index.Faulty "02147483648".toList
      (.invalidIndex "normal index 2147483648 must be below 2^31") :=
    Index.faulty_of_ofChars (by decide)
  exact parse_error_exact.2 ["1h".toList] "02147483648".toList "/x//".toList _ hgood (by decide)
    hbad (.inr ⟨_, rfl⟩)

end KeyTree.Path
