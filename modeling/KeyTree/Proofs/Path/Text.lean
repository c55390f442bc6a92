import KeyTree.Path.Text
import KeyTree.Proofs.Index.Text

/-!
# What the reader of paths takes

The text of a path is an `m` and, behind it, each index behind a slash. The reader takes such a text
apart at its slashes; since no text of an index holds one, it finds the indices that were joined.

* `components_joined`, `components_join`: taking apart and joining undo each other.
* `parse_eq_ok_iff_writes`: the reader takes the texts of the grammar, with their meaning, and
  refuses all others.
* `parse_render_and_injective`: every path is read back from its text, so that different paths have
  different texts.
-/

namespace KeyTree.Path

/-! ## Taking apart and joining -/

/-- Each of some texts behind a slash. -/
def joined (texts : List (List Char)) : List Char := texts.flatMap fun text => '/' :: text

theorem joined_cons (text : List Char) (texts : List (List Char)) :
    joined (text :: texts) = '/' :: (text ++ joined texts) := rfl

/-- A slash ends a component, here an empty one. -/
theorem components_slash (text : List Char) :
    components ('/' :: text) = ([], (components text).1 :: (components text).2) := rfl

/-- Any other character belongs to the component that it starts. -/
theorem components_cons {c : Char} (hc : c ≠ '/') (text : List Char) :
    components (c :: text) = (c :: (components text).1, (components text).2) := by
  rw [components]
  exact if_neg hc

/-- A text without a slash goes into the first component. -/
theorem components_append {first : List Char} (h : '/' ∉ first) (text : List Char) :
    components (first ++ text) = (first ++ (components text).1, (components text).2) := by
  induction first with
  | nil => rfl
  | cons c first ih =>
    rw [List.mem_cons, not_or] at h
    rw [List.cons_append, components_cons (Ne.symm h.1), ih h.2, List.cons_append]

/-- Texts without a slash are found again where they were joined. -/
theorem components_joined {texts : List (List Char)} (h : ∀ text ∈ texts, '/' ∉ text) :
    components (joined texts) = ([], texts) := by
  induction texts with
  | nil => rfl
  | cons text texts ih =>
    have htext := h text List.mem_cons_self
    have hrest := ih fun t ht => h t (List.mem_cons_of_mem text ht)
    rw [joined_cons, components_slash, components_append htext, hrest, List.append_nil]

/-- The components join to the text that was taken apart. -/
theorem components_join (text : List Char) :
    (components text).1 ++ joined (components text).2 = text := by
  induction text with
  | nil => rfl
  | cons c text ih =>
    by_cases hc : c = '/'
    · subst hc
      rw [components_slash, List.nil_append, joined_cons, ih]
    · rw [components_cons hc, List.cons_append, ih]

/-! ## The grammar -/

/-- The text writes the path: an `m` and, behind it, the text of each index behind a slash. -/
def Writes (text : String) (p : Path) : Prop :=
  ∃ texts : List (List Char),
    text.toList = 'm' :: joined texts ∧ List.Forall₂ Index.Writes texts p.indices

/-- No text of an index holds a slash. -/
theorem slash_notMem {texts : List (List Char)} {is : List Index}
    (h : List.Forall₂ Index.Writes texts is) : ∀ text ∈ texts, '/' ∉ text := by
  induction h with
  | nil => simp
  | cons hfirst hothers ih => exact List.forall_mem_cons.2 ⟨hfirst.slash_notMem, ih⟩

/-! ## Reading -/

/-- The components are read from left to right. -/
theorem ofComponents_cons (text : List Char) (texts : List (List Char)) :
    ofComponents (text :: texts) =
      (do let i ← Index.ofChars text; let is ← ofComponents texts; return i :: is) := rfl

/-- The components are read one by one. -/
theorem ofComponents_eq_ok_iff {texts : List (List Char)} {is : List Index} :
    ofComponents texts = .ok is ↔ List.Forall₂ Index.Writes texts is := by
  induction texts generalizing is with
  | nil =>
    rw [List.forall₂_nil_left_iff, ofComponents, Except.ok.injEq]
    exact eq_comm
  | cons text texts ih =>
    rw [List.forall₂_cons_left_iff, ofComponents_cons]
    simp only [← ih, ← Index.ofChars_eq_ok_iff]
    rcases Index.ofChars text with e | i
    · simp [bind, Except.bind]
    · rcases ofComponents texts with e | is'
      · simp [bind, Except.bind]
      · simp [bind, Except.bind, pure, Except.pure, eq_comm]

/-- An `m` alone is the text of the root. -/
theorem parse_of_master {text : String} (h : text.toList = ['m']) : parse text = .ok master := by
  unfold parse
  rw [h]
  rfl

/-- Behind an `m` and a slash the components are read. -/
theorem parse_of_slash {text : String} {rest : List Char} (h : text.toList = 'm' :: '/' :: rest) :
    parse text =
      Path.mk <$> ofComponents ((components rest).1 :: (components rest).2) := by
  unfold parse
  rw [h]
  rfl

/-- Every other text is refused as a whole. -/
theorem parse_of_other {text : String} (hmaster : text.toList ≠ ['m'])
    (hslash : ∀ rest, text.toList ≠ 'm' :: '/' :: rest) :
    parse text = .error (.invalidPath ("Invalid derivation path: " ++ text)) := by
  unfold parse
  split
  · rename_i h
    exact absurd h hmaster
  · rename_i rest h
    exact absurd h (hslash rest)
  · rfl

/-- Texts without a slash that were joined are read one by one. -/
theorem parse_of_joined {text : String} {first : List Char} {others : List (List Char)}
    (htext : text.toList = 'm' :: joined (first :: others))
    (h : ∀ t ∈ first :: others, '/' ∉ t) :
    parse text = Path.mk <$> ofComponents (first :: others) := by
  rcases List.forall_mem_cons.1 h with ⟨hfirst, hothers⟩
  have hsplit : components (first ++ joined others) = (first, others) := by
    rw [components_append hfirst, components_joined hothers, List.append_nil]
  rw [joined_cons] at htext
  rw [parse_of_slash htext, hsplit]

/-- A text is read as the path that it writes. -/
theorem parse_of_writes {text : String} {p : Path} (h : Writes text p) : parse text = .ok p := by
  rcases h with ⟨texts, htext, htexts⟩
  rcases p with ⟨is⟩
  cases htexts with
  | nil => exact parse_of_master htext
  | cons hfirst hothers =>
    -- no slash is written inside of an index, so the components are the texts of the grammar
    rw [parse_of_joined htext (slash_notMem (.cons hfirst hothers)),
      ofComponents_eq_ok_iff.2 (.cons hfirst hothers)]
    rfl

/-- A text that is read writes what it is read as. -/
theorem writes_of_parse {text : String} {p : Path} (h : parse text = .ok p) : Writes text p := by
  by_cases hmaster : text.toList = ['m']
  · rw [parse_of_master hmaster, Except.ok.injEq] at h
    subst h
    exact ⟨[], hmaster, .nil⟩
  · by_cases hslash : ∃ rest, text.toList = 'm' :: '/' :: rest
    · rcases hslash with ⟨rest, hrest⟩
      rw [parse_of_slash hrest] at h
      rcases his : ofComponents ((components rest).1 :: (components rest).2) with e | is
      · rw [his] at h
        exact absurd h (by simp [Functor.map, Except.map])
      · rw [his] at h
        obtain rfl : Path.mk is = p := by simpa [Functor.map, Except.map] using h
        refine ⟨_, ?_, ofComponents_eq_ok_iff.1 his⟩
        rw [hrest, joined_cons, components_join]
    · have hother : ∀ rest, text.toList ≠ 'm' :: '/' :: rest := by
        intro rest hrest
        exact hslash ⟨rest, hrest⟩
      rw [parse_of_other hmaster hother] at h
      exact absurd h (by simp)

/-- The reader takes the texts of the grammar, with their meaning, and refuses all others. -/
theorem parse_eq_ok_iff_writes (text : String) :
    (∀ p, parse text = .ok p ↔ Writes text p) ∧
      ((∃ e, parse text = .error e) ↔ ∀ p, ¬Writes text p) := by
  constructor
  · intro p
    exact ⟨writes_of_parse, parse_of_writes⟩
  · rcases h : parse text with e | p
    · refine iff_of_true ⟨e, rfl⟩ ?_
      intro p hp
      rw [parse_of_writes hp] at h
      exact absurd h (by simp)
    · refine iff_of_false (by simp) ?_
      intro hnone
      exact hnone p (writes_of_parse h)

example : parse "m/0044h/7" = .ok ⟨[⟨0x8000002C⟩, ⟨7⟩]⟩ := by decide

example : (parse "m/1\x27\x27").toOption = none := by decide

/-! ## Reading what was written -/

/-- The printer writes the path. -/
theorem writes_render (p : Path) : Writes p.render p := by
  refine ⟨p.indices.map Index.toChars, ?_, ?_⟩
  · unfold render toChars joined
    rw [String.toList_ofList, List.flatMap_map]
  · rw [List.forall₂_map_left_iff, List.forall₂_same]
    intro i _
    exact i.writes_toChars

/-- The text of a path is read as that path. -/
theorem parse_render (p : Path) : parse p.render = .ok p := parse_of_writes p.writes_render

/-- Every list of indices is read back from its text, and no two have one text. -/
theorem parse_render_and_injective :
    (∀ is : List Index, parse (render ⟨is⟩) = .ok ⟨is⟩) ∧ Function.Injective render := by
  constructor
  · intro is
    exact parse_render ⟨is⟩
  · intro p q h
    have hp := parse_render p
    rw [h, parse_render, Except.ok.injEq] at hp
    exact hp.symm

example : render ⟨[⟨0⟩, ⟨0x7FFFFFFF⟩, ⟨0x80000000⟩, ⟨0xFFFFFFFF⟩]⟩ =
    "m/0/2147483647/0\x27/2147483647\x27" := by decide

end KeyTree.Path
