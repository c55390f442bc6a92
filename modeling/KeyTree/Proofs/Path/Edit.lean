import KeyTree.Path.Edit
import KeyTree.Proofs.Path.Text

/-!
# Edits against a list

A path under construction is a list of indices: an edit asks for a change of the list, or it is
refused and the list stays as it is. What an edit asks for does not depend on the path, so the list
can be kept beside the path without reading or printing anything.

* `apply_of_asks`, `apply_eq_error_iff`: an edit makes the change that it asks for, and it fails
  when a text or a number in it is refused.
* `follows_iff`: the list that follows the edits is the list of the path.
* `run_follows`: both over every run, with what a reader sees of the path on the way.
-/

namespace KeyTree.Path

/-! ## The list -/

/-- A change of a list of indices. -/
inductive Change where
  | keep
  | replace (indices : List Index)
  | extend (indices : List Index)

/-- The list after a change. -/
def Change.apply (is : List Index) : Change → List Index
  | .keep => is
  | .replace js => js
  | .extend js => is ++ js

namespace Edit

/-- The change that an edit asks for: a text stands for the indices that it writes, and a number for
its index of one kind or the other. -/
inductive Asks : Edit → Change → Prop
  | master : Asks .master (.replace [])
  | parse {text : String} {is : List Index} (h : Writes text ⟨is⟩) :
      Asks (.parse text) (.replace is)
  | child (i : Index) : Asks (.child i) (.extend [i])
  | childNormal {n : UInt32} {i : Index} (h : n.toNat < 2 ^ 31)
      (hi : i.value.toNat = n.toNat) : Asks (.childNormal n) (.extend [i])
  | childHardened {n : UInt32} {i : Index} (h : n.toNat < 2 ^ 31)
      (hi : i.value.toNat = n.toNat + 2 ^ 31) : Asks (.childHardened n) (.extend [i])
  | replace (is : List Index) : Asks (.replace is) (.replace is)
  | collect (is : List Index) : Asks (.collect is) (.replace is)
  | append {text : String} {is : List Index} (h : Writes text ⟨is⟩) :
      Asks (.append text) (.extend is)
  | reparse : Asks .reparse .keep

/-- The edit holds a text or a number that is refused, for this cause. -/
inductive Refused : Edit → Error → Prop
  | parse {text : String} {e : Error} (h : Path.parse text = .error e) : Refused (.parse text) e
  | childNormal {n : UInt32} {e : Error} (h : Index.normal n = .error e) :
      Refused (.childNormal n) e
  | childHardened {n : UInt32} {e : Error} (h : Index.hardened n = .error e) :
      Refused (.childHardened n) e
  | append {text : String} {e : Error} (h : Path.parse text = .error e) : Refused (.append text) e

end Edit

/-- The second list comes from the first one by the changes that the edits ask for; an edit that
asks for none is passed over. -/
inductive Follows : List Index → List Edit → List Index → Prop
  | done (is : List Index) : Follows is [] is
  | change {is js : List Index} {edit : Edit} {edits : List Edit} {c : Change} (h : edit.Asks c)
      (rest : Follows (c.apply is) edits js) : Follows is (edit :: edits) js
  | pass {is js : List Index} {edit : Edit} {edits : List Edit} (h : ∀ c, ¬edit.Asks c)
      (rest : Follows is edits js) : Follows is (edit :: edits) js

/-- The path shows the list in every way in which a path is looked at. -/
structure Shows (p : Path) (is : List Index) : Prop where
  indices_eq : p.indices = is
  length_eq : p.length = is.length
  isEmpty_eq : p.isEmpty = is.isEmpty
  eq_iff : ∀ q : Path, p = q ↔ q.indices = is

theorem ext_indices {p q : Path} (h : p.indices = q.indices) : p = q := by
  rcases p with ⟨is⟩
  rcases q with ⟨js⟩
  exact congrArg Path.mk h

/-- Whichever way a path is looked at, its indices are seen. -/
theorem shows_iff {p : Path} {is : List Index} : p.Shows is ↔ p.indices = is := by
  constructor
  · intro h
    exact h.indices_eq
  · rintro rfl
    refine ⟨rfl, rfl, rfl, ?_⟩
    intro q
    constructor
    · rintro rfl
      rfl
    · intro h
      exact ext_indices h.symm

/-! ## One edit -/

variable {p : Path} {edit : Edit}

/-- An edit makes the change that it asks for. -/
theorem apply_of_asks {c : Change} (h : edit.Asks c) :
    edit.apply p = .ok ⟨c.apply p.indices⟩ := by
  cases h with
  | master => rfl
  | parse h => exact parse_of_writes h
  | child i => rfl
  | childNormal h hi =>
    rw [Edit.apply, Index.normal_eq_ok_iff.2 ⟨h, hi⟩]
    rfl
  | childHardened h hi =>
    rw [Edit.apply, Index.hardened_eq_ok_iff.2 ⟨h, hi⟩]
    rfl
  | replace is => rfl
  | collect is => exact congrArg Except.ok (ext_indices (indices_collect is))
  | @append text is h =>
    rw [Edit.apply, parse_of_writes h]
    exact congrArg Except.ok (ext_indices (indices_extend p is))
  | reparse => exact parse_render p

/-- An edit that does not fail asks for something. -/
theorem exists_asks_of_apply {q : Path} (h : edit.apply p = .ok q) : ∃ c, edit.Asks c := by
  cases edit with
  | master => exact ⟨_, .master⟩
  | parse text => exact ⟨_, .parse (writes_of_parse h)⟩
  | child i => exact ⟨_, .child i⟩
  | childNormal n =>
    rcases bind_eq_ok h with ⟨i, hn, -⟩
    rcases Index.normal_eq_ok_iff.1 hn with ⟨hlt, hi⟩
    exact ⟨_, .childNormal hlt hi⟩
  | childHardened n =>
    rcases bind_eq_ok h with ⟨i, hn, -⟩
    rcases Index.hardened_eq_ok_iff.1 hn with ⟨hlt, hi⟩
    exact ⟨_, .childHardened hlt hi⟩
  | replace is => exact ⟨_, .replace is⟩
  | collect is => exact ⟨_, .collect is⟩
  | append text =>
    rcases bind_eq_ok h with ⟨r, hr, -⟩
    exact ⟨_, .append (writes_of_parse hr)⟩
  | reparse => exact ⟨_, .reparse⟩

/-- An edit fails when a text or a number in it is refused, for the cause of that. -/
theorem apply_eq_error_iff {e : Error} : edit.apply p = .error e ↔ edit.Refused e := by
  constructor
  · intro h
    cases edit with
    | parse text => exact .parse h
    | childNormal n => exact .childNormal (bind_pure_eq_error_iff.1 h)
    | childHardened n => exact .childHardened (bind_pure_eq_error_iff.1 h)
    | append text => exact .append (bind_pure_eq_error_iff.1 h)
    | reparse =>
      rw [apply_of_asks .reparse] at h
      cases h
    -- the other edits hold nothing that could be refused
    | master | child | replace | collect => cases h
  · intro h
    cases h with
    | parse h => exact h
    | childNormal h => exact bind_pure_eq_error_iff.2 h
    | childHardened h => exact bind_pure_eq_error_iff.2 h
    | append h => exact bind_pure_eq_error_iff.2 h

theorem edit_of_ok {q : Path} (h : edit.apply p = .ok q) : p.edit edit = q := by
  unfold Path.edit
  rw [h]

/-- An edit that fails leaves the path as it was. -/
theorem edit_of_error {e : Error} (h : edit.apply p = .error e) : p.edit edit = p := by
  unfold Path.edit
  rw [h]

/-- An edit makes the change that it asks for, or it asks for none and leaves the path alone. -/
theorem edit_cases (p : Path) (edit : Edit) :
    (∃ c, edit.Asks c ∧ (p.edit edit).indices = c.apply p.indices) ∨
      (∀ c, ¬edit.Asks c) ∧ p.edit edit = p := by
  rcases h : edit.apply p with e | q
  · refine .inr ⟨?_, edit_of_error h⟩
    intro c hc
    rw [apply_of_asks hc] at h
    cases h
  · rcases exists_asks_of_apply h with ⟨c, hc⟩
    exact .inl ⟨c, hc, by rw [edit_of_ok (apply_of_asks hc)]⟩

/-! ## Runs -/

theorem run_cons (p : Path) (edit : Edit) (edits : List Edit) :
    p.run (edit :: edits) = (p.edit edit).run edits := rfl

/-- A run of edits leads from the indices of a path to those of the path behind it, by induction on
the edits with `edit_cases` for each. -/
theorem follows_run (p : Path) (edits : List Edit) :
    Follows p.indices edits (p.run edits).indices := by
  induction edits generalizing p with
  | nil => exact .done p.indices
  | cons edit edits ih =>
    have hrest := ih (p.edit edit)
    rw [run_cons]
    rcases edit_cases p edit with ⟨c, hc, hindices⟩ | ⟨hnone, hsame⟩
    · rw [hindices] at hrest
      exact .change hc hrest
    · rw [hsame] at hrest ⊢
      exact .pass hnone hrest

/-- The list that follows the edits is the list of the path. -/
theorem follows_iff {edits : List Edit} {is : List Index} :
    Follows p.indices edits is ↔ (p.run edits).indices = is := by
  constructor
  · intro h
    generalize hp : p.indices = start at h
    -- along the list, since a path with that list makes or refuses each change as the list does
    induction h generalizing p with
    | done is => exact hp
    | change hc rest ih =>
      subst hp
      rw [run_cons, edit_of_ok (apply_of_asks hc)]
      exact ih rfl
    | @pass _ _ edit _ hnone rest ih =>
      rw [run_cons]
      rcases edit_cases p edit with ⟨c, hc, -⟩ | ⟨-, hsame⟩
      · exact absurd hc (hnone c)
      · rw [hsame]
        exact ih hp
  · rintro rfl
    exact follows_run p edits

/-! ## The text of a longer path -/

/-- The text of a path without the letter in front. -/
def tail (p : Path) : String := String.ofList (joined (p.indices.map Index.toChars))

/-- The text of a path is an `m` and what stands behind it. -/
theorem render_eq_append_tail (p : Path) : p.render = "m" ++ p.tail := by
  unfold render toChars tail joined
  rw [List.flatMap_map]
  exact @String.ofList_append ['m'] _

/-- What is appended to a path is appended to its text. -/
theorem render_extend (p q : Path) : (p.extend q.indices).render = p.render ++ q.tail := by
  unfold render toChars tail joined
  rw [indices_extend, List.flatMap_append, List.flatMap_map, ← List.cons_append,
    String.ofList_append]

/-! ## Everything at once -/

/-- Whatever the edits, the path shows the list that follows them. An edit fails for a text or a
number that is refused, and then it leaves the path as it was; reading the path back never fails
and changes nothing; and a text that is appended shows at the end of the path's own text. -/
theorem run_follows (edits : List Edit) :
    (∀ is, Follows [] edits is ↔ (master.run edits).Shows is) ∧
      (∀ edit e, Edit.apply (master.run edits) edit = .error e ↔ edit.Refused e) ∧
      (∀ edit e, Edit.apply (master.run edits) edit = .error e →
        (master.run (edits ++ [edit])) = master.run edits) ∧
      Edit.apply (master.run edits) .reparse = .ok (master.run edits) ∧
      ∀ text q, Edit.apply (master.run edits) (.append text) = .ok q →
        ∃ r tail, parse text = .ok r ∧ r.render = "m" ++ tail ∧
          q.render = (master.run edits).render ++ tail := by
  refine ⟨?_, ?_, ?_, parse_render _, ?_⟩
  · intro is
    rw [shows_iff]
    exact follows_iff (p := master)
  · intro edit e
    exact apply_eq_error_iff
  · intro edit e h
    unfold run
    rw [List.foldl_append]
    exact edit_of_error h
  · intro text q h
    rcases bind_eq_ok h with ⟨r, hr, hq⟩
    cases hq
    exact ⟨r, r.tail, hr, r.render_eq_append_tail, render_extend _ r⟩

/-- A piece of text that is bad at its end adds nothing, and a good one is added as a whole. -/
theorem run_follows_append :
    Edit.apply (master.run [.parse "m/7h"]) (.append "m/1/2/x") =
        .error (.invalidPath "Invalid derivation path component: x") ∧
      master.run [.parse "m/7h", .append "m/1/2/x"] = master.run [.parse "m/7h"] ∧
      Edit.apply (master.run [.parse "m/7h"]) (.append "m/01/2H") =
        .ok ⟨[⟨0x80000007⟩, ⟨1⟩, ⟨0x80000002⟩]⟩ ∧
      ∃ r tail, parse "m/01/2H" = .ok r ∧ r.render = "m" ++ tail ∧
        (⟨[⟨0x80000007⟩, ⟨1⟩, ⟨0x80000002⟩]⟩ : Path).render =
          (master.run [.parse "m/7h"]).render ++ tail := by
  have hbad : Edit.apply (master.run [.parse "m/7h"]) (.append "m/1/2/x") =
      .error (.invalidPath "Invalid derivation path component: x") := by decide
  have hgood : Edit.apply (master.run [.parse "m/7h"]) (.append "m/01/2H") =
      .ok ⟨[⟨0x80000007⟩, ⟨1⟩, ⟨0x80000002⟩]⟩ := by decide
  rcases run_follows [.parse "m/7h"] with ⟨-, -, hstay, -, happend⟩
  exact ⟨hbad, hstay _ _ hbad, hgood, happend _ _ hgood⟩

end KeyTree.Path
