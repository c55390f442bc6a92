import KeyTree.Path.Text

/-!
# Edits of a path

The ways in which a path under construction changes, as data. An edit that fails leaves the path as
it was, also when the fault is at the end of a longer piece of text.
-/

namespace KeyTree.Path

/-- One change of a path. -/
inductive Edit where
  /-- Back to the root. -/
  | master
  /-- Replaces the path by the one that a text writes. -/
  | parse (text : String)
  /-- Extends the path by an index. -/
  | child (index : Index)
  /-- Extends the path by the normal index of a number. -/
  | childNormal (number : UInt32)
  /-- Extends the path by the hardened index of a number. -/
  | childHardened (number : UInt32)
  /-- Replaces the path by the one with these indices. -/
  | replace (indices : List Index)
  /-- Replaces the path by the one that collects these indices. -/
  | collect (indices : List Index)
  /-- Extends the path by all the indices that a text writes. -/
  | append (text : String)
  /-- Replaces the path by the one that its own text writes. -/
  | reparse

/-- The path after an edit. -/
def Edit.apply (p : Path) : Edit → Except Error Path
  | .master => .ok Path.master
  | .parse text => Path.parse text
  | .child i => .ok (p.child i)
  | .childNormal n => return p.child (← Index.normal n)
  | .childHardened n => return p.child (← Index.hardened n)
  | .replace is => .ok ⟨is⟩
  | .collect is => .ok (Path.collect is)
  | .append text => return p.extend (← Path.parse text).indices
  | .reparse => Path.parse p.render

/-- The path that an edit leaves behind: the old one if the edit fails. -/
def edit (p : Path) (e : Edit) : Path :=
  match e.apply p with
  | .ok q => q
  | .error _ => p

/-- The path after any number of edits. -/
def run (p : Path) (es : List Edit) : Path := es.foldl edit p

end KeyTree.Path
