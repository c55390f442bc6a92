import KeyTree.Index

/-!
# Paths

A path names a node by the indices that lead to it from the root.
-/

namespace KeyTree

/-- The indices from the root down to a node. -/
structure Path where
  indices : List Index
deriving DecidableEq

namespace Path

/-- The empty path, which names the root. -/
def master : Path := ⟨[]⟩

/-- The path one step further down. -/
def child (p : Path) (i : Index) : Path := ⟨p.indices ++ [i]⟩

/-- The path further down by each of some indices in turn. -/
def extend (p : Path) (is : List Index) : Path := is.foldl child p

/-- The path of the indices that come one after another. -/
def collect (is : List Index) : Path := master.extend is

/-- The number of steps. -/
def length (p : Path) : Nat := p.indices.length

/-- The path names the root. -/
def isEmpty (p : Path) : Bool := p.indices.isEmpty

@[simp] theorem indices_master : master.indices = [] := rfl

@[simp] theorem indices_child (p : Path) (i : Index) : (p.child i).indices = p.indices ++ [i] := rfl

@[simp] theorem indices_extend (p : Path) (is : List Index) :
    (p.extend is).indices = p.indices ++ is := by
  induction is generalizing p with
  | nil => simp [extend]
  | cons i is ih => simpa [extend] using ih (p.child i)

/-- A path that is put together index by index holds those indices. -/
@[simp] theorem indices_collect (is : List Index) : (collect is).indices = is := by
  simp [collect]

end Path

end KeyTree
