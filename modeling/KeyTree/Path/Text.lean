import KeyTree.Path.Basic

/-!
# The text of a path

A path is written `m`, followed by its indices with a slash before each: `m/44'/0'/7`. The reader
takes `h` and `H` for the mark as well, and leading zeros; of several faults it reports the
leftmost.
-/

namespace KeyTree.Path

/-- The characters of a path. -/
def toChars (p : Path) : List Char :=
  'm' :: p.indices.flatMap fun i => '/' :: i.toChars

/-- The text of a path. -/
def render (p : Path) : String := String.ofList p.toChars

/-- The text up to the first slash, and the texts between the slashes behind it. -/
def components : List Char → List Char × List (List Char)
  | [] => ([], [])
  | c :: text =>
    let (first, rest) := components text
    if c = '/' then ([], first :: rest) else (c :: first, rest)

/-- Reads the components one by one, up to the first fault. -/
def ofComponents : List (List Char) → Except Error (List Index)
  | [] => .ok []
  | text :: texts => do
    let i ← Index.ofChars text
    let is ← ofComponents texts
    return i :: is

/-- Reads a path. -/
def parse (text : String) : Except Error Path :=
  match text.toList with
  | ['m'] => .ok master
  | 'm' :: '/' :: rest => do
    let (first, others) := components rest
    let is ← ofComponents (first :: others)
    return ⟨is⟩
  | _ => .error (.invalidPath ("Invalid derivation path: " ++ text))

end KeyTree.Path
