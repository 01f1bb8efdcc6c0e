/-!
# Import trees

An import statement names a tree of things: single items, everything in a module, lists of trees and
trees under a common path. What counts for the rest of the library are the tree's **leaves**, the
things imported, each with the whole path that leads to it.

Paths are kept as they are written. A relative one starts with markers, `.` for the importing
module's surroundings and `..` for one level further out.
-/

namespace ShaderLink

/-- What an import statement names. -/
inductive ImportTree where
  /-- An item, perhaps under another name and with arguments. -/
  | item (name : String) (localName : Option String) (args : Option (List String))
  /-- Everything. -/
  | wildcard (localName : Option String)
  | list (trees : List ImportTree)
  /-- A tree further down a path. -/
  | path (segments : List String) (tail : ImportTree)
deriving Repr, BEq

/-- One imported thing. -/
structure ImportLeaf where
  /-- The segments as written. For a wildcard, they name the module. -/
  path : List String
  localName : Option String
  args : Option (List String)
  wildcard : Bool
deriving DecidableEq, Repr

namespace ImportTree

/-- The tree further down a path, which is the tree itself for the empty path. -/
def under (tree : ImportTree) : List String → ImportTree
  | [] => tree
  | segments => path segments tree

mutual

/-- The leaves of a tree that stands at the end of a path, in the order written. -/
def leavesBelow (above : List String) : ImportTree → List ImportLeaf
  | item name localName args => [⟨above ++ [name], localName, args, false⟩]
  | wildcard localName => [⟨above, localName, none, true⟩]
  | list trees => leavesOfAll above trees
  | path segments tail => leavesBelow (above ++ segments) tail

/-- The leaves of several trees at the end of one path. -/
def leavesOfAll (above : List String) : List ImportTree → List ImportLeaf
  | [] => []
  | tree :: trees => leavesBelow above tree ++ leavesOfAll above trees

end

/-- The leaves of a tree, in the order written. -/
def leaves (tree : ImportTree) : List ImportLeaf :=
  tree.leavesBelow []

@[simp] theorem leavesBelow_under (above segments : List String) (tree : ImportTree) :
    (tree.under segments).leavesBelow above = tree.leavesBelow (above ++ segments) := by
  cases segments with
  | nil => simp [under]
  | cons s segments => simp [under, leavesBelow]

end ImportTree

end ShaderLink
