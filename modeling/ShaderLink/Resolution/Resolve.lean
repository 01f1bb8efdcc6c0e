import ShaderLink.Resolution.ImportMap

/-!
# Resolving references

A reference is resolved by the imports whose visible paths overlap it. An import makes the end of
its path visible, and a reference may start anywhere in it: with `lib/util/foo` imported, `foo` and
`util::foo` both refer to it. So a path and a reference are matched where the one ends and the other
starts (`overlapTail?`). The longest overlap wins, and all imports that overlap as much must agree
on the target. A reference that no import leads anywhere
is external, like the name of a builtin function.

Imports are gone through once. What overlaps more than all before it starts the shortlist anew.
-/

namespace ShaderLink

/-- The rest of `b` behind the longest nonempty end of `a` that `b` starts with. -/
def overlapTail? {α : Type} [BEq α] : List α → List α → Option (List α)
  | [], _ => none
  | x :: a, b =>
    if (x :: a).isPrefixOf b then some (b.drop (a.length + 1)) else overlapTail? a b

/-- A path of names as shader code has it. -/
def codePath (path : List String) : String :=
  "::".intercalate path

/-- What a reference refers to. -/
inductive Resolution where
  /-- A target at an absolute path, with the arguments of the import. -/
  | found (target : Target) (exportPath : List String) (args : Option (List String))
  /-- Nothing imported. -/
  | unresolved
  /-- Several targets. These are their paths. -/
  | ambiguous (paths : List String)
deriving DecidableEq, Repr

/-- An import that leads a reference somewhere. -/
structure ImportMatch where
  /-- The number of segments that the import and the reference share. -/
  overlap : Nat
  target : Target
  exportPath : List String
  args : Option (List String)
deriving DecidableEq, Repr

/-- The matches that may be meant: those with the longest overlap so far. -/
structure Shortlist where
  overlap : Nat
  candidates : List ImportMatch

/-- The shortlist after one more match. -/
def Shortlist.add (s : Shortlist) (c : ImportMatch) : Shortlist :=
  if c.overlap < s.overlap then s
  else if s.overlap < c.overlap then ⟨c.overlap, [c]⟩
  else ⟨s.overlap, s.candidates ++ [c]⟩

/-- The part of a reference behind what an import makes visible of it. -/
def ImportEntry.rest? (e : ImportEntry) (reference : List String) : Option (List String) :=
  if e.visible.isEmpty then some reference else overlapTail? e.visible reference

namespace ImportMap

variable (imports : ImportMap) (reference : List String)

/-- Where an import leads a reference. -/
def match? (e : ImportEntry) : Option ImportMatch := do
  let rest ← e.rest? reference
  let target ← imports.exports.get? (e.exportPath ++ rest)
  return ⟨reference.length - rest.length, target, e.exportPath ++ rest, e.args⟩

/-- The matches of all imports in order. -/
def matchesOf : List ImportMatch :=
  imports.entries.filterMap (imports.match? reference)

/-- The matches with the longest overlap. -/
def bestMatches : List ImportMatch :=
  ((imports.matchesOf reference).foldl .add ⟨0, []⟩ : Shortlist).candidates

/-- What a reference refers to. -/
def resolve : Resolution :=
  match imports.bestMatches reference with
  | [] => .unresolved
  | c :: cs =>
    if cs.all fun d ↦ d.target == c.target then
      .found c.target c.exportPath c.args
    else
      .ambiguous ((c :: cs).map fun d ↦ codePath d.exportPath).eraseReps

end ImportMap

end ShaderLink
