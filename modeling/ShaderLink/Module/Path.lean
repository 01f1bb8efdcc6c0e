import ShaderLink.Text.Alphanumeric

/-!
# Module paths

A module is known by a path of names, like `lib/util`. The path comes from the name of its file,
unless the module declares another. Inside a module, paths may be relative: the markers `.` and `..`
at the start of a path stand for the directory the module is in and for the next one further out.
-/

namespace ShaderLink

/-- The path of a module. -/
abbrev ModulePath := List String

namespace ModulePath

/-- The path in a message. -/
def render (p : ModulePath) : String :=
  "/".intercalate p

/-- Whether a path is another or comes before it. Segments are compared one by one, and a path comes
before those that go on from it. -/
def before : ModulePath → ModulePath → Bool
  | [], _ => true
  | _ :: _, [] => false
  | a :: p, b :: q => a < b || a == b && before p q

/-- Reads `a/b/c`, `a::b::c` or `a.b.c`. Empty segments do not count. -/
def ofText (t : Text) : ModulePath :=
  (t.pieces fun c ↦ ['/', '\\', ':', '.'].contains c).map String.ofList

/-- A text without the `./` in front, however often it stands there. -/
def dropHere : Text → Text
  | '.' :: '/' :: t => dropHere t
  | t => t

/-- The path of the module in a file. -/
def ofFile (file : Text) : ModulePath :=
  let file := dropHere file
  ofText (((Text.dropSuffix? file ".wgsl").orElse fun _ ↦ Text.dropSuffix? file ".wesl").getD file)

/-! ### Declared paths -/

/-- Whether a character may stand in a path that a line declares. -/
def isPathChar (c : Char) : Bool :=
  isAlphanumeric c || ['_', '.', '/', ':'].contains c

/-- The path that a line declares, if it is the word `module` or `#module` and a path. -/
def declaredBy? (line : Text) : Option ModulePath := do
  let line := line.trim
  let rest ← (line.dropPrefix? "#module").orElse fun _ ↦ line.dropPrefix? "module"
  let path := Text.trimEnd (rest.trim.reverse.dropWhile (· == ';')).reverse
  if rest.head?.any isBlank && !path.isEmpty && path.all isPathChar then
    some (ofText path)
  else
    none

/-- The path that the first such line of a text declares. This takes no parsing, so it also works on
a text that cannot be parsed. -/
def declaredIn? (t : Text) : Option ModulePath :=
  t.lines.findSome? declaredBy?

/-! ### Relative paths -/

/-- Whether a segment is a marker. -/
def isMarker (segment : String) : Bool :=
  segment == "." || segment == ".."

/-- The absolute path that a path stands for in a module. One without markers stands for itself. The
first marker leaves the module's own name, each `..` one more, and nothing leaves the root. -/
def resolve? (base : ModulePath) (path : List String) : Option (List String) :=
  let markers := path.takeWhile isMarker
  let left := 1 + markers.count ".."
  if markers.isEmpty then some path
  else if left ≤ base.length then
    some (base.take (base.length - left) ++ path.dropWhile isMarker)
  else
    none

end ModulePath

end ShaderLink
