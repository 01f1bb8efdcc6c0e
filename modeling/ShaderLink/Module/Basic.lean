import ShaderLink.Module.Element
import ShaderLink.Module.Path
import ShaderLink.SourceMap.Lookup
import ShaderLink.Warning

/-!
# Modules

A module keeps two texts: the one its author wrote, and the one that conditional lines leave of it,
which is what was parsed. Spans of elements are in the second, warnings point into the first, and
the module's map leads from one to the other.
-/

namespace ShaderLink

/-- A parsed module. -/
structure Module where
  path : ModulePath
  /-- The name of the text as written. -/
  sourceId : SourceId
  /-- The text as written. -/
  source : Text
  /-- The text that was parsed, and where it comes from. -/
  map : SourceMap
  elements : List Element
  scopes : ScopeTree
  warnings : List Warning
  /-- Whether every declaration is exported, because no export is marked. -/
  exportsAll : Bool

namespace Module

variable (m : Module)

/-- The text that was parsed. -/
def text : Text :=
  m.map.text

/-! ### Declarations -/

/-- The declarations at module level with their places. -/
def decls : List (Nat × Decl) :=
  m.elements.zipIdx.filterMap fun e ↦ e.1.decl?.map fun d ↦ (e.2, d)

/-- The declaration at a place. -/
def decl? (index : Nat) : Option Decl :=
  m.elements[index]?.bind Element.decl?

/-- The first declaration of a name. -/
def findDecl? (name : String) : Option (Nat × Decl) :=
  m.decls.find? fun d ↦ d.2.name == name

/-- The exported declarations with their places. -/
def exports : List (Nat × Decl) :=
  m.decls.filter fun d ↦ d.2.exported

/-- The first exported declaration of a name. -/
def findExport? (name : String) : Option (Nat × Decl) :=
  m.exports.find? fun d ↦ d.2.name == name

/-- The references inside a declaration. -/
def references (d : Decl) : List Reference :=
  ((m.elements.drop d.firstChild).take d.childCount).filterMap Element.reference?

/-! ### Imports -/

/-- The leaves of all imports, each with the span of its statement. -/
def importLeaves : List (Span × ImportLeaf) :=
  m.elements.flatMap fun
    | .importing tree _ span => tree.leaves.map fun leaf ↦ (span, leaf)
    | _ => []

/-! ### Warnings -/

/-- The warning about an offset of the parsed text. -/
def warning (offset : Nat) (message : String) : Warning :=
  .ofOffset m.sourceId m.source (m.map.originOffset offset) message

end Module

end ShaderLink
