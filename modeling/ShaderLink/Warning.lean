import ShaderLink.Text.Position
import ShaderLink.SourceMap.Basic

/-!
# Warnings

A warning points out a problem that stops nothing, such as an import that leads nowhere. It says
where in a source the problem is, as an offset and as a position.
-/

namespace ShaderLink

/-- A problem that stops nothing. -/
structure Warning where
  source : SourceId
  offset : Nat
  position : Position
  message : String
deriving DecidableEq, Repr

namespace Warning

/-- The warning about an offset of a source with the given text. -/
def ofOffset (source : SourceId) (t : Text) (offset : Nat) (message : String) : Warning :=
  ⟨source, offset, t.position offset, message⟩

/-- The warning on one line. -/
def render (w : Warning) : String :=
  w.source.name ++ ":" ++ toString w.position.line ++ ":" ++ toString w.position.column ++ ": " ++
    w.message

end Warning

end ShaderLink
