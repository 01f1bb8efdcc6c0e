import ShaderLink.Link.Closure
import ShaderLink.SourceMap.Merge
import ShaderLink.Splice

/-!
# Excerpts of modules

Of a module that is not the root, only parts go into the linked text: declarations, as often as they
have instances, and directives that have to stand in front of all declarations. Each part comes as a
source map that leads back to the text of the module as it was written.
-/

namespace ShaderLink

namespace Module

variable (m : Module)

/-- The directives that have to stand in front of all declarations. -/
def directives : List (Span × Text) :=
  m.elements.filterMap fun
    | .text span => do
      let t ← Text.slice? m.text span
      let word := t.takeWhile fun c ↦ isAlphanumeric c || c == '_'
      if ["enable", "requires", "diagnostic"].contains (String.ofList word) then some (span, t)
      else none
    | _ => none

/-- A part of a module, with splices applied and parameters replaced by their values. -/
def excerpt (span : Span) (splices : List Splice) (args : Args) : Except Fault SourceMap := do
  let mapped ← m.map.merge (← Splice.applyAll m.text m.map.id splices (some span))
  if args.isEmpty then
    return mapped
  else
    let value (word : String) := ((OrderedMap.ofList args).get? word).map String.toList
    mapped.merge (← replaceWords value mapped.text mapped.id)

end Module

/-- The directives that are new, given the texts of those that are not. -/
def newDirectives (known : List Text) : List (Module × Span × Text) → List (Module × Span)
  | [] => []
  | (m, span, t) :: ds =>
    if t ∈ known then newDirectives known ds else (m, span) :: newDirectives (t :: known) ds

end ShaderLink
