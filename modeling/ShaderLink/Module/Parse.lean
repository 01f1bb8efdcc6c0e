import ShaderLink.Conditional
import ShaderLink.Grammar.Error
import ShaderLink.Module.Assembly
import ShaderLink.Module.Basic

/-!
# Parsing modules

Conditional lines are decided first, so that everything else sees only the lines that are left. A
module is named after its file, unless it names itself.
-/

namespace ShaderLink

/-- How modules are parsed. -/
structure ParseOptions where
  /-- The values of the conditions. -/
  conditions : String → Bool
  /-- The tokens that may be lexed, again and again ones included. -/
  maxSteps : Nat

/-- No condition holds, and the number of steps is the usual. -/
def ParseOptions.default : ParseOptions :=
  ⟨fun _ ↦ false, defaultSteps⟩

namespace Module

/-- The module that items make of a text. -/
def ofItems (file : String) (source : Text) (processed : Conditional.Processed)
    (items : List Item) : Module :=
  let assembly := Assembly.ofItems items
  { path := assembly.path.getD (ModulePath.ofFile file.toList)
    sourceId := ⟨file⟩
    source
    map := processed.map
    elements := assembly.elements
    scopes := assembly.scopes
    warnings := processed.warnings ++ assembly.problems.map fun problem ↦
      .ofOffset ⟨file⟩ source (processed.map.originOffset problem.1.start) problem.2
    exportsAll := !items.any Item.marksExport }

/-- Parses the text of a file. -/
def parse (options : ParseOptions) (file : String) (source : Text) : Except ParseError Module :=
  let processed := Conditional.process options.conditions ⟨file⟩ source
  let fail (effort : Effort) (notes : List Note) :=
    ParseError.report file source processed.map options.maxSteps effort notes
  match Parser.items.run options.maxSteps processed.map.text with
  | (.accepted items _, _) => .ok (ofItems file source processed items)
  | (.refused, effort) => .error (fail effort [])
  | (.aborted notes, effort) => .error (fail effort notes)

/-- A file is a module as soon as the items of the lines that are left can be read. -/
theorem parse_of_run {options : ParseOptions} {file : String} {source : Text} {items : List Item}
    {c : Cursor} {e : Effort}
    (h : Parser.items.run options.maxSteps
      (Conditional.process options.conditions ⟨file⟩ source).map.text = (.accepted items c, e)) :
    parse options file source = .ok
      (ofItems file source (Conditional.process options.conditions ⟨file⟩ source) items) := by
  unfold parse
  simp only [h]

end Module

end ShaderLink
