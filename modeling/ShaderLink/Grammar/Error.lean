import ShaderLink.Grammar.Parser
import ShaderLink.SourceMap.Lookup
import ShaderLink.Text.Blank
import ShaderLink.Text.Position

/-!
# Parse errors

A parse that fails is reported at the furthest token it found, in terms of the text that the user
wrote: the place is traced back through whatever was done to the text before parsing.
-/

namespace ShaderLink

/-- Why and where a text cannot be parsed. -/
structure ParseError where
  message : String
  /-- What the text was to be parsed as. -/
  module : String
  /-- The offset in the text as written. -/
  offset : Nat
  position : Position
  /-- The start of what stands there, without the rest of its line. -/
  excerpt : String
  notes : List Note
deriving DecidableEq, Repr

namespace ParseError

/-- The most characters that an excerpt has. -/
def excerptLength : Nat := 40

/-- What stands at an offset, up to the end of the line. -/
def excerptAt (t : Text) (offset : Nat) : Text :=
  match t.splitAt? offset with
  | some (_, rest) => (Text.trimEnd (rest.takeWhile (· ≠ '\n'))).take excerptLength
  | none => []

/-- The report on a failure that happened, with the given notes and after the given effort, under a
limit of `limit` steps. The parsed text is that of the map, `t` the text as written. -/
def report (module : String) (t : Text) (map : SourceMap) (limit : Nat) (effort : Effort)
    (notes : List Note) : ParseError :=
  let offset := min (map.originOffset effort.furthest) t.size
  ⟨Note.summary limit notes, module, offset, t.position offset, String.ofList (excerptAt t offset),
    notes⟩

/-- The error on one line. -/
def render (e : ParseError) : String :=
  let place := e.module ++ ":" ++ toString e.position.line ++ ":" ++ toString e.position.column
  let excerpt := if e.excerpt.isEmpty then "" else " at `" ++ e.excerpt ++ "`"
  place ++ ": " ++ e.message ++ excerpt

end ParseError

/-- The steps that a parse may take unless told otherwise. -/
def defaultSteps : Nat := 1000000

/-- The tokens of a text as shader code, without the ignored ones. -/
def tokenize (t : Text) : Except ParseError (List Token) :=
  match (Parser.many (Parser.token .shader)).run defaultSteps t with
  | (.accepted tokens _, _) => .ok tokens
  | (.refused, effort) => .error (.report "" t (.identity ⟨"tokens"⟩ ⟨""⟩ t) defaultSteps effort [])
  | (.aborted notes, effort) =>
    .error (.report "" t (.identity ⟨"tokens"⟩ ⟨""⟩ t) defaultSteps effort notes)

end ShaderLink
