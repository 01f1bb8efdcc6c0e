/-!
# Notes on a failed parse

A failure that ends a parse carries **notes**, the innermost first: what the grammar was reading
when it failed, and what it would have accepted there. They are all that the wording of an error
depends on.
-/

namespace ShaderLink

/-- The things that can be invalid as a whole. -/
inductive Label where
  | stepLimit
  | blockComment
  | brackets
deriving DecidableEq, Repr

/-- The name of a label in messages. -/
def Label.text : Label → String
  | stepLimit => "parse step limit"
  | blockComment => "block comment"
  | brackets => "unbalanced brackets"

/-- One remark on why a parse failed. -/
inductive Note where
  /-- The construct that the label names is invalid. -/
  | invalid (label : Label)
  /-- Something else was expected. -/
  | expected (what : String)
deriving DecidableEq, Repr

namespace Note

/-- The remark as a phrase. -/
def render : Note → String
  | invalid label => "invalid " ++ label.text
  | expected what => "expected " ++ what

/-- What was expected, if the remark says so. -/
def expectation? : Note → Option String
  | invalid _ => none
  | expected what => some what

/-- What was invalid, if the remark says so. -/
def label? : Note → Option Label
  | invalid label => some label
  | expected _ => none

/-- One sentence for all remarks on a failure under a limit of `limit` steps. Running out of steps
explains everything else, expectations come before labels. -/
def summary (limit : Nat) (notes : List Note) : String :=
  if invalid .stepLimit ∈ notes then
    "parse step limit of " ++ toString limit ++ " exceeded"
  else
    match notes.filterMap expectation?, notes.findSome? label? with
    | [], none => "unexpected syntax"
    | [], some label => "invalid " ++ label.text
    | whats, _ => "expected " ++ " or ".intercalate whats

end Note

end ShaderLink
