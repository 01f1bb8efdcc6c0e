import ShaderLink.Grammar.Parser
import ShaderLink.Scope.Tree

/-!
# Bodies

Linking needs to know where names are declared and used, not what the code around them does. So a
body is read as tokens up to the bracket that closes it, with everything inside brackets read in the
same way, and the events among them are collected.

A `let`, `var` or `const` takes effect at the end of its statement, so that in `let x = x;` the
second `x` is another one. `bodyWithin` holds such declarations back as *pending* until the next
semicolon at its own level.

A dotted path is one only where it is called: `a.b(` calls the `b` of a module `a`, while `a.b` is a
member of the value `a`.
-/

namespace ShaderLink

namespace Parser

/-- A fixed word, symbol or directive of shader code. -/
def sign (text : String) : Parser Token :=
  exactly .shader text

/-- Any word of shader code. -/
def word : Parser Token :=
  ofKind .shader .word

/-- A word of shader code that is not reserved. -/
def name : Parser Token :=
  tokenIf .shader fun t ↦ t.kind == .word && !isKeyword t.text

/-- A symbol in the quotes in which messages show it. -/
def quoted (symbol : String) : String :=
  "`" ++ symbol ++ "`"

/-- A path that starts with a word already read, the span of the whole path, and whether it is
called. -/
def referencePath (first : Token) : Parser (List String × Span × Bool) := do
  let colons ← many (sign "::" *> word)
  let dots ← optional do
    let dots ← many (sign "." *> word)
    let _ ← peek (sign "(")
    return dots
  let tokens := first :: (colons ++ dots.getD [])
  let stop := (tokens.getLastD first).span.stop
  return (tokens.map Token.text, Span.between first.span.start stop, dots.isSome)

/-- The attributes whose arguments are expressions. The arguments of others only look like it. -/
def expressionAttributes : List String :=
  ["workgroup_size", "align", "binding", "blend_src", "group", "id", "location", "size"]

/-- The arguments of an attribute, if it has any, given what reads them behind the parenthesis. -/
def attributeArgs (args : Parser (List Event)) (which : String) : Parser (List Event) := do
  if (← optional (sign "(")).isSome then
    let events ← args
    return if expressionAttributes.contains which then events else []
  else
    return []

/-- What a body is part of. -/
inductive BodyMode where
  /-- A parameter list, where a name before a colon is declared. -/
  | params
  | code
deriving DecidableEq, Repr

/-- The kind of a reference that is not called, by the token before it. -/
def referenceKind (previous : String) : ReferenceKind :=
  if [":", "->", "<"].contains previous then .type else .value

/-- What a word that is not reserved does behind a token `previous`: it declares a parameter or is a
reference. -/
def mention (mode : BodyMode) (previous : String) (t : Token) : Parser Event := do
  let declares ← match mode with
    | .params => Option.isSome <$> optional (peek (sign ":"))
    | .code => pure false
  if declares then
    return .declare t.text t.span
  else
    let (path, span, called) ← referencePath t
    return .reference path span (if called then .call else referenceKind previous)

/-- The events up to the closing bracket, which is read too, behind a token `previous` and with the
declarations `pending`. -/
def bodyWithin : Nat → String → BodyMode → String → List Event → Parser (List Event)
  | 0, _, _, _, _ => refuse
  | n + 1, closer, mode, previous, pending => do
    let t ← commit (token .shader) (quoted closer)
    let more := bodyWithin n closer mode t.text
    let inside (bracket : String) := bodyWithin n bracket .code "" []
    if t.kind = .symbol then
      if t.text = closer then
        return pending
      else
        match t.text with
        | ";" => return pending ++ (← more [])
        | "\x7b" =>
          let block ← inside "\x7d"
          return .openBlock :: (block ++ .closeBlock :: (← more pending))
        | "(" => return (← inside ")") ++ (← more pending)
        | "[" => return (← inside "]") ++ (← more pending)
        | ")" | "]" | "\x7d" => abort .brackets
        | "@" =>
          let which ← commit word "attribute name"
          return (← attributeArgs (inside ")") which.text) ++ (← more pending)
        | "." =>
          let _ ← optional word
          more pending
        | _ => more pending
    else if t.kind = .word then
      if t.text = "for" then
        -- the header of a loop is in the scope of its body
        let _ ← commit (sign "(") (quoted "(")
        let header ← inside ")"
        let _ ← commit (sign "\x7b") (quoted "\x7b")
        let block ← inside "\x7d"
        return .openBlock :: (header ++ (block ++ .closeBlock :: (← more pending)))
      else if ["let", "var", "const"].contains t.text then
        let _ ← optional (sign "<" *> inside ">")
        let found ← commit name "variable name"
        more (pending ++ [.declare found.text found.span])
      else if isKeyword t.text then
        more pending
      else
        let event ← mention mode previous t
        return event :: (← more pending)
    else
      more pending

/-- Without rounds left, no body is read. -/
theorem bodyWithin_zero (closer : String) (mode : BodyMode) (previous : String)
    (pending : List Event) : bodyWithin 0 closer mode previous pending = refuse := by
  rw [bodyWithin]

/-- The events up to the closing bracket, which is read too. -/
def bodyUntil (closer : String) (mode : BodyMode) : Parser (List Event) := do
  bodyWithin (← rounds) closer mode "" []

/-- The attributes in front of something. -/
def attributes : Parser (List Event) :=
  List.flatten <$> many do
    let _ ← sign "@"
    let which ← commit word "attribute name"
    attributeArgs (bodyUntil ")" .code) which.text

end Parser

end ShaderLink
