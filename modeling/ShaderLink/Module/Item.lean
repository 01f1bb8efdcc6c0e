import ShaderLink.Grammar.Body
import ShaderLink.Import.Syntax
import ShaderLink.Module.Element

/-!
# Items

The text of a module is read as a sequence of items: the statements and declarations at module
level. Whatever starts no item is a stray token, which is skipped with a warning, so that only
constructs that were begun can fail.
-/

namespace ShaderLink

/-- A declaration as it is read, before scopes are known. -/
structure DeclItem where
  kind : DeclKind
  name : Token
  span : Span
  /-- The span of the word `export` in front. -/
  exportSpan : Option Span
  events : List Event
deriving DecidableEq, Repr

/-- A statement or declaration at module level. -/
inductive Item where
  | module (path : List String) (span : Span)
  | importing (tree : ImportTree) (dialect : ImportDialect) (span : Span)
  | exporting (params : List String) (span : Span)
  | decl (decl : DeclItem)
  | text (span : Span)
  /-- A token that starts nothing. -/
  | stray (token : Token)
deriving Repr

namespace Item

/-- The declaration that an item is, if it is one. -/
def decl? : Item → Option DeclItem
  | decl d => some d
  | _ => none

/-- Whether an item marks something as exported. -/
def marksExport : Item → Bool
  | exporting .. => true
  | decl d => d.exportSpan.isSome
  | _ => false

end Item

namespace Parser

/-! ### Statements -/

/-- The module's own path. -/
def moduleItem : Parser Item := do
  let (path, span) ← spanned .shader do
    let _ ← firstOf [sign "module", sign "#module"]
    let path ← commit modulePath "module path"
    commit lineEnd "end of line"
    return path
  return .module path span

/-- An import in either dialect. -/
def importItem : Parser Item := do
  let ((tree, dialect), span) ← spanned .shader <| firstOf [
    do
      let _ ← sign "#import"
      let tree ← commit importFrom "import"
      commit lineEnd "end of import"
      return (tree, ImportDialect.directive),
    do
      let _ ← sign "import"
      let tree ← commit importTree "import path"
      commit lineEnd "end of import"
      return (tree, ImportDialect.tree)]
  return .importing tree dialect span

/-- A mark that the declaration behind it is exported, on a line of its own or not. -/
def exportItem : Parser Item := do
  let (params, span) ← spanned .shader do
    let _ ← sign "#export"
    let params ← exportParams
    let _ ← optional lineEnd
    return params
  return .exporting params span

/-- A statement that is kept as it is. -/
def textItem : Parser Item := do
  let ((), span) ← spanned .shader <| firstOf [
    do
      let _ ← sign ";",
    do
      let _ ← firstOf [sign "enable", sign "requires", sign "diagnostic", sign "const_assert"]
      let _ ← bodyUntil ";" .code]
  return .text span

/-! ### Declarations -/

/-- A function: parameters, return type and body. -/
def functionDecl : Parser (DeclKind × Token × List Event) := do
  let _ ← sign "fn"
  let declared ← commit name "function name"
  let _ ← commit (sign "(") (quoted "(")
  let params ← bodyUntil ")" .params
  let result ← bodyUntil "\x7b" .code
  let body ← bodyUntil "\x7d" .code
  return (.fn, declared, params ++ (result ++ body))

/-- The type of a struct member at a depth of angle brackets, up to the comma behind it, which is
read too, or to the brace that closes the struct. -/
def memberTypeWithin : Nat → Nat → Parser (List Event)
  | 0, _ => refuse
  | n + 1, depth => do
    let before ← here
    let t ← commit (token .shader) (quoted "\x7d")
    match t.kind, t.text with
    | .symbol, "<" => memberTypeWithin n (depth + 1)
    | .symbol, ">" => memberTypeWithin n (depth - 1)
    | .symbol, "," => if depth = 0 then return [] else memberTypeWithin n depth
    | .symbol, "\x7d" =>
      if depth = 0 then
        goBack before
        return []
      else
        memberTypeWithin n depth
    | .symbol, "(" => return (← bodyUntil ")" .code) ++ (← memberTypeWithin n depth)
    | .word, text =>
      if isKeyword text then
        memberTypeWithin n depth
      else
        let (path, span, _) ← referencePath t
        return .reference path span .type :: (← memberTypeWithin n depth)
    | _, _ => memberTypeWithin n depth

/-- The members of a struct, up to the brace that closes it, which is read too. -/
def membersWithin : Nat → Parser (List Event)
  | 0 => refuse
  | n + 1 => do
    if (← optional (sign "\x7d")).isSome then
      return []
    else
      let marks ← attributes
      let member ← commit word "member name"
      let _ ← commit (sign ":") (quoted ":")
      let type ← memberTypeWithin (← rounds) 0
      return marks ++ .member member.text member.span :: (type ++ (← membersWithin n))

/-- A struct. -/
def structDecl : Parser (DeclKind × Token × List Event) := do
  let _ ← sign "struct"
  let declared ← commit name "struct name"
  let _ ← commit (sign "\x7b") (quoted "\x7b")
  let events ← membersWithin (← rounds)
  return (.struct, declared, events)

/-- A variable, constant or override. The address space and access mode of a variable name
nothing that can be declared. -/
def valueDecl : Parser (DeclKind × Token × List Event) := do
  let kind ← firstOf [
    (fun _ ↦ DeclKind.var) <$> sign "var",
    (fun _ ↦ DeclKind.const) <$> sign "const",
    (fun _ ↦ DeclKind.override) <$> sign "override"]
  let _ ← optional (sign "<" *> bodyUntil ">" .code)
  let declared ← commit name "name"
  let events ← bodyUntil ";" .code
  return (kind, declared, events)

/-- A type alias. -/
def aliasDecl : Parser (DeclKind × Token × List Event) := do
  let _ ← sign "alias"
  let declared ← commit name "alias name"
  let _ ← commit (sign "=") (quoted "=")
  let events ← bodyUntil ";" .code
  return (.typeAlias, declared, events)

/-- A declaration with its attributes. -/
def unmarkedDecl : Parser (DeclKind × Token × List Event) := do
  let marks ← attributes
  let (kind, declared, events) ← firstOf [functionDecl, structDecl, valueDecl, aliasDecl]
  return (kind, declared, marks ++ events)

/-- A declaration, perhaps marked as exported. Behind the word `export` there must be one. -/
def declItem : Parser Item := do
  let mark ← optional (spanned .shader (sign "export"))
  let decl := spanned .shader unmarkedDecl
  let ((kind, declared, events), span) ← if mark.isSome then insist decl else decl
  return .decl ⟨kind, declared, span, mark.map Prod.snd, events⟩

/-! ### Modules -/

/-- A token that starts nothing. -/
def strayItem : Parser Item :=
  Item.stray <$> token .shader

/-- An item. -/
def item : Parser Item :=
  firstOf [moduleItem, importItem, exportItem, textItem, declItem, strayItem]

/-- All items of a module. -/
def items : Parser (List Item) := do
  let items ← many item
  finished .shader
  return items

end Parser

end ShaderLink
