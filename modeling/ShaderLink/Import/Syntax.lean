import ShaderLink.Grammar.Parser
import ShaderLink.Import.Tree

/-!
# The syntax of imports

What stands behind `import`, `#import`, `#export` and `module` on the same line. The three
separators of a path mean the same and may be mixed. Only the items between braces may be spread
over several lines.
-/

namespace ShaderLink

namespace Parser

/-! ### Words and paths -/

/-- A fixed word or symbol of a directive. -/
def mark (text : String) : Parser Token :=
  exactly .directive text

/-- A word of a directive. -/
def directiveWord : Parser String :=
  Token.text <$> ofKind .directive .word

/-- What separates the segments of a path. -/
def pathSeparator : Parser Token :=
  firstOf [mark "/", mark "::", mark "."]

/-- The markers that a relative path starts with. -/
def relativeMarkers : Parser (List String) :=
  many do
    let t ← ofKind .directive .relativePrefix
    return if t.text == "./" then "." else ".."

/-- Any number of line breaks. -/
def lineBreaks : Parser Unit := do
  let _ ← many (ofKind .directive .lineBreak)

/-- A path to a module without the file extension it may be written with. -/
def dropExtension (segments : List String) : List String :=
  if 1 < segments.length && segments.getLast?.any (["wgsl", "wesl"].contains ·) then
    segments.dropLast
  else
    segments

/-- A path to a module, perhaps relative. -/
def modulePath : Parser (List String) := do
  let markers ← relativeMarkers
  let words ← separated₁ directiveWord pathSeparator
  return dropExtension (markers ++ words)

/-! ### Trees -/

/-- Another name for what is imported. -/
def importAlias : Parser String :=
  mark "as" *> commit directiveWord "alias name"

/-- Words and numbers in parentheses. -/
def importArgs : Parser (List String) := do
  let _ ← mark "("
  let args ← separated (orElse (ofKind .directive .word) (ofKind .directive .number)) (mark ",")
  let _ ← commit (mark ")") "`)`"
  return args.map Token.text

mutual

/-- The rest of an import tree of which the given segments have been read. -/
def treeWithin : Nat → List String → Parser ImportTree
  | 0, _ => refuse
  | n + 1, segments => do
    if (← optional (mark "\x7b")).isSome then
      return (ImportTree.list (← listWithin n)).under segments
    else if (← optional (mark "*")).isSome then
      return (ImportTree.wildcard (← optional importAlias)).under segments
    else
      let name ← commit directiveWord "import path segment"
      if (← optional pathSeparator).isSome then
        treeWithin n (segments ++ [name])
      else
        let args ← optional importArgs
        let localName ← optional importAlias
        return (ImportTree.item name localName args).under segments

/-- The rest of a list of import trees, up to the brace that closes it. -/
def listWithin : Nat → Parser (List ImportTree)
  | 0 => refuse
  | n + 1 => do
    lineBreaks
    if (← optional (mark "\x7d")).isSome then
      return []
    else
      let markers ← relativeMarkers
      let tree ← treeWithin n markers
      lineBreaks
      if (← optional (mark ",")).isSome then
        return tree :: (← listWithin n)
      else
        lineBreaks
        let _ ← commit (mark "\x7d") "`,` or `\x7d`"
        return [tree]

end

/-- An import tree. Reading a list and reading its first tree take two rounds for one brace. -/
def importTree : Parser ImportTree := do
  let markers ← relativeMarkers
  treeWithin (2 * (← rounds)) markers

/-- An import tree and perhaps the module it is in. -/
def importFrom : Parser ImportTree := do
  let tree ← importTree
  match ← optional (mark "from" *> commit modulePath "module path") with
  | some path => return tree.under path
  | none => return tree

/-! ### The rest of the line -/

/-- The parameters of an export, if it has any. -/
def exportParams : Parser (List String) := do
  return (← optional importArgs).getD []

/-- The end of a directive: a semicolon, the end of the line, or both. -/
def lineEnd : Parser Unit :=
  firstOf [
    do
      let _ ← mark ";"
      let _ ← optional (ofKind .directive .lineBreak),
    do
      let _ ← ofKind .directive .lineBreak,
    finished .directive]

end Parser

end ShaderLink
