import ShaderLink.Module.Item
import ShaderLink.Module.Path

/-!
# Assembling a module

Items become elements, and the events inside declarations become scopes. Declarations at module
level are visible everywhere in the module, so their identifiers are made before all others: the
number of such an identifier is the number of declarations before it.
-/

namespace ShaderLink

/-! ### Scopes of one declaration -/

/-- A declaration whose events have been read in part. -/
structure BodyAssembly where
  scopes : ScopeTree
  /-- The scopes of the open blocks, the innermost first. -/
  blocks : List ScopeId
  /-- The elements found. -/
  children : List Element

namespace BodyAssembly

/-- Reads one event of the declaration whose scope is `body`. -/
def event (body : ScopeId) (a : BodyAssembly) (e : Event) : BodyAssembly :=
  let current := a.blocks.headD body
  match e with
  | .declare name span => { a with scopes := a.scopes.addIdent current .decl name 1 span }
  | .reference path span kind =>
    { a with
      scopes := a.scopes.addIdent current .ref (path.getLastD "") path.length span
      children := a.children ++ [.reference ⟨kind, path, span, a.scopes.idents.size⟩] }
  | .openBlock =>
    { a with
      scopes := a.scopes.pushScope current .block
      blocks := a.scopes.scopes.size :: a.blocks }
  | .closeBlock => { a with blocks := a.blocks.tail }
  | .member name span => { a with children := a.children ++ [.member name span] }

/-- Makes the scope of a declaration and reads its events. -/
def ofEvents (scopes : ScopeTree) (events : List Event) : BodyAssembly :=
  events.foldl (event scopes.scopes.size)
    ⟨scopes.pushScope ScopeTree.root .body, [], []⟩

end BodyAssembly

/-! ### Elements of the module -/

/-- A module of which some items have been read. -/
structure Assembly where
  path : Option ModulePath
  elements : List Element
  scopes : ScopeTree
  /-- What is wrong, with the span that it is about. -/
  problems : List (Span × String)
  /-- The parameters and the span of a mark that no declaration has followed yet. -/
  pendingExport : Option (List String × Span)
  /-- The number of declarations read. -/
  declCount : Nat

namespace Assembly

/-- The problem with a mark that no declaration follows. -/
def unusedExport (pending : Option (List String × Span)) : List (Span × String) :=
  pending.toList.map fun mark ↦ (mark.2, "#export is not followed by a declaration")

/-- Reads a declaration. -/
def decl (exportsAll : Bool) (a : Assembly) (d : DeclItem) : Assembly :=
  let word := d.exportSpan.toList.map fun word ↦
    Element.exporting [] (Span.between word.start d.span.start)
  let body := BodyAssembly.ofEvents a.scopes d.events
  let firstChild := a.elements.length + word.length + 1
  let decl := Element.decl {
    kind := d.kind
    name := d.name.text
    ident := a.declCount
    nameSpan := d.name.span
    span := d.span
    scope := a.scopes.scopes.size
    exported := exportsAll || a.pendingExport.isSome || d.exportSpan.isSome
    params := (a.pendingExport.map Prod.fst).getD []
    firstChild
    childCount := body.children.length }
  { a with
    elements := a.elements ++ (word ++ decl :: body.children)
    scopes := body.scopes
    pendingExport := none
    declCount := a.declCount + 1 }

/-- Reads an item. -/
def item (exportsAll : Bool) (a : Assembly) : Item → Assembly
  | .module path span =>
    { a with path := some path, elements := a.elements ++ [.module path span] }
  | .importing tree dialect span =>
    { a with elements := a.elements ++ [.importing tree dialect span] }
  | .exporting params span =>
    { a with
      elements := a.elements ++ [.exporting params span]
      problems := a.problems ++ unusedExport a.pendingExport
      pendingExport := some (params, span) }
  | .decl d => a.decl exportsAll d
  | .text span => { a with elements := a.elements ++ [.text span] }
  | .stray _ => a

/-- The problems with tokens that start nothing. -/
def strayProblems (items : List Item) : List (Span × String) :=
  items.filterMap fun
    | .stray t => some (t.span, "unexpected `" ++ t.text ++ "` at module level, skipped")
    | _ => none

/-- The scope tree with nothing but the identifiers of the declarations at module level. -/
def globalScope (items : List Item) : ScopeTree :=
  (items.filterMap Item.decl?).foldl
    (fun scopes d ↦ scopes.addIdent ScopeTree.root .decl d.name.text 1 d.name.span) .empty

/-- Assembles items. Without any mark, every declaration is exported. -/
def ofItems (items : List Item) : Assembly :=
  let exportsAll := !items.any Item.marksExport
  let start : Assembly := ⟨none, [], globalScope items, strayProblems items, none, 0⟩
  let a := items.foldl (item exportsAll) start
  { a with
    scopes := a.scopes.bindAll
    problems := a.problems ++ unusedExport a.pendingExport }

end Assembly

end ShaderLink
