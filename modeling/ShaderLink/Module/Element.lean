import ShaderLink.Import.Tree
import ShaderLink.Scope.Tree

/-!
# Elements of a module

A parsed module is a list of elements in the order of the text. A declaration is followed by the
elements found inside it, so that an element is known by its place in the list.
-/

namespace ShaderLink

/-- What a declaration at module level declares. -/
inductive DeclKind where
  | fn
  | struct
  | var
  | const
  | override
  | typeAlias
deriving DecidableEq, Repr

/-- The two ways of writing imports. They differ only in their syntax. -/
inductive ImportDialect where
  /-- A directive, as in `#import foo(args) as bar from baz`. -/
  | directive
  /-- A statement, as in `import a/b/{c, d};`. -/
  | tree
deriving DecidableEq, Repr

/-- A declaration at module level. -/
structure Decl where
  kind : DeclKind
  name : String
  /-- The identifier that the name is in the scope tree. -/
  ident : IdentId
  nameSpan : Span
  /-- The whole declaration with its attributes. -/
  span : Span
  /-- The scope of the signature and the body. -/
  scope : ScopeId
  exported : Bool
  /-- The parameters that an import can give arguments for. -/
  params : List String
  /-- The place of the first element inside. -/
  firstChild : Nat
  /-- The number of elements inside. -/
  childCount : Nat
deriving DecidableEq, Repr

/-- A use of a name. -/
structure Reference where
  kind : ReferenceKind
  path : List String
  /-- The span of the whole path. -/
  span : Span
  /-- The identifier that the use is in the scope tree. -/
  ident : IdentId
deriving DecidableEq, Repr

/-- A part of a module. -/
inductive Element where
  /-- The module's path. -/
  | module (path : List String) (span : Span)
  | importing (tree : ImportTree) (dialect : ImportDialect) (span : Span)
  /-- A mark that the next declaration is exported. -/
  | exporting (params : List String) (span : Span)
  | decl (decl : Decl)
  /-- A member of the struct before it. -/
  | member (name : String) (span : Span)
  | reference (reference : Reference)
  /-- Text at module level that declares nothing. -/
  | text (span : Span)
deriving Repr

namespace Element

/-- The stretch of text that an element is. -/
def span : Element → Span
  | module _ span => span
  | importing _ _ span => span
  | exporting _ span => span
  | decl d => d.span
  | member _ span => span
  | reference r => r.span
  | text span => span

/-- The declaration that an element is, if it is one. -/
def decl? : Element → Option Decl
  | decl d => some d
  | _ => none

/-- The reference that an element is, if it is one. -/
def reference? : Element → Option Reference
  | reference r => some r
  | _ => none

/-- Whether an element only directs the linking and is no part of the shader. -/
def isLinkage : Element → Bool
  | module .. => true
  | importing .. => true
  | exporting .. => true
  | _ => false

end Element

end ShaderLink
