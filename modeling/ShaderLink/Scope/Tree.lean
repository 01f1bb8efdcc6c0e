import ShaderLink.Text.Span

/-!
# Scope trees

Reading a declaration gives a list of events, in the order of the text: names declared, names used,
blocks opened and closed. Scopes are built from these events alone.

The scopes of a module form a tree: the module's own scope at the root, below it one scope for each
declaration's signature and body, below those the blocks. Scopes and identifiers are numbered in the
order in which they are made, and everything refers to them by number, so that the number of an
identifier also says what was declared before it.

A tree is built by `ScopeTree.pushScope` and `ScopeTree.addIdent`. What its references mean is
settled afterwards, by `ScopeTree.bindAll`.
-/

namespace ShaderLink

/-! ### Events -/

/-- How a name is used. -/
inductive ReferenceKind where
  | call
  | type
  | value
deriving DecidableEq, Repr

/-- Something that matters for the meaning of names. -/
inductive Event where
  /-- A name is declared. -/
  | declare (name : String) (span : Span)
  /-- A name is used, by itself or at the end of a path. -/
  | reference (path : List String) (span : Span) (kind : ReferenceKind)
  | openBlock
  | closeBlock
  /-- A member of a struct is declared. Members are in no scope. -/
  | member (name : String) (span : Span)
deriving DecidableEq, Repr

/-! ### Scopes -/

/-- The number of a scope. -/
abbrev ScopeId := Nat

/-- The number of an identifier. -/
abbrev IdentId := Nat

/-- What a scope belongs to. -/
inductive ScopeKind where
  | module
  /-- The signature and body of a declaration at module level. -/
  | body
  | block
deriving DecidableEq, Repr

/-- A region in which declared names can be seen. -/
structure Scope where
  kind : ScopeKind
  parent : Option ScopeId
  /-- The identifiers in the scope itself, in order. -/
  idents : List IdentId
  children : List ScopeId
deriving DecidableEq, Repr

/-- Whether an identifier gives a name or uses one. -/
inductive IdentKind where
  | decl
  | ref
deriving DecidableEq, Repr

/-- A name in the text. -/
structure Ident where
  kind : IdentKind
  /-- The name, of a path the last segment. -/
  name : String
  /-- The number of segments of the path. -/
  segments : Nat
  span : Span
  scope : ScopeId
  /-- The declaration that a reference is bound to. -/
  binding : Option IdentId
deriving DecidableEq, Repr

/-- The scopes and identifiers of a module. -/
structure ScopeTree where
  scopes : Array Scope
  idents : Array Ident
deriving DecidableEq, Repr

namespace ScopeTree

/-- The number of the module's scope. -/
def root : ScopeId := 0

/-- The tree with nothing but the module's scope. -/
def empty : ScopeTree :=
  ⟨#[⟨.module, none, [], []⟩], #[]⟩

/-- Adds a scope below `parent`. Its number is the number of scopes there were. -/
def pushScope (t : ScopeTree) (parent : ScopeId) (kind : ScopeKind) : ScopeTree where
  scopes := (t.scopes.push ⟨kind, some parent, [], []⟩).modify parent fun s ↦
    { s with children := s.children ++ [t.scopes.size] }
  idents := t.idents

/-- Adds an identifier to a scope. Its number is the number of identifiers there were. -/
def addIdent (t : ScopeTree) (scope : ScopeId) (kind : IdentKind) (name : String) (segments : Nat)
    (span : Span) : ScopeTree where
  scopes := t.scopes.modify scope fun s ↦ { s with idents := s.idents ++ [t.idents.size] }
  idents := t.idents.push ⟨kind, name, segments, span, scope, none⟩

/-- Whether an identifier is in the module's scope. -/
def isGlobal (t : ScopeTree) (id : IdentId) : Bool :=
  t.idents[id]?.any fun ident ↦ ident.scope == root

/-- The names declared anywhere but in the module's scope, in order. -/
def localNames (t : ScopeTree) : List String :=
  (t.idents.toList.filter fun ident ↦ ident.kind == .decl && ident.scope != root).map Ident.name

/-! ### Binding -/

/-- The last declaration of a name in a scope that can be seen from the identifier `user`. In the
module's scope every declaration can, elsewhere only an earlier one. -/
def findIn (t : ScopeTree) (scope : Scope) (name : String) (user : IdentId) : Option IdentId :=
  scope.idents.reverse.find? fun id ↦
    (scope.kind == .module || id < user) &&
      t.idents[id]?.any fun ident ↦ ident.kind == .decl && ident.name == name

/-- The declaration of a name that can be seen from the identifier `user` in the scope `id`: the
scope's own, or else the one that can be seen in its parent. Parents have smaller numbers. -/
def lookup (t : ScopeTree) (name : String) (user : IdentId) (id : ScopeId) : Option IdentId :=
  match t.scopes[id]? with
  | none => none
  | some scope =>
    match t.findIn scope name user, scope.parent with
    | some found, _ => some found
    | none, none => none
    | none, some parent => if parent < id then t.lookup name user parent else none
termination_by id

/-- Binds a reference of a single segment, unless it is bound already. -/
def bind (t : ScopeTree) (id : IdentId) (ident : Ident) : Ident :=
  if ident.kind = .ref ∧ ident.segments = 1 ∧ ident.binding = none then
    { ident with binding := t.lookup ident.name id ident.scope }
  else
    ident

/-- Binds every reference of a single segment to the declaration that can be seen from it. -/
def bindAll (t : ScopeTree) : ScopeTree :=
  { t with idents := t.idents.mapIdx t.bind }

end ScopeTree

end ShaderLink
