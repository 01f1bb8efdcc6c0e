import ShaderLink.Resolution.Target

/-!
# Import maps

The imports of a module are put together in an import map. It has an entry for each import, which
relates the path that the import makes visible to the absolute path of what is imported, and it
knows all targets that these entries can lead to by their absolute paths.

An import that leads nowhere still has its entry. It is only reported by a warning.
-/

namespace ShaderLink

/-- One import of a module. -/
structure ImportEntry where
  /-- The path that the import makes visible in the module. It is empty if everything below the
  absolute path is visible by itself. -/
  visible : List String
  /-- The absolute path of what is imported. -/
  exportPath : List String
  args : Option (List String)
  /-- The import statement. -/
  span : Span
deriving DecidableEq, Repr

/-- The imports of a module. -/
structure ImportMap where
  /-- The imports in the order written. -/
  entries : List ImportEntry
  /-- The targets that an import could lead to, by their absolute paths. -/
  exports : OrderedMap (List String) Target

namespace ImportLeaf

/-- The path that an imported item is visible by. -/
def visiblePath (leaf : ImportLeaf) : List String :=
  let names := leaf.path.filter fun segment ↦ !ModulePath.isMarker segment
  match leaf.localName with
  | some name => if names.isEmpty then [] else names.dropLast ++ [name]
  | none => names

end ImportLeaf

/-- What one leaf adds to an import map. -/
structure ImportMap.Part where
  entry : Option ImportEntry
  exports : List (List String × Target)
  warning : Option Warning

namespace Module

variable (m : Module) (r : Registry)

/-! ### Bare names -/

/-- The modules that the imports of a module name, and in front of them the module itself. -/
def namedModules : List ModulePath :=
  m.path :: m.importLeaves.filterMap fun leaf ↦ do
    let path ← ModulePath.resolve? m.path leaf.2.path
    if leaf.2.wildcard then some path
    else if 1 < path.length then some path.dropLast
    else none

/-- The module that an import of a bare name means: the first one named in this module that exports
the name, or else the only one at all. -/
def exporterOf? (name : String) : Option ModulePath :=
  let exporters := r.exporters name
  (m.namedModules.find? exporters.contains).orElse fun _ ↦
    match exporters with
    | [only] => some only
    | _ => none

/-! ### Single leaves -/

/-- Why nothing was found at an absolute path. -/
def missingMessage (path : List String) : String :=
  match path.getLast?, path.dropLast with
  | some name, segment :: segments =>
    let module := ModulePath.render (segment :: segments)
    if (r.module? (segment :: segments)).isSome then
      "module `" ++ module ++ "` has no export `" ++ name ++ "`"
    else
      "module `" ++ module ++ "` not found, `" ++ name ++ "` stays unresolved"
  | _, _ => "cannot find `" ++ "/".intercalate path ++ "` in any module"

/-- The part of a wildcard for everything in the module of a path. -/
def wildcardPart (span : Span) (leaf : ImportLeaf) (path : ModulePath) :
    Except BrokenModule ImportMap.Part := do
  let members ← r.membersAt? path
  return {
    entry := some ⟨leaf.localName.toList, path, none, span⟩
    exports := members.getD []
    warning :=
      if members.isSome then none
      else some (m.warning span.start ("module `" ++ ModulePath.render path ++ "` not found")) }

/-- The part of an item at a path. The item may be a declaration, a generator or a whole module. -/
def itemPart (span : Span) (leaf : ImportLeaf) (path : List String) :
    Except BrokenModule ImportMap.Part := do
  let entry (path : List String) : ImportEntry := ⟨leaf.visiblePath, path, leaf.args, span⟩
  let item ← r.itemAt? path
  let members ← r.membersAt? path
  if item.isSome || members.isSome then
    return ⟨some (entry path), (item.map fun t ↦ (path, t)).toList ++ members.getD [], none⟩
  let missing : ImportMap.Part :=
    ⟨some (entry path), [], some (m.warning span.start (missingMessage r path))⟩
  match leaf.path with
  | [name] =>
    match m.exporterOf? r name with
    | some module =>
      let path := module ++ [name]
      let item ← r.itemAt? path
      return ⟨some (entry path), (item.map fun t ↦ (path, t)).toList, none⟩
    | none => return missing
  | _ => return missing

/-- The part of any leaf. -/
def importPart (span : Span) (leaf : ImportLeaf) : Except BrokenModule ImportMap.Part :=
  match ModulePath.resolve? m.path leaf.path with
  | none =>
    .ok ⟨none, [], some (m.warning span.start
      ("import `" ++ "/".intercalate leaf.path ++ "` leaves the root"))⟩
  | some path =>
      if leaf.wildcard then m.wildcardPart r span leaf path else m.itemPart r span leaf path

/-! ### All leaves -/

/-- The import map of a module, and the warnings about its imports. -/
def importMap : Except BrokenModule (ImportMap × List Warning) := do
  let parts ← m.importLeaves.mapM fun leaf ↦ m.importPart r leaf.1 leaf.2
  return (⟨parts.filterMap ImportMap.Part.entry,
    .ofList (parts.flatMap ImportMap.Part.exports)⟩,
    parts.filterMap ImportMap.Part.warning)

end Module

end ShaderLink
