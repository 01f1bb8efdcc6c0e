import ShaderLink.Registry.Basic

/-!
# Targets

A path can lead to a declaration of a module or to a generator. Only what a module exports can be
reached. A path that passes through a module that could not be parsed leads nowhere and is an error.

A generator and a declaration of a module may have the same name. Asked for by name, the generator
is found; asked for everything in the module, the declaration is.
-/

namespace ShaderLink

/-- What a path leads to. -/
inductive Target where
  /-- The declaration at a place of a module. -/
  | decl (module : ModulePath) (index : Nat)
  | generator (module : ModulePath) (name : String)
deriving DecidableEq, Repr

/-- A module that is needed and could not be parsed. -/
structure BrokenModule where
  module : ModulePath
  error : ParseError

namespace Registry

variable (r : Registry)

/-- Refuses a module that could not be parsed. -/
def checkParsed (path : ModulePath) : Except BrokenModule Unit :=
  match r.failure? path with
  | some error => .error ⟨path, error⟩
  | none => .ok ()

/-- What a name means in a module, by itself. -/
def item? (module : ModulePath) (name : String) : Option Target :=
  if (r.generator? module name).isSome then
    some (.generator module name)
  else do
    let m ← r.module? module
    let d ← m.findExport? name
    return .decl module d.1

/-- What a path leads to, the last segment being a name and the rest a module. -/
def itemAt? (path : List String) : Except BrokenModule (Option Target) :=
  match path.getLast? with
  | none => .ok none
  | some name => do
    r.checkParsed path.dropLast
    return r.item? path.dropLast name

/-- Everything in a module with the paths that lead to it, if there is something of that path. Where
a path stands twice, the later one counts. -/
def members? (module : ModulePath) : Option (List (List String × Target)) :=
  let generators := (r.generatorsOf module).map fun g ↦
    (module ++ [g.name], Target.generator module g.name)
  match r.module? module with
  | some m => some (generators ++ m.exports.map fun d ↦ (module ++ [d.2.name], .decl module d.1))
  | none => if generators.isEmpty then none else some generators

/-- Everything in a module that has been parsed. -/
def membersAt? (module : ModulePath) : Except BrokenModule (Option (List (List String × Target))) :=
  do
    r.checkParsed module
    return r.members? module

end Registry

end ShaderLink
