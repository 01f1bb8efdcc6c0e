import ShaderLink.Link.Error
import ShaderLink.Link.Name
import ShaderLink.Splice

/-!
# Linkages

A linkage is what has been linked so far. It consists of **instances**: a declaration or generator
together with the values of its parameters, and with the name that it has in the linked text. The
same target with other values is another instance of another name.

An instance never changes its name, and new names avoid all names taken. These are the names of
instances, the names that the root declares, and the names that any module declares inside its
declarations, so that no reference to an instance comes to mean something local.
-/

namespace ShaderLink

/-- How modules are linked. -/
structure LinkOptions where
  /-- Values for parameters that an import gives no argument for. -/
  params : OrderedMap String String
  /-- Whether a module that contributes a declaration contributes all of them. -/
  wholeFile : Bool

/-- The values of parameters, in the order of the parameters. -/
abbrev Args := List (String × String)

/-- What makes an instance. -/
structure InstanceKey where
  target : Target
  args : Args
deriving DecidableEq, Repr

/-- What an instance is in the linked text. -/
structure Instance where
  name : String
  /-- The splices that give the declaration its name and its references the names of theirs. -/
  renames : List Splice
deriving DecidableEq, Repr

/-- What has been linked. -/
structure Linkage where
  /-- The instances in the order in which they were reached. -/
  instances : OrderedMap InstanceKey Instance
  /-- The names that a new instance cannot have. -/
  taken : List String
  /-- The import maps of modules that have been needed. -/
  importMaps : OrderedMap ModulePath ImportMap
  /-- The modules that contribute declarations in the order in which they were reached. -/
  modules : List ModulePath
  warnings : List Warning

/-- The task of linking a module with everything it needs. -/
structure LinkJob where
  registry : Registry
  options : LinkOptions
  root : Module

namespace LinkJob

variable (job : LinkJob)

/-- The declaration at a place of a module. -/
def decl? (module : ModulePath) (index : Nat) : Option (Module × Decl) := do
  let m ← job.registry.module? module
  let d ← m.decl? index
  return (m, d)

/-- The name of a target where it comes from. -/
def nameOf : Target → String
  | .decl module index => ((job.decl? module index).map fun d ↦ d.2.name).getD ""
  | .generator _ name => name

/-! ### Reaching instances -/

/-- The linkage at the start. The declarations of the root keep their names, even if two of them
have the same. -/
def start : Linkage where
  instances := .ofList (job.root.decls.map fun d ↦
    (⟨.decl job.root.path d.1, []⟩, ⟨d.2.name, []⟩))
  taken := job.root.decls.map (fun d ↦ d.2.name) ++
    job.registry.modules.flatMap fun m ↦ m.scopes.localNames
  importMaps := .empty
  modules := [job.root.path]
  warnings := []

/-- The name of an instance, which is added if it is new. -/
def addInstance (key : InstanceKey) (l : Linkage) : String × Linkage :=
  match l.instances.get? key with
  | some i => (i.name, l)
  | none =>
    let name := freshName (job.nameOf key.target) l.taken
    (name, { l with
      instances := l.instances.insert key ⟨name, []⟩
      taken := name :: l.taken })

/-- Adds a module to those that contribute, and if asked for with all its declarations. -/
def addModule (module : ModulePath) (l : Linkage) : Linkage :=
  if module ∈ l.modules then l
  else
    let l := { l with modules := l.modules ++ [module] }
    let decls := if job.options.wholeFile then
      ((job.registry.module? module).map Module.decls).getD [] else []
    decls.foldl (fun l d ↦ (job.addInstance ⟨.decl module d.1, []⟩ l).2) l

/-- The name of an instance, which is added together with its module if it is new. -/
def reach (key : InstanceKey) (l : Linkage) : String × Linkage :=
  let (name, l) := job.addInstance key l
  match key.target with
  | .decl module _ => (name, job.addModule module l)
  | .generator .. => (name, l)

end LinkJob

end ShaderLink
