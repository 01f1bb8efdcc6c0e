import ShaderLink.Module.Parse
import ShaderLink.OrderedMap
import ShaderLink.Sort

/-!
# Registries

A registry holds the modules that can be linked. It has room for one module a path: adding another
one of the same path replaces the first. Each module gets a key when it comes, and no key is given
twice, so that a key tells whether the module it was given for is still there.

A module that cannot be parsed is remembered by its error. Whoever imports it learns about the error
instead of missing the module.

Not every declaration is written down. A generator stands in a module like an exported declaration,
but its text is made when it is linked, from the name it gets there and from its arguments.
-/

namespace ShaderLink

/-- A declaration that is made when it is linked. -/
structure Generator where
  /-- The path of the module that it is imported from. There may be a module of this path or not. -/
  module : ModulePath
  name : String
  /-- The parameters, some of them with a value for want of an argument. -/
  params : List (String × Option String)
  /-- The text for a name and the values of parameters. -/
  generate : String → OrderedMap String String → Text

/-- What a module is known by as long as it is not replaced. -/
structure ModuleKey where
  number : Nat
deriving DecidableEq, Repr

/-- The modules and generators that can be linked. -/
structure Registry where
  /-- How modules are parsed that come as sources. -/
  options : ParseOptions
  /-- The key that is given next. -/
  nextKey : ModuleKey
  /-- The modules by key. -/
  arena : OrderedMap ModuleKey Module
  /-- The key of the module of each path. -/
  index : OrderedMap ModulePath ModuleKey
  /-- The last errors of modules that could not be parsed. -/
  failures : OrderedMap ModulePath ParseError
  /-- The generators by the paths of their modules and their names. -/
  generators : OrderedMap (ModulePath × String) Generator

namespace Registry

/-- The registry without modules. -/
def empty (options : ParseOptions) : Registry :=
  ⟨options, ⟨0⟩, .empty, .empty, .empty, .empty⟩

variable (r : Registry)

/-! ### Finding -/

/-- The key of the module of a path. -/
def key? (path : ModulePath) : Option ModuleKey :=
  r.index.get? path

/-- The module of a key, unless it has been replaced or removed. -/
def get? (key : ModuleKey) : Option Module :=
  r.arena.get? key

/-- The module of a path. -/
def module? (path : ModulePath) : Option Module :=
  (r.key? path).bind r.get?

/-- All modules, in no particular order. -/
def modules : List Module :=
  r.arena.values

/-- Why the module of a path could not be parsed. -/
def failure? (path : ModulePath) : Option ParseError :=
  r.failures.get? path

/-- The generator of a name in a module. -/
def generator? (module : ModulePath) (name : String) : Option Generator :=
  r.generators.get? (module, name)

/-- The generators in a module, in the order in which they came. -/
def generatorsOf (module : ModulePath) : List Generator :=
  r.generators.values.filter fun g ↦ g.module == module

/-- The paths of the modules that export a declaration of a name or have a generator of this name,
in the order of paths. -/
def exporters (name : String) : List ModulePath :=
  let declaring := r.modules.filter fun m ↦ (m.findExport? name).isSome
  let generating := r.generators.values.filter fun g ↦ g.name == name
  (sortBy ModulePath.before
    (declaring.map Module.path ++ generating.map Generator.module)).eraseReps

/-! ### Changing -/

/-- Adds a module, or replaces the one of its path. The answer is its key. -/
def insert (m : Module) : ModuleKey × Registry :=
  let arena := r.arena.insert r.nextKey m
  (r.nextKey,
    { r with
      nextKey := ⟨r.nextKey.number + 1⟩
      arena := match r.key? m.path with
        | some old => arena.erase old
        | none => arena
      index := r.index.insert m.path r.nextKey
      failures := r.failures.erase m.path })

/-- Takes the module of a path out. The answer is the module. -/
def remove (path : ModulePath) : Option Module × Registry :=
  match r.key? path with
  | some key => (r.get? key, { r with arena := r.arena.erase key, index := r.index.erase path })
  | none => (none, r)

/-- Parses the text of a file and adds the module. If this fails, the error takes the place of the
module, under the path that the text declares or the file has. -/
def addSource (file : String) (source : Text) : Except ParseError ModuleKey × Registry :=
  match Module.parse r.options file source with
  | .ok m =>
    let (key, r) := { r with failures := r.failures.erase (.ofFile file.toList) }.insert m
    (.ok key, r)
  | .error e =>
    let path := (ModulePath.declaredIn? source).getD (.ofFile file.toList)
    let r := (r.remove path).2
    (.error e, { r with failures := r.failures.insert path e })

/-- Adds a generator, or replaces the one of its module and name. -/
def register (g : Generator) : Registry :=
  { r with generators := r.generators.insert (g.module, g.name) g }

/-- The registry of sources, given as files and their texts, and generators. -/
def ofSources (options : ParseOptions) (sources : List (String × Text))
    (generators : List Generator) : Registry :=
  let r := sources.foldl (fun r s ↦ (r.addSource s.1 s.2).2) (empty options)
  generators.foldl register r

end Registry

end ShaderLink
