import ShaderLink.Link.Linkage

/-!
# Linking references

To link a reference is to find the instance it refers to. Inside a module, a reference to one of its
declarations means the instance with the same values of parameters, since these are in force
throughout. A reference to something imported means the instance with the values that the import's
arguments have.

An argument may be the name of a parameter, of a declaration or of something imported, and is then
linked like a reference; any other argument is taken as it is.
-/

namespace ShaderLink

/-- A computation that goes on with a linkage. -/
abbrev Linking := StateT Linkage (Except LinkError)

/-- Adds a warning. -/
def Linking.warn (w : Warning) : Linking Unit :=
  modify fun l ↦ { l with warnings := l.warnings ++ [w] }

namespace LinkJob

variable (job : LinkJob)

/-- The import map of a module. The warnings about its imports come up when it is needed first. -/
def importMapOf (m : Module) : Linking ImportMap := do
  match (← get).importMaps.get? m.path with
  | some imports => return imports
  | none =>
    match m.importMap job.registry with
    | .error b => throw (.broken b)
    | .ok (imports, warnings) =>
      modify fun l ↦ { l with
        importMaps := l.importMaps.insert m.path imports
        warnings := l.warnings ++ warnings }
      return imports

/-! ### Arguments -/

/-- The value of an import's argument in a declaration whose parameters have the values `args`. An
imported name that has arguments of its own is taken as it is. -/
def argValue (importer : Module) (args : Args) (arg : String) : Linking String :=
  match args.find? fun a ↦ a.1 == arg with
  | some a => return a.2
  | none =>
    match importer.findDecl? arg with
    | some d => modifyGet (job.reach ⟨.decl importer.path d.1, args⟩)
    | none => do
      match (← job.importMapOf importer).resolve [arg] with
      | .found target _ none => modifyGet (job.reach ⟨target, []⟩)
      | _ => return arg

/-- The parameters of a target, some of them with a value for want of an argument. -/
def paramsOf : Target → List (String × Option String)
  | .decl module index =>
    ((job.decl? module index).map fun d ↦ d.2.params.map fun p ↦ (p, none)).getD []
  | .generator module name =>
    ((job.registry.generator? module name).map Generator.params).getD []

/-- The value of a parameter. It comes from the argument if there is one, or else from the options
or from the parameter itself. -/
def paramValue? (importer : Module) (args : Args) (param : String × Option String) :
    Option String → Linking (Option String)
  | some arg => some <$> job.argValue importer args arg
  | none => return (job.options.params.get? param.1).or param.2

/-- The values of parameters for the arguments given. A parameter that gets no value is left out,
unless all are `required`: then it stands for itself, and a warning says so. -/
def bindParams (importer : Module) (args : Args) (required : Bool) (span : Span) :
    List (String × Option String) → List String → Linking Args
  | [], _ => return []
  | param :: params, given => do
    let bound ← match ← job.paramValue? importer args param given.head? with
      | some value => pure [(param.1, value)]
      | none =>
        if required then
          Linking.warn (importer.warning span.start
            ("no value for generator parameter `" ++ param.1 ++ "`"))
          pure [(param.1, param.1)]
        else
          pure []
    return bound ++ (← bindParams importer args required span params given.tail)

/-- The instance of an imported target that is meant by the arguments given. A generator requires
all its parameters. -/
def importedInstance (importer : Module) (args : Args) (target : Target) (given : List String)
    (span : Span) : Linking InstanceKey := do
  let required := match target with
    | .decl .. => false
    | .generator .. => true
  return ⟨target, ← job.bindParams importer args required span (job.paramsOf target) given⟩

/-! ### References -/

/-- The linked name of what a reference bound to a declaration refers to, unless that is local. -/
def linkBound (m : Module) (args : Args) (binding : IdentId) : Linking (Option String) :=
  if m.scopes.isGlobal binding then
    match m.decls.find? fun d ↦ d.2.ident == binding with
    | some d => some <$> modifyGet (job.reach ⟨.decl m.path d.1, args⟩)
    | none => return none
  else
    return none

/-- The linked name of what a reference refers to by the imports. -/
def linkImported (m : Module) (args : Args) (reference : Reference) : Linking (Option String) := do
  match (← job.importMapOf m).resolve reference.path with
  | .found target _ given =>
    let key ← job.importedInstance m args target (given.getD []) reference.span
    some <$> modifyGet (job.reach key)
  | .unresolved =>
    if 1 < reference.path.length then
      Linking.warn (m.warning reference.span.start
        ("unresolved reference `" ++ codePath reference.path ++ "`"))
    return none
  | .ambiguous candidates => throw (.ambiguous m.path (codePath reference.path) candidates)

/-- The linked name of what a reference in a declaration refers to, unless the reference stays as it
is written. -/
def linkReference (m : Module) (args : Args) (reference : Reference) : Linking (Option String) :=
  match m.scopes.idents[reference.ident]?.bind Ident.binding with
  | some binding => job.linkBound m args binding
  | none =>
    if args.any fun a ↦ [a.1] == reference.path then return none
    else job.linkImported m args reference

end LinkJob

end ShaderLink
