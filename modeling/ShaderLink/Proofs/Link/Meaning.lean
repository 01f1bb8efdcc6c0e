import ShaderLink.Proofs.Link.Valid

/-!
# What references mean

Which instance a reference means can be read off a closed linkage, without running the linker: it is
given by the module, the values of its parameters, and the names of the instances that arguments of
imports refer to (`LinkJob.referenceKey?`). Linking a reference answers with the name of this very
instance, in every linkage that grows from there (`LinkJob.keeps_linkReference`).

The proofs follow the definitions of the linker with one rule for each way of putting computations
together (`LinkJob.Keeps`).
-/

namespace ShaderLink

/-- The declaration of its module that a reference is bound to. -/
def Module.binding? (m : Module) (reference : Reference) : Option IdentId :=
  m.scopes.idents[reference.ident]?.bind Ident.binding

namespace LinkJob

variable (job : LinkJob)

/-! ### The instance that a reference means -/

/-- What the imports of a module make of a path. -/
def resolution (m : Module) (path : List String) : Resolution :=
  match m.importMap job.registry with
  | .ok (imports, _) => imports.resolve path
  | .error _ => .unresolved

/-- The instance that an import's argument names, if it names one. -/
def argKey? (importer : Module) (args : Args) (arg : String) : Option InstanceKey :=
  match importer.findDecl? arg with
  | some d => some ⟨.decl importer.path d.1, args⟩
  | none =>
    match job.resolution importer [arg] with
    | .found target _ none => some ⟨target, []⟩
    | _ => none

/-- The value of an import's argument in a closed linkage. -/
def argIn (l : Linkage) (importer : Module) (args : Args) (arg : String) : String :=
  match args.find? fun a ↦ a.1 == arg with
  | some a => a.2
  | none => ((job.argKey? importer args arg).bind l.name?).getD arg

/-- The value of a parameter in a closed linkage. -/
def paramIn? (l : Linkage) (importer : Module) (args : Args) (param : String × Option String) :
    Option String → Option String
  | some arg => some (job.argIn l importer args arg)
  | none => (job.options.params.get? param.1).or param.2

/-- The values of parameters in a closed linkage, for the arguments given. -/
def paramsIn (l : Linkage) (importer : Module) (args : Args) (required : Bool) :
    List (String × Option String) → List String → Args
  | [], _ => []
  | param :: params, given =>
    (match job.paramIn? l importer args param given.head? with
      | some value => [(param.1, value)]
      | none => if required then [(param.1, param.1)] else []) ++
      paramsIn l importer args required params given.tail

/-- The instance of an imported target in a closed linkage, for the arguments given. -/
def importedKey (l : Linkage) (importer : Module) (args : Args) (target : Target)
    (given : List String) : InstanceKey :=
  let required := match target with
    | .decl .. => false
    | .generator .. => true
  ⟨target, job.paramsIn l importer args required (job.paramsOf target) given⟩

/-- The instance that a reference bound to a declaration means, unless that is local. -/
def boundKey? (m : Module) (args : Args) (binding : IdentId) : Option InstanceKey :=
  if m.scopes.isGlobal binding then
    (m.decls.find? fun d ↦ d.2.ident == binding).map fun d ↦ ⟨.decl m.path d.1, args⟩
  else
    none

/-- The instance that a reference in a declaration means in a closed linkage, unless the reference
stays as it is written. -/
def referenceKey? (l : Linkage) (m : Module) (args : Args) (reference : Reference) :
    Option InstanceKey :=
  match m.binding? reference with
  | some binding => boundKey? m args binding
  | none =>
    if args.any fun a ↦ [a.1] == reference.path then none
    else
      match job.resolution m reference.path with
      | .found target _ given => some (job.importedKey l m args target (given.getD []))
      | _ => none

/-! ### Computations that keep what holds of linkages -/

/-- From a valid linkage the computation only leads to a valid one that extends it. Its answer is
right there, and in whatever grows from there. -/
def Keeps {α : Type} (x : Linking α) (right : α → Linkage → Prop) : Prop :=
  ∀ l a l', x.Runs l a l' → job.Valid l →
    job.Valid l' ∧ l.Extends l' ∧ ∀ l'', l'.Grows l'' → right a l''

variable {job} {α β : Type} {x : Linking α} {right right' : α → Linkage → Prop} {m : Module}
  {args : Args}

namespace Keeps

/-- What is answered at once has to be right in every linkage. -/
theorem pure {a : α} (h : ∀ l, right a l) : job.Keeps (Pure.pure a) right := by
  rintro l _ _ hrun hvalid
  obtain ⟨rfl, rfl⟩ := hrun.pure
  exact ⟨hvalid, .refl l, fun l'' _ ↦ h l''⟩

/-- What the second computation answers may be right because of what the first has answered. -/
theorem bind {f : α → Linking β} {right' : β → Linkage → Prop} (hx : job.Keeps x right)
    (hf : ∀ a, job.Keeps (f a) fun b l ↦ right a l → right' b l) : job.Keeps (x >>= f) right' := by
  rintro l b l' hrun hvalid
  obtain ⟨a, l₁, hfirst, hrest⟩ := hrun.bind
  obtain ⟨hvalid₁, hextends₁, hright₁⟩ := hx l a l₁ hfirst hvalid
  obtain ⟨hvalid', hextends', hright'⟩ := hf a l₁ b l' hrest hvalid₁
  exact ⟨hvalid', hextends₁.trans hextends', fun l'' hgrows ↦
    hright' l'' hgrows (hright₁ l'' (hextends'.grows.trans hgrows))⟩

/-- What is right for a reason is right. -/
theorem mono (hx : job.Keeps x right) (h : ∀ a l, right a l → right' a l) :
    job.Keeps x right' := by
  rintro l a l' hrun hvalid
  obtain ⟨hvalid', hextends, hright⟩ := hx l a l' hrun hvalid
  exact ⟨hvalid', hextends, fun l'' hgrows ↦ h a l'' (hright l'' hgrows)⟩

/-- An answer that is only rewritten stays right. -/
theorem map {f : α → β} {right' : β → Linkage → Prop} (hx : job.Keeps x right)
    (h : ∀ a l, right a l → right' (f a) l) : job.Keeps (f <$> x) right' := by
  rw [map_eq_pure_bind]
  exact hx.bind fun a ↦ .pure fun l ↦ h a l

/-- A failure leads to no linkage at all. -/
theorem throw (e : LinkError) : job.Keeps (throw e : Linking α) right :=
  fun _ _ _ hrun _ ↦ hrun.not_throw.elim

/-- All answers are right in the linkage that is reached in the end, because each stays right. -/
theorem mapM {f : α → Linking β} {right : α → β → Linkage → Prop}
    (h : ∀ a, job.Keeps (f a) (right a)) (as : List α) :
    job.Keeps (as.mapM f) fun bs l ↦ List.Forall₂ (fun a b ↦ right a b l) as bs := by
  induction as with
  | nil => exact .pure fun _ ↦ .nil
  | cons a as ih =>
    rw [List.mapM_cons]
    exact (h a).bind fun b ↦ ih.bind fun bs ↦ .pure fun l hbs hb ↦ .cons hb hbs

end Keeps

/-- The name of an instance that was reached stays its name. -/
theorem keeps_reach (key : InstanceKey) :
    job.Keeps (modifyGet (job.reach key)) fun name l ↦ l.name? key = some name := by
  rintro l name l' hrun hvalid
  have hreach := hrun.modifyGet
  obtain ⟨hextends, hname⟩ := extends_reach hreach
  exact ⟨hvalid.reach hreach, hextends, fun l'' hgrows ↦ hgrows.names key name hname⟩

theorem keeps_warn (w : Warning) : job.Keeps (Linking.warn w) fun _ _ ↦ True := by
  rintro l u l' hrun hvalid
  obtain rfl := hrun.modified
  exact ⟨⟨hvalid.wellNamed.of_eq (fun _ ↦ rfl) rfl, hvalid.covered, hvalid.cached⟩, .of_eq rfl rfl,
    fun _ _ ↦ trivial⟩

/-- An import map that has been made is not made again. -/
theorem run_importMapOf_of_kept {imports : ImportMap}
    (hkept : l.importMaps.get? m.path = some imports) :
    (job.importMapOf m).run l = .ok (imports, l) := by
  simp only [importMapOf, StateT.run_bind, StateT.run_get, pure_bind, hkept]
  rfl

/-- Without an import map in the linkage, what is wrong with the imports comes up. -/
theorem run_importMapOf_of_error {b : BrokenModule} (hkept : l.importMaps.get? m.path = none)
    (hmap : m.importMap job.registry = .error b) :
    (job.importMapOf m).run l = .error (.broken b) := by
  simp only [importMapOf, StateT.run_bind, StateT.run_get, pure_bind, hkept, hmap]
  rfl

/-- An import map is kept when it has been made. -/
theorem run_importMapOf_of_ok {imports : ImportMap} {warnings : List Warning}
    (hkept : l.importMaps.get? m.path = none)
    (hmap : m.importMap job.registry = .ok (imports, warnings)) :
    (job.importMapOf m).run l = .ok (imports, { l with
      importMaps := l.importMaps.insert m.path imports
      warnings := l.warnings ++ warnings }) := by
  simp only [importMapOf, StateT.run_bind, StateT.run_get, pure_bind, hkept, hmap]
  rfl

/-- The import map is that of the module, whether it was kept or is new. -/
theorem keeps_importMapOf (hm : job.registry.module? m.path = some m) :
    job.Keeps (job.importMapOf m) fun imports _ ↦
      ∀ path, job.resolution m path = imports.resolve path := by
  have hright {imports : ImportMap} {warnings : List Warning}
      (h : m.importMap job.registry = .ok (imports, warnings)) (path : List String) :
      job.resolution m path = imports.resolve path := by
    rw [resolution, h]
  rintro l imports l' hrun hvalid
  obtain ⟨l₁, l₂, hget, hrest⟩ := hrun.bind
  obtain ⟨rfl, rfl⟩ := hget.get
  split at hrest
  · rename_i cached hcached
    obtain ⟨rfl, rfl⟩ := hrest.pure
    obtain ⟨m', warnings, hm', hmap⟩ := hvalid.cached m.path _ hcached
    obtain rfl := Option.some.inj (hm.symm.trans hm')
    exact ⟨hvalid, .refl l, fun _ _ ↦ hright hmap⟩
  · -- the import map is made and kept
    split at hrest
    · exact hrest.not_throw.elim
    · rename_i imports' warnings hmap
      obtain ⟨u, l₁, hmodified, hpure⟩ := hrest.bind
      obtain ⟨rfl, rfl⟩ := hpure.pure
      obtain rfl := hmodified.modified
      exact ⟨⟨hvalid.wellNamed.of_eq (fun _ ↦ rfl) rfl, hvalid.covered,
        hvalid.cached.insert hm hmap _⟩, .of_eq rfl rfl, fun _ _ ↦ hright hmap⟩

/-! ### Linking a reference -/

/-- An argument that names something has the name of its instance as its value. -/
theorem keeps_argValue (hm : job.registry.module? m.path = some m) (arg : String) :
    job.Keeps (job.argValue m args arg) fun value l ↦ job.argIn l m args arg = value := by
  rw [argValue]
  cases hfind : args.find? fun a ↦ a.1 == arg with
  | some a => exact .pure fun l ↦ by rw [argIn, hfind]
  | none =>
    cases hdecl : m.findDecl? arg with
    | some d =>
      refine (keeps_reach _).mono fun name l hname ↦ ?_
      simp [argIn, hfind, argKey?, hdecl, hname]
    | none =>
      refine (keeps_importMapOf hm).bind fun imports ↦ ?_
      split
      · rename_i target exportPath hfound
        refine (keeps_reach _).mono fun name l hname hresolve ↦ ?_
        simp [argIn, hfind, argKey?, hdecl, hresolve, hfound, hname]
      · rename_i hother
        refine .pure fun l hresolve ↦ ?_
        have hkey : job.argKey? m args arg = none := by
          simp only [argKey?, hdecl, hresolve]
        simp [argIn, hfind, hkey]

theorem keeps_paramValue? (hm : job.registry.module? m.path = some m)
    (param : String × Option String) (given : Option String) :
    job.Keeps (job.paramValue? m args param given) fun value l ↦
      job.paramIn? l m args param given = value := by
  cases given with
  | some arg => exact (keeps_argValue hm arg).map fun value l hvalue ↦ congrArg some hvalue
  | none => exact .pure fun l ↦ rfl

/-- The parameters have the values that they have in a closed linkage. -/
theorem keeps_bindParams (hm : job.registry.module? m.path = some m) (required : Bool) (span : Span)
    (params : List (String × Option String)) (given : List String) :
    job.Keeps (job.bindParams m args required span params given) fun values l ↦
      job.paramsIn l m args required params given = values := by
  induction params generalizing given with
  | nil => exact .pure fun l ↦ rfl
  | cons param params ih =>
    rw [bindParams]
    refine (keeps_paramValue? hm param given.head?).bind fun value? ↦ ?_
    have hrest (bound : Args) : job.Keeps (do
        return bound ++ (← job.bindParams m args required span params given.tail)) fun values l ↦
          bound ++ job.paramsIn l m args required params given.tail = values :=
      (ih given.tail).bind fun rest ↦ .pure fun l hrest ↦ by rw [hrest]
    cases value? with
    | some value =>
      refine (hrest [(param.1, value)]).mono fun values l hvalues hvalue ↦ ?_
      rw [paramsIn, hvalue]
      exact hvalues
    | none =>
      -- a parameter without a value stands for itself if it is required, else it is left out
      dsimp only
      split
      · rename_i hrequired
        refine (keeps_warn _).bind fun _ ↦
          (hrest [(param.1, param.1)]).mono fun values l hvalues _ hvalue ↦ ?_
        rw [paramsIn, hvalue]
        simpa [hrequired] using hvalues
      · rename_i hrequired
        refine (hrest []).mono fun values l hvalues hvalue ↦ ?_
        rw [paramsIn, hvalue]
        simpa [hrequired] using hvalues

/-- So the instance is the one that is meant. -/
theorem keeps_importedInstance (hm : job.registry.module? m.path = some m) (target : Target)
    (given : List String) (span : Span) :
    job.Keeps (job.importedInstance m args target given span) fun key l ↦
      job.importedKey l m args target given = key := by
  refine (keeps_bindParams hm _ span _ given).bind fun values ↦ .pure fun l hvalues ↦ ?_
  rw [← hvalues]
  rfl

/-- A reference that is bound in its module means what it is bound to, with the values in force. -/
theorem keeps_linkBound (binding : IdentId) :
    job.Keeps (job.linkBound m args binding) fun name? l ↦
      (boundKey? m args binding).map l.name? = name?.map some := by
  rw [linkBound, boundKey?]
  split
  · cases hfind : m.decls.find? fun d ↦ d.2.ident == binding with
    | some d => exact (keeps_reach _).map fun name l hname ↦ congrArg some hname
    | none => exact .pure fun _ ↦ rfl
  · exact .pure fun _ ↦ rfl

/-- Linking a reference answers with the name of the instance that the reference means. -/
theorem keeps_linkReference (hm : job.registry.module? m.path = some m) (reference : Reference) :
    job.Keeps (job.linkReference m args reference) fun name? l ↦
      (job.referenceKey? l m args reference).map l.name? = name?.map some := by
  rw [linkReference, ← Module.binding?]
  cases hbinding : m.binding? reference with
  | some binding =>
    refine (keeps_linkBound binding).mono fun name? l hname ↦ ?_
    rwa [referenceKey?, hbinding]
  | none =>
    cases hargs : args.any fun a ↦ [a.1] == reference.path with
    | true =>
      refine .pure fun l ↦ ?_
      simp [referenceKey?, hbinding, hargs]
    | false =>
      refine (keeps_importMapOf hm).bind fun imports ↦ ?_
      have hkey (l : Linkage) (hresolve : ∀ path, job.resolution m path = imports.resolve path) :
          job.referenceKey? l m args reference = match imports.resolve reference.path with
            | .found target _ given => some (job.importedKey l m args target (given.getD []))
            | _ => none := by
        simp [referenceKey?, hbinding, hargs, hresolve]
      cases hresolution : imports.resolve reference.path with
      | found target exportPath given =>
        refine (keeps_importedInstance hm target _ _).bind fun key ↦
          (keeps_reach key).map fun name l hname himported hresolve ↦ ?_
        rw [hkey l hresolve, hresolution]
        simp [himported, hname]
      | unresolved =>
        -- a path gets a warning and a word does not, neither is linked
        have hnone : job.Keeps (α := Option String) (do
            if 1 < reference.path.length then
              Linking.warn (m.warning reference.span.start
                ("unresolved reference `" ++ codePath reference.path ++ "`"))
            return none) fun name? _ ↦ name? = none := by
          split
          · exact (keeps_warn _).bind fun _ ↦ .pure fun _ _ ↦ rfl
          · exact .pure fun _ ↦ rfl
        refine hnone.mono fun name? l hname hresolve ↦ ?_
        rw [hkey l hresolve, hresolution, hname]
        rfl
      | ambiguous candidates => exact .throw _

end LinkJob

end ShaderLink
