import ShaderLink.Proofs.Link.Coherence

/-!
# Imported names as arguments

A name that a module imports can stand in it as a reference, and as an argument of another import.
Both are linked to an instance of what is imported, but the values of the parameters come about in
different ways. A reference gives every parameter the value that it has for want of an argument: the
value from the options, or the parameter's own one, or for a generator the parameter itself
(`LinkJob.fallbackArgs`). An argument gives none of them a value.

So the two agree on the instance and its name exactly if there is no such value
(`LinkJob.argument_agrees_iff`). Otherwise there are two instances, and the one that the argument
names lacks the values.
-/

namespace ShaderLink

namespace LinkJob

variable (job : LinkJob)

/-- The values that the parameters of a target have for want of arguments. -/
def fallbackArgs (target : Target) : Args :=
  (job.paramsOf target).flatMap fun param ↦
    match (job.options.params.get? param.1).or param.2, target with
    | some value, _ => [(param.1, value)]
    | none, .generator .. => [(param.1, param.1)]
    | none, .decl .. => []

/-- No parameter of the target has a value without an argument: a declaration has no parameter that
the options know, and a generator has none at all. -/
def NoFallback : Target → Prop
  | .decl module index => ∀ m d, job.decl? module index = some (m, d) →
      ∀ param ∈ d.params, job.options.params.get? param = none
  | .generator module name => ∀ g, job.registry.generator? module name = some g → g.params = []

/-- From every valid linkage the computation comes to an answer. -/
def Succeeds {α : Type} (x : Linking α) : Prop :=
  ∀ l, job.Valid l → ∃ a l', x.Runs l a l'

variable {job} {α β : Type} {x : Linking α} {m : Module} {args : Args} {l : Linkage}
  {target : Target} {reference : Reference} {exportPath : List String} {name value value' : String}
  {path : ModulePath}

/-! ### Values for want of arguments -/

/-- Without arguments, options and defaults give the values. -/
theorem paramsIn_nil (l : Linkage) (m : Module) (args : Args) (required : Bool)
    (params : List (String × Option String)) :
    job.paramsIn l m args required params [] = params.flatMap fun param ↦
      match (job.options.params.get? param.1).or param.2 with
      | some value => [(param.1, value)]
      | none => if required then [(param.1, param.1)] else [] := by
  induction params with
  | nil => rfl
  | cons param params ih =>
    rw [List.flatMap_cons, ← ih]
    rfl

/-- Without arguments, the values of the parameters are those that they have for want of them. -/
theorem importedKey_nil (l : Linkage) (m : Module) (args : Args) (target : Target) :
    job.importedKey l m args target [] = ⟨target, job.fallbackArgs target⟩ := by
  rw [importedKey.eq_def, fallbackArgs]
  dsimp only
  rw [paramsIn_nil]
  congr 2
  funext param
  cases (job.options.params.get? param.1).or param.2 with
  | some value => rfl
  | none => cases target <;> rfl

/-- No value stands in for an argument if no parameter has an option or a default. -/
theorem fallbackArgs_eq_nil_iff : job.fallbackArgs target = [] ↔ job.NoFallback target := by
  rw [fallbackArgs, List.flatMap_eq_nil_iff]
  cases target with
  | decl module index =>
    rw [paramsOf, NoFallback]
    cases hdecl : job.decl? module index with
    | none => simp
    | some found =>
      obtain ⟨m, d⟩ := found
      simp only [Option.map_some, Option.getD_some, List.forall_mem_map, Option.or_none]
      have hsame (param : String) :
          (match job.options.params.get? param, Target.decl module index with
            | some value, _ => [(param, value)]
            | none, .generator .. => [(param, param)]
            | none, .decl .. => []) = [] ↔ job.options.params.get? param = none := by
        cases job.options.params.get? param <;> simp
      constructor
      · rintro h m' d' heq param hparam
        obtain ⟨rfl, rfl⟩ := Prod.mk.inj (Option.some.inj heq)
        exact (hsame param).1 (h param hparam)
      · exact fun h param hparam ↦ (hsame param).2 (h m d rfl param hparam)
  | generator module generator =>
    rw [paramsOf, NoFallback]
    cases hgenerator : job.registry.generator? module generator with
    | none => simp
    | some g =>
      simp only [Option.map_some, Option.getD_some, Option.some.injEq, forall_eq']
      rw [List.eq_nil_iff_forall_not_mem]
      refine forall₂_congr fun param _ ↦ ?_
      -- a generator gives each of its parameters some value
      cases (job.options.params.get? param.1).or param.2 <;> simp

/-! ### Computations that come to an answer -/

namespace Succeeds

theorem pure (a : α) : job.Succeeds (Pure.pure a) :=
  fun l _ ↦ ⟨a, l, rfl⟩

theorem modify (f : Linkage → Linkage) : job.Succeeds (modify f) :=
  fun l _ ↦ ⟨(), f l, rfl⟩

theorem modifyGet (f : Linkage → α × Linkage) : job.Succeeds (MonadState.modifyGet f) :=
  fun l _ ↦ ⟨(f l).1, (f l).2, rfl⟩

/-- Reading the linkage does not fail. -/
theorem get {f : Linkage → Linking α} (h : ∀ l, job.Succeeds (f l)) :
    job.Succeeds (get >>= f) :=
  fun l hvalid ↦ h l l hvalid

/-- Computations in turn come to an answer if the second does from all that the first leaves. -/
theorem bind {f : α → Linking β} {right : α → Linkage → Prop} (hx : job.Succeeds x)
    (hkeeps : job.Keeps x right) (hf : ∀ a l, right a l → job.Succeeds (f a)) :
    job.Succeeds (x >>= f) := by
  intro l hvalid
  obtain ⟨a, l₁, hrun⟩ := hx l hvalid
  obtain ⟨hvalid₁, -, hright⟩ := hkeeps l a l₁ hrun hvalid
  obtain ⟨b, l', hrest⟩ := hf a l₁ (hright l₁ (.refl l₁)) l₁ hvalid₁
  refine ⟨b, l', ?_⟩
  rw [Linking.Runs, StateT.run_bind, hrun]
  exact hrest

theorem map {f : α → β} (hx : job.Succeeds x) : job.Succeeds (f <$> x) := by
  intro l hvalid
  obtain ⟨a, l', hrun⟩ := hx l hvalid
  refine ⟨f a, l', ?_⟩
  rw [Linking.Runs, StateT.run_map, hrun]
  rfl

end Succeeds

/-- If the imports of a module lead a path anywhere, the module has an import map. -/
theorem succeeds_importMapOf {reference : List String} {given : Option (List String)}
    (hfound : job.resolution m reference = .found target exportPath given) :
    job.Succeeds (job.importMapOf m) := by
  refine Succeeds.get fun l ↦ ?_
  split
  · exact .pure _
  · cases hmap : m.importMap job.registry with
    | error b =>
      rw [resolution, hmap] at hfound
      cases hfound
    | ok found => exact fun l' _ ↦ ⟨found.1, _, rfl⟩

/-- Nothing can fail when there are no arguments to link. -/
theorem succeeds_bindParams (hm : job.registry.module? m.path = some m) (args : Args)
    (required : Bool) (span : Span) (params : List (String × Option String)) :
    job.Succeeds (job.bindParams m args required span params []) := by
  induction params with
  | nil => exact .pure []
  | cons param params ih =>
    have hrest (bound : Args) : job.Succeeds (do
        return bound ++ (← job.bindParams m args required span params [])) :=
      ih.bind (keeps_bindParams hm required span params []) fun rest _ _ ↦ .pure (bound ++ rest)
    rw [bindParams]
    refine Succeeds.bind (.pure _) (keeps_paramValue? hm param none) fun value? _ _ ↦ ?_
    cases value? with
    | some value => exact hrest [(param.1, value)]
    | none =>
      dsimp only
      split
      · exact Succeeds.bind (.modify _) (keeps_warn _) fun _ _ _ ↦ hrest [(param.1, param.1)]
      · exact hrest []

/-! ### The instance of an argument and of a reference -/

/-- An imported name is linked as an argument to the instance of its target without values. -/
theorem exists_run_argValue (hm : job.registry.module? m.path = some m)
    (hparam : ∀ a ∈ args, a.1 ≠ name) (hown : m.findDecl? name = none)
    (hfound : job.resolution m [name] = .found target exportPath none) (hvalid : job.Valid l) :
    ∃ value l', (job.argValue m args name).Runs l value l' ∧ job.Valid l' ∧
      l.Extends l' ∧ ∀ l'', l'.Grows l'' → l''.name? ⟨target, []⟩ = some value := by
  have hfind : args.find? (fun a ↦ a.1 == name) = none :=
    List.find?_eq_none.2 fun a ha ↦ by simpa using hparam a ha
  have hsucceeds : job.Succeeds (job.argValue m args name) := by
    rw [argValue, hfind, hown]
    refine (succeeds_importMapOf hfound).bind (keeps_importMapOf hm) fun imports l hresolve ↦ ?_
    rw [← hresolve [name], hfound]
    exact .modifyGet _
  have hkeeps : job.Keeps (job.argValue m args name) fun value l ↦
      l.name? ⟨target, []⟩ = some value := by
    rw [argValue, hfind, hown]
    refine (keeps_importMapOf hm).bind fun imports ↦ ?_
    cases hresolution : imports.resolve [name] with
    | found target' exportPath' given =>
      cases given with
      | none =>
        refine (keeps_reach _).mono fun value l hname hresolve ↦ ?_
        rw [hresolve, hresolution] at hfound
        rwa [← (Resolution.found.inj hfound).1]
      | some given =>
        refine .pure fun l hresolve ↦ ?_
        rw [hresolve, hresolution] at hfound
        cases hfound
    | _ =>
      refine .pure fun l hresolve ↦ ?_
      rw [hresolve, hresolution] at hfound
      cases hfound
  obtain ⟨value, l', hrun⟩ := hsucceeds l hvalid
  exact ⟨value, l', hrun, hkeeps l value l' hrun hvalid⟩

/-- An imported name is linked as a reference to the instance of its target with the values that
parameters have for want of arguments. -/
theorem exists_run_linkReference (hm : job.registry.module? m.path = some m)
    (hparam : ∀ a ∈ args, a.1 ≠ name) (hpath : reference.path = [name])
    (hunbound : m.binding? reference = none)
    (hfound : job.resolution m [name] = .found target exportPath none) (hvalid : job.Valid l) :
    ∃ value l', (job.linkReference m args reference).Runs l (some value) l' ∧ job.Valid l' ∧
      l.Extends l' ∧
      ∀ l'', l'.Grows l'' → l''.name? ⟨target, job.fallbackArgs target⟩ = some value := by
  have hargs : (args.any fun a ↦ [a.1] == reference.path) = false := by
    rw [List.any_eq_false, hpath]
    exact fun a ha heq ↦ hparam a ha (by simpa using heq)
  have hsucceeds : job.Succeeds (job.linkReference m args reference) := by
    rw [linkReference, ← Module.binding?, hunbound, hargs]
    refine (succeeds_importMapOf hfound).bind (keeps_importMapOf hm) fun imports l hresolve ↦ ?_
    rw [← hresolve reference.path, hpath, hfound]
    exact ((succeeds_bindParams hm _ _ _ _).bind (keeps_bindParams hm _ _ _ _) fun values _ _ ↦
      .pure _).bind (keeps_importedInstance hm target _ _) fun key _ _ ↦ .map (.modifyGet _)
  -- without arguments, values stand in for all that can have one
  have hkey (l : Linkage) : job.referenceKey? l m args reference =
      some ⟨target, job.fallbackArgs target⟩ := by
    rw [referenceKey?, hunbound, hargs, hpath, hfound]
    exact congrArg some (importedKey_nil l m args target)
  obtain ⟨value?, l', hrun⟩ := hsucceeds l hvalid
  obtain ⟨hvalid', hextends, hright⟩ :=
    keeps_linkReference hm reference l value? l' hrun hvalid
  have hname (l'' : Linkage) (hgrows : l'.Grows l'') :
      some (l''.name? ⟨target, job.fallbackArgs target⟩) = value?.map some := by
    rw [← hright l'' hgrows, hkey l'']
    rfl
  obtain ⟨value, rfl, -⟩ := Option.map_eq_some_iff.1 (hname l' (.refl l')).symm
  exact ⟨value, l', hrun, hvalid', hextends,
    fun l'' hgrows ↦ Option.some.inj (hname l'' hgrows)⟩

/-- The instances with and without the values that parameters have for want of arguments have the
same name exactly if there are no such values. -/
theorem Valid.name_eq_iff (h : job.Valid l) (hvalue : l.name? ⟨target, []⟩ = some value)
    (hvalue' : l.name? ⟨target, job.fallbackArgs target⟩ = some value') :
    value = value' ↔ job.NoFallback target := by
  rw [← fallbackArgs_eq_nil_iff]
  constructor
  · rintro rfl
    rcases h.wellNamed.distinct _ _ _ hvalue hvalue' with heq | ⟨-, hstart⟩
    · exact (InstanceKey.mk.inj heq).2.symm
    · obtain ⟨d, -, hd, -⟩ := start_name?_mem hstart
      exact (InstanceKey.mk.inj hd).2
  · intro hnil
    rw [hnil, hvalue] at hvalue'
    exact Option.some.inj hvalue'

/-- A name that a module imports without arguments is linked to an instance of the same target as an
argument and as a reference, whatever has been linked before and whatever comes afterwards. The two
are the same instance, and have the same name, exactly if no parameter of the target has a value
without an argument. -/
theorem argument_agrees_iff (hm : job.registry.module? m.path = some m)
    (hparam : ∀ a ∈ args, a.1 ≠ name) (hown : m.findDecl? name = none)
    (hpath : reference.path = [name]) (hunbound : m.binding? reference = none)
    (hfound : job.resolution m [name] = .found target exportPath none) :
    (∀ l, job.Valid l → ∃ value l', (job.argValue m args name).Runs l value l' ∧ job.Valid l' ∧
      l.Extends l' ∧ ∀ l'', l'.Grows l'' → l''.name? ⟨target, []⟩ = some value) ∧
    (∀ l, job.Valid l → ∃ value l', (job.linkReference m args reference).Runs l (some value) l' ∧
      job.Valid l' ∧ l.Extends l' ∧
      ∀ l'', l'.Grows l'' → l''.name? ⟨target, job.fallbackArgs target⟩ = some value) ∧
    (job.fallbackArgs target = [] ↔ job.NoFallback target) ∧
    ∀ l value value', job.Valid l → l.name? ⟨target, []⟩ = some value →
      l.name? ⟨target, job.fallbackArgs target⟩ = some value' →
        (value = value' ↔ job.NoFallback target) :=
  ⟨fun _ ↦ exists_run_argValue hm hparam hown hfound,
    fun _ ↦ exists_run_linkReference hm hparam hpath hunbound hfound, fallbackArgs_eq_nil_iff,
    fun _ _ _ hvalid ↦ hvalid.name_eq_iff⟩

end LinkJob

namespace Registry

/-- A root that calls a generated function and passes it on to a generic one. The generator has a
parameter with a value of its own. -/
def passingOn : Registry :=
  ofSources .default
    [("main", "import gen/g;\nimport lib/f(g);\nfn main() \x7b g(); f(); \x7d\n".toList),
      ("lib", "#export(T)\nfn f() \x7b T(); \x7d\n".toList)]
    [⟨["gen"], "g", [("N", some "4")], fun name args ↦
      ("fn " ++ name ++ "() -> i32 \x7b return " ++ (args.get? "N").getD "" ++ "; \x7d").toList⟩]

/-- The root calls one generated function, and passes on the name of another. -/
theorem argument_agrees_iff_passingOn : ∃ root reference value value' l l',
    passingOn.root ["main"] = .ok root ∧ .reference reference ∈ root.elements ∧
    reference.path = ["g"] ∧
    ((⟨passingOn, ⟨.empty, false⟩, root⟩ : LinkJob).argValue root [] "g").Runs
      (⟨passingOn, ⟨.empty, false⟩, root⟩ : LinkJob).start value l ∧
    ((⟨passingOn, ⟨.empty, false⟩, root⟩ : LinkJob).linkReference root [] reference).Runs l
      (some value') l' ∧ value ≠ value' := by
  have heval : (do
      let root ← (passingOn.root ["main"]).toOption
      let reference ← (root.elements.filterMap Element.reference?)[0]?
      let job : LinkJob := ⟨passingOn, ⟨.empty, false⟩, root⟩
      return (reference.path, root.binding? reference, (root.findDecl? "g").isSome,
        job.resolution root ["g"])) =
      some (["g"], none, false, .found (.generator ["gen"] "g") ["gen", "g"] none) := by
    decide +kernel
  have hgenerator : (passingOn.generator? ["gen"] "g").map Generator.params =
      some [("N", some "4")] := by
    decide +kernel
  obtain ⟨root, hroot, heval⟩ := Option.bind_eq_some_iff.1 heval
  obtain ⟨reference, hget, heval⟩ := Option.bind_eq_some_iff.1 heval
  obtain ⟨hpath, heval⟩ := Prod.mk.inj (Option.some.inj heval)
  obtain ⟨hunbound, heval⟩ := Prod.mk.inj heval
  obtain ⟨hown, hfound⟩ := Prod.mk.inj heval
  obtain ⟨g, hg, hparams⟩ := Option.map_eq_some_iff.1 hgenerator
  have hroot := Except.eq_ok_of_toOption hroot
  have hown : root.findDecl? "g" = none := by simpa using hown
  obtain ⟨e, helement, hreference⟩ := List.mem_filterMap.1 (List.mem_of_getElem? hget)
  have hbuilt : passingOn.Built := (built_ofSources _ _ _).1
  -- nothing below depends on what the registry is
  generalize passingOn = r at hroot hfound hg hbuilt ⊢
  have hjob : (⟨r, ⟨.empty, false⟩, root⟩ : LinkJob).Sound := LinkJob.sound_of_root hbuilt hroot
  obtain ⟨hargument, hlinked, -, hname⟩ := @LinkJob.argument_agrees_iff
    ⟨r, ⟨.empty, false⟩, root⟩ root [] (.generator ["gen"] "g") reference ["gen", "g"] "g"
    hjob.root (by simp) hown hpath hunbound hfound
  obtain ⟨value, l, hrun, hvalid, -, hvalue⟩ := hargument _ (LinkJob.valid_start _)
  obtain ⟨value', l', hrun', hvalid', hextends, hvalue'⟩ := hlinked l hvalid
  refine ⟨root, reference, value, value', l, l', hroot, ?_, hpath, hrun, hrun', fun heq ↦ ?_⟩
  · cases e <;> cases hreference
    exact helement
  · have hnone := (hname l' value value' hvalid' (hvalue l' hextends.grows)
      (hvalue' l' (.refl l'))).1 heq g hg
    rw [hparams] at hnone
    cases hnone

end Registry

end ShaderLink
