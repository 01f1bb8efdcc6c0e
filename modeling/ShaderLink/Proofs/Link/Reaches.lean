import ShaderLink.Proofs.Link.Worklist
import ShaderLink.Proofs.Resolution.Target

/-!
# What linking reaches

Linking a reference reaches the instance that the reference means and before that the instances that
the arguments of its import name (`LinkJob.linkedKeys`). Each of them brings itself into the
linkage, and all declarations of its module if whole modules are asked for (`LinkJob.Brings`).
Nothing else comes into it.

A computation **reaches** some keys if the instances after it are those before and those that the
keys bring. Which keys these are may depend on the names in the linkage, and may be told in every
linkage that grows from there.
-/

namespace ShaderLink

namespace LinkJob

variable (job : LinkJob)

/-! ### The instances that a visit reaches -/

/-- The instance that an import's argument is linked to, unless it is a parameter or stays as it is
written. -/
def linkedArg? (importer : Module) (args : Args) (arg : String) : Option InstanceKey :=
  match args.find? fun a ↦ a.1 == arg with
  | some _ => none
  | none => job.argKey? importer args arg

/-- The instances that the arguments of a reference's import are linked to. -/
def argumentKeys (m : Module) (args : Args) (reference : Reference) : List InstanceKey :=
  match m.binding? reference with
  | some _ => []
  | none =>
    if args.any fun a ↦ [a.1] == reference.path then []
    else
      match job.resolution m reference.path with
      | .found target _ given =>
        ((given.getD []).take (job.paramsOf target).length).filterMap (job.linkedArg? m args)
      | _ => []

/-- The instances that linking a reference reaches, told in a closed linkage. -/
def linkedKeys (l : Linkage) (m : Module) (args : Args) (reference : Reference) :
    List InstanceKey :=
  job.argumentKeys m args reference ++ (job.referenceKey? l m args reference).toList

/-- The instances that the visit of an instance reaches, told in a closed linkage. -/
def visitedKeys (l : Linkage) (key : InstanceKey) : List InstanceKey :=
  match key.target with
  | .generator .. => []
  | .decl module index =>
    match job.decl? module index with
    | none => []
    | some (m, d) => (m.references d).flatMap (job.linkedKeys l m key.args)

/-- What comes into the linkage with an instance: the instance, and if whole modules are asked for
all declarations of its module, unless this is the root. -/
inductive Brings (key : InstanceKey) : InstanceKey → Prop
  | self : Brings key key
  | whole {module : ModulePath} {index : Nat} {m : Module} {d : Nat × Decl}
    (hwhole : job.options.wholeFile = true) (htarget : key.target = .decl module index)
    (hne : module ≠ job.root.path) (hm : job.registry.module? module = some m) (hd : d ∈ m.decls) :
    Brings key ⟨.decl module d.1, []⟩

/-- The root contributes, and modules that do are there as a whole if this is asked for. -/
structure Complete (l : Linkage) : Prop where
  root : job.root.path ∈ l.modules
  whole : job.options.wholeFile = true → ∀ module ∈ l.modules, module ≠ job.root.path →
    ∀ m, job.registry.module? module = some m → ∀ d ∈ m.decls,
      ⟨.decl module d.1, []⟩ ∈ l.instances.keys

/-- The instances after the computation are those before and those that the keys bring. -/
def Reaches {α : Type} (x : Linking α) (keys : Linkage → List InstanceKey) : Prop :=
  ∀ l a l', x.Runs l a l' → job.Valid l → job.Complete l →
    job.Complete l' ∧ l.Grows l' ∧ ∀ l'', l'.Grows l'' → ∀ key, key ∈ l'.instances.keys ↔
      key ∈ l.instances.keys ∨ ∃ k ∈ keys l'', job.Brings k key

variable {job} {α β : Type} {x : Linking α} {keys keys' : Linkage → List InstanceKey} {m : Module}
  {d : Decl} {args : Args} {l l' : Linkage} {key key' : InstanceKey} {name : String} {n : Nat}

/-! ### Reaching one instance -/

/-- Adding an instance adds its key and no other. -/
theorem mem_keys_addInstance_iff (job : LinkJob) (key key' : InstanceKey) (l : Linkage) :
    key' ∈ (job.addInstance key l).2.instances.keys ↔ key' ∈ l.instances.keys ∨ key' = key := by
  refine ⟨mem_keys_addInstance, ?_⟩
  have hadd : job.addInstance key l = (_, (job.addInstance key l).2) := rfl
  obtain ⟨hextends, hname⟩ := extends_addInstance hadd
  rintro (hmem | rfl)
  · exact hextends.grows.keys.subset hmem
  · exact Linkage.mem_keys_iff_name?.2 ⟨_, hname⟩

/-- It contributes no module. -/
theorem modules_addInstance (key : InstanceKey) (l : Linkage) :
    (job.addInstance key l).2.modules = l.modules := by
  cases hadd : job.addInstance key l with
  | mk name l' =>
    rcases addInstance_cases hadd with ⟨-, rfl⟩ | ⟨-, -, rfl⟩
    · rfl
    · rfl

/-- Adding the declarations of a module adds just these. -/
theorem addAll_spec (job : LinkJob) (decls : List (Nat × Decl)) (module : ModulePath)
    (l : Linkage) :
    (decls.foldl (fun l d ↦ (job.addInstance ⟨.decl module d.1, []⟩ l).2) l).modules = l.modules ∧
      ∀ key, key ∈ (decls.foldl
          (fun l d ↦ (job.addInstance ⟨.decl module d.1, []⟩ l).2) l).instances.keys ↔
        key ∈ l.instances.keys ∨ ∃ d ∈ decls, key = ⟨.decl module d.1, []⟩ := by
  induction decls generalizing l with
  | nil => simp
  | cons d decls ih =>
    obtain ⟨hmodules, hkeys⟩ := ih (job.addInstance ⟨.decl module d.1, []⟩ l).2
    refine ⟨hmodules.trans (modules_addInstance _ l), fun key ↦ (hkeys key).trans ?_⟩
    rw [mem_keys_addInstance_iff]
    simp [or_assoc]

/-- Adding the module of an instance that is there adds what else the instance brings. -/
theorem complete_addModule (hcomplete : job.Complete l) {module : ModulePath} {index : Nat}
    (htarget : key.target = .decl module index) (hkey : key ∈ l.instances.keys) :
    job.Complete (job.addModule module l) ∧ ∀ key', key' ∈ (job.addModule module l).instances.keys ↔
      key' ∈ l.instances.keys ∨ job.Brings key key' := by
  rw [addModule]
  split
  · rename_i hmem
    refine ⟨hcomplete, fun key' ↦ ⟨.inl, ?_⟩⟩
    rintro (hkey' | hbrings)
    · exact hkey'
    · cases hbrings with
      | self => exact hkey
      | whole hwhole htarget' hne hm hd =>
        obtain ⟨rfl, -⟩ := Target.decl.inj (htarget.symm.trans htarget')
        exact hcomplete.whole hwhole _ hmem hne _ hm _ hd
  · rename_i hnew
    have hne : module ≠ job.root.path := fun heq ↦ hnew (heq ▸ hcomplete.root)
    obtain ⟨hmodules, hkeys⟩ := addAll_spec job (if job.options.wholeFile then
      ((job.registry.module? module).map Module.decls).getD [] else []) module
      { l with modules := l.modules ++ [module] }
    -- the declarations that are added, if any, are those of the module
    have hadded (d : Nat × Decl) : d ∈ (if job.options.wholeFile = true then
        ((job.registry.module? module).map Module.decls).getD [] else []) ↔
        job.options.wholeFile = true ∧ ∃ m, job.registry.module? module = some m ∧ d ∈ m.decls := by
      cases job.options.wholeFile <;> cases job.registry.module? module <;> simp
    refine ⟨⟨?_, fun hwhole module' hmem hne' m hm d hd ↦ (hkeys _).2 ?_⟩, fun key' ↦
      (hkeys key').trans ⟨?_, ?_⟩⟩
    · rw [hmodules]
      exact List.mem_append_left _ hcomplete.root
    · rw [hmodules] at hmem
      rcases List.mem_append.1 hmem with hold | hsame
      · exact .inl (hcomplete.whole hwhole module' hold hne' m hm d hd)
      · obtain rfl := List.mem_singleton.1 hsame
        exact .inr ⟨d, (hadded d).2 ⟨hwhole, m, hm, hd⟩, rfl⟩
    · rintro (hkey' | ⟨d, hd, rfl⟩)
      · exact .inl hkey'
      · obtain ⟨hwhole, m, hm, hd⟩ := (hadded d).1 hd
        exact .inr (.whole hwhole htarget hne hm hd)
    · rintro (hkey' | hbrings)
      · exact .inl hkey'
      · cases hbrings with
        | self => exact .inl hkey
        | whole hwhole htarget' _ hm hd =>
          obtain ⟨rfl, -⟩ := Target.decl.inj (htarget.symm.trans htarget')
          exact .inr ⟨_, (hadded _).2 ⟨hwhole, _, hm, hd⟩, rfl⟩

/-- Reaching an instance brings just what comes with it. -/
theorem complete_reach (hcomplete : job.Complete l) (h : job.reach key l = (name, l')) :
    job.Complete l' ∧ ∀ key', key' ∈ l'.instances.keys ↔
      key' ∈ l.instances.keys ∨ job.Brings key key' := by
  have hmem {key' : InstanceKey} := mem_keys_addInstance_iff job key key' l
  have hmodules : (job.addInstance key l).2.modules = l.modules := modules_addInstance key l
  have hadded : job.Complete (job.addInstance key l).2 := by
    refine ⟨hmodules ▸ hcomplete.root, fun hwhole module hmodule hne m hm d hd ↦ hmem.2 (.inl ?_)⟩
    rw [hmodules] at hmodule
    exact hcomplete.whole hwhole module hmodule hne m hm d hd
  rw [LinkJob.reach] at h
  dsimp only at h
  split at h
  · rename_i module index htarget
    obtain ⟨-, rfl⟩ := Prod.mk.inj h
    obtain ⟨hcomplete', hkeys⟩ := complete_addModule hadded htarget (hmem.2 (.inr rfl))
    refine ⟨hcomplete', fun key' ↦ (hkeys key').trans ?_⟩
    rw [hmem, or_assoc]
    exact or_congr_right ⟨Or.rec (fun heq ↦ heq ▸ .self) id, .inr⟩
  · rename_i module generator htarget
    obtain ⟨-, rfl⟩ := Prod.mk.inj h
    refine ⟨hadded, fun key' ↦
      hmem.trans (or_congr_right ⟨fun heq ↦ heq ▸ .self, fun hbrings ↦ ?_⟩)⟩
    cases hbrings with
    | self => rfl
    | whole _ htarget' =>
      rw [htarget] at htarget'
      cases htarget'

/-! ### Computations -/

namespace Reaches

/-- A computation that changes neither instances nor modules reaches nothing. -/
theorem nothing (h : ∀ l a l', x.Runs l a l' →
    l'.instances = l.instances ∧ l'.modules = l.modules) : job.Reaches x fun _ ↦ [] := by
  intro l a l' hrun _ hcomplete
  obtain ⟨hinstances, hmodules⟩ := h l a l' hrun
  refine ⟨⟨hmodules ▸ hcomplete.root, ?_⟩, (Linkage.Extends.of_eq hinstances hmodules).grows,
    fun l'' _ key ↦ by simp [hinstances]⟩
  rw [hmodules, hinstances]
  exact hcomplete.whole

theorem pure (a : α) : job.Reaches (Pure.pure a) fun _ ↦ [] := by
  refine nothing fun l a' l' hrun ↦ ?_
  obtain ⟨-, rfl⟩ := hrun.pure
  exact ⟨rfl, rfl⟩

theorem throw (e : LinkError) : job.Reaches (throw e : Linking α) keys :=
  fun _ _ _ hrun ↦ hrun.not_throw.elim

theorem congr (hx : job.Reaches x keys) (h : ∀ l, keys l = keys' l) : job.Reaches x keys' := by
  rwa [← funext h]

/-- The keys reached by the second computation are told by what is right of the answer that the
first one gives. -/
theorem bind {f : α → Linking β} {right : α → Linkage → Prop}
    {k : α → Linkage → List InstanceKey} (hx : job.Reaches x keys) (hkeeps : job.Keeps x right)
    (hf : ∀ a l, right a l → job.Reaches (f a) (k a))
    (hkeys' : ∀ a l, right a l → k a l = keys' l) :
    job.Reaches (x >>= f) fun l ↦ keys l ++ keys' l := by
  intro l b l' hrun hvalid hcomplete
  obtain ⟨a, l₁, hfirst, hrest⟩ := hrun.bind
  obtain ⟨hvalid₁, -, hright⟩ := hkeeps l a l₁ hfirst hvalid
  obtain ⟨hcomplete₁, hgrows₁, hkeys⟩ := hx l a l₁ hfirst hvalid hcomplete
  obtain ⟨hcomplete', hgrows', hrestKeys⟩ :=
    hf a l₁ (hright l₁ (.refl l₁)) l₁ b l' hrest hvalid₁ hcomplete₁
  refine ⟨hcomplete', hgrows₁.trans hgrows', fun l'' hgrows'' key ↦ ?_⟩
  have hgrows := hgrows'.trans hgrows''
  rw [hrestKeys l'' hgrows'' key, hkeys l'' hgrows key, hkeys' a l'' (hright l'' hgrows)]
  simp only [List.mem_append, or_and_right, exists_or, or_assoc]

/-- Nothing is reached before the second computation. -/
theorem bind_nil {f : α → Linking β} {right : α → Linkage → Prop} (hx : job.Reaches x fun _ ↦ [])
    (hkeeps : job.Keeps x right) (hf : ∀ a l, right a l → job.Reaches (f a) keys) :
    job.Reaches (x >>= f) keys :=
  (hx.bind hkeeps hf fun _ _ _ ↦ rfl).congr fun l ↦ List.nil_append (keys l)

/-- Nothing is reached after the first computation. -/
theorem bind_pure {f : α → β} {right : α → Linkage → Prop} (hx : job.Reaches x keys)
    (hkeeps : job.Keeps x right) : job.Reaches (x >>= fun a ↦ Pure.pure (f a)) keys :=
  (hx.bind hkeeps (fun a _ _ ↦ pure (f a)) fun _ _ _ ↦ rfl).congr fun l ↦ List.append_nil (keys l)

/-- What is made of a result reaches nothing more. -/
theorem map {right : α → Linkage → Prop} (hx : job.Reaches x keys) (hkeeps : job.Keeps x right)
    (f : α → β) : job.Reaches (f <$> x) keys := by
  rw [map_eq_pure_bind]
  exact hx.bind_pure hkeeps

/-- Going through a list reaches what each element does. -/
theorem mapM {f : α → Linking β} {keys : Linkage → α → List InstanceKey}
    {right : α → β → Linkage → Prop} (h : ∀ a, job.Reaches (f a) (keys · a))
    (hkeeps : ∀ a, job.Keeps (f a) (right a)) (as : List α) :
    job.Reaches (as.mapM f) fun l ↦ as.flatMap (keys l) := by
  induction as with
  | nil => exact pure []
  | cons a as ih =>
    rw [List.mapM_cons]
    exact (h a).bind (hkeeps a) (fun b _ _ ↦ ih.bind_pure (.mapM hkeeps as)) fun _ _ _ ↦ rfl

end Reaches

/-! ### Linking a reference -/

/-- Reaching an instance reaches it, with all of its module if that is new. -/
theorem reaches_reach (key : InstanceKey) :
    job.Reaches (modifyGet (job.reach key)) fun _ ↦ [key] := by
  intro l name l' hrun _ hcomplete
  have hreach := hrun.modifyGet
  obtain ⟨hcomplete', hkeys⟩ := complete_reach hcomplete hreach
  exact ⟨hcomplete', (extends_reach hreach).1.grows, fun l'' _ key' ↦ by simp [hkeys]⟩

theorem reaches_warn (w : Warning) : job.Reaches (Linking.warn w) fun _ ↦ [] := by
  refine .nothing fun l u l' hrun ↦ ?_
  obtain rfl := hrun.modified
  exact ⟨rfl, rfl⟩

theorem reaches_importMapOf (m : Module) : job.Reaches (job.importMapOf m) fun _ ↦ [] := by
  refine .nothing fun l imports l' hrun ↦ ?_
  obtain ⟨l₁, l₂, hget, hrest⟩ := hrun.bind
  obtain ⟨rfl, rfl⟩ := hget.get
  split at hrest
  · obtain ⟨-, rfl⟩ := hrest.pure
    exact ⟨rfl, rfl⟩
  · split at hrest
    · exact hrest.not_throw.elim
    · obtain ⟨u, l₁, hmodified, hpure⟩ := hrest.bind
      obtain ⟨-, rfl⟩ := hpure.pure
      obtain rfl := hmodified.modified
      exact ⟨rfl, rfl⟩

/-- An argument reaches the instance that it is linked to. -/
theorem reaches_argValue (hm : job.registry.module? m.path = some m) (arg : String) :
    job.Reaches (job.argValue m args arg) fun _ ↦ (job.linkedArg? m args arg).toList := by
  rw [argValue, linkedArg?, argKey?]
  cases args.find? fun a ↦ a.1 == arg with
  | some a => exact .pure a.2
  | none =>
    cases m.findDecl? arg with
    | some d => exact reaches_reach _
    | none =>
      refine (reaches_importMapOf m).bind_nil (keeps_importMapOf hm) fun imports _ hresolve ↦ ?_
      rw [hresolve]
      cases imports.resolve [arg] with
      | found target exportPath given =>
        cases given with
        | none => exact reaches_reach _
        | some given => exact .pure arg
      | _ => exact .pure arg

/-- A parameter reaches what its argument does, if there is one. -/
theorem reaches_paramValue? (hm : job.registry.module? m.path = some m)
    (param : String × Option String) (given : Option String) :
    job.Reaches (job.paramValue? m args param given) fun _ ↦
      given.toList.filterMap (job.linkedArg? m args) := by
  cases given with
  | some arg =>
    refine ((reaches_argValue hm arg).map (keeps_argValue hm arg) some).congr fun _ ↦ ?_
    rw [Option.toList_some, List.filterMap_cons, List.filterMap_nil]
    cases job.linkedArg? m args arg <;> rfl
  | none => exact .pure _

/-- Only as many arguments are linked as there are parameters. -/
theorem reaches_bindParams (hm : job.registry.module? m.path = some m) (required : Bool)
    (span : Span) (params : List (String × Option String)) (given : List String) :
    job.Reaches (job.bindParams m args required span params given) fun _ ↦
      (given.take params.length).filterMap (job.linkedArg? m args) := by
  induction params generalizing given with
  | nil => exact .pure []
  | cons param params ih =>
    rw [bindParams]
    have hrest (bound : Args) : job.Reaches (do
        return bound ++ (← job.bindParams m args required span params given.tail)) fun _ ↦
          (given.tail.take params.length).filterMap (job.linkedArg? m args) :=
      (ih given.tail).bind_pure (keeps_bindParams hm required span params given.tail)
    have hkeys : (given.take (params.length + 1)).filterMap (job.linkedArg? m args) =
        given.head?.toList.filterMap (job.linkedArg? m args) ++
          (given.tail.take params.length).filterMap (job.linkedArg? m args) := by
      cases given with
      | nil => simp
      | cons arg given =>
        rw [List.take_succ_cons, List.head?_cons, List.tail_cons, ← List.filterMap_append]
        rfl
    rw [List.length_cons, hkeys]
    refine (reaches_paramValue? hm param given.head?).bind (keeps_paramValue? hm param given.head?)
      (fun value? _ _ ↦ ?_) fun _ _ _ ↦ rfl
    cases value? with
    | some value => exact hrest [(param.1, value)]
    | none =>
      dsimp only
      split
      · exact (reaches_warn _).bind_nil (keeps_warn _) fun _ _ _ ↦ hrest [(param.1, param.1)]
      · exact hrest []

/-- Linking a reference reaches the instances that its arguments name and the one it means. -/
theorem reaches_linkReference (hm : job.registry.module? m.path = some m) (reference : Reference) :
    job.Reaches (job.linkReference m args reference) fun l ↦
      job.linkedKeys l m args reference := by
  rw [linkReference, ← Module.binding?]
  simp only [linkedKeys, argumentKeys, referenceKey?]
  cases m.binding? reference with
  | some binding =>
    dsimp only
    rw [linkBound, boundKey?]
    split
    · cases m.decls.find? fun d ↦ d.2.ident == binding with
      | some d => exact (reaches_reach _).map (keeps_reach _) some
      | none => exact .pure none
    · exact .pure none
  | none =>
    dsimp only
    cases args.any fun a ↦ [a.1] == reference.path with
    | true => exact .pure none
    | false =>
      refine (reaches_importMapOf m).bind_nil (keeps_importMapOf hm) fun imports _ hresolve ↦ ?_
      rw [hresolve]
      cases imports.resolve reference.path with
      | found target exportPath given =>
        -- the key that was bound is the one that the names tell
        exact ((reaches_bindParams hm _ _ _ _).bind_pure (keeps_bindParams hm _ _ _ _)).bind
          (keeps_importedInstance hm target (given.getD []) reference.span)
          (fun key _ _ ↦ (reaches_reach key).map (keeps_reach key) some)
          fun key l hkey ↦ by
            rw [← hkey]
            rfl
      | unresolved =>
        dsimp only
        split
        · exact (reaches_warn _).bind_nil (keeps_warn _) fun _ _ _ ↦ .pure none
        · exact .pure none
      | ambiguous candidates => exact .throw _

/-! ### Visiting an instance -/

/-- Renaming a reference reaches what linking it does. -/
theorem reaches_renameReference (hm : job.registry.module? m.path = some m)
    (reference : Reference) : job.Reaches (job.renameReference m args reference) fun l ↦
      job.linkedKeys l m args reference := by
  refine ((reaches_linkReference hm reference).bind (keeps_linkReference hm reference)
    (fun name? _ _ ↦ ?_) fun _ _ _ ↦ rfl).congr fun l ↦ List.append_nil _
  split
  · split
    · exact .pure none
    · exact .pure _
  · exact .pure none

/-- A visit reaches the instances that the references of its declaration lead to. -/
theorem reaches_visit (hjob : job.Sound) (key : InstanceKey) (name : String) :
    job.Reaches (job.visit key name) fun l ↦ job.visitedKeys l key := by
  rw [visit]
  simp only [visitedKeys]
  cases key.target with
  | generator module generator => exact .pure ()
  | decl module index =>
    dsimp only
    cases hdecl : job.decl? module index with
    | none => exact .pure ()
    | some found =>
      obtain ⟨m, d⟩ := found
      have hm := hjob.module?_path (decl?_eq_some hdecl).1
      have hrenames : job.Reaches (job.renamesOf m d key.args name) fun l ↦
          (m.references d).flatMap (job.linkedKeys l m key.args) :=
        (Reaches.mapM (reaches_renameReference hm) (keeps_renameReference hm)
          (m.references d)).bind_pure (.mapM (keeps_renameReference hm) (m.references d))
      refine (hrenames.bind (keeps_renamesOf hm name) (fun renames _ _ ↦ ?_)
        fun _ _ _ ↦ rfl).congr fun l ↦ List.append_nil _
      -- giving the instance its splices changes no key
      intro l u l' hrun hvalid hcomplete
      obtain rfl := hrun.modified
      refine ⟨⟨hcomplete.root, ?_⟩, (hvalid.modify key renames).2, fun l'' _ key' ↦ ?_⟩
      · rw [OrderedMap.keys_modify]
        exact hcomplete.whole
      · rw [OrderedMap.keys_modify]
        simp

end LinkJob

end ShaderLink
