import ShaderLink.Proofs.Link.Naming
import ShaderLink.Proofs.Link.SelfContained
import ShaderLink.Proofs.Link.Serves

/-!
# Linking in lockstep

If a second registry serves for linking a module, linking in the two registries goes in lockstep, as
long as no instance gets one of the names that are taken only in the second. The linkages have the
same instances, modules and warnings after every number of visits, a visit fails in both or in none,
and what comes out in the end is the same.

The proofs follow the definitions of the linker with one rule for each way of putting computations
together (`LinkJob.Follows`).
-/

namespace ShaderLink

namespace LinkJob

/-- No instance has one of the names, apart from declarations of the root, which keep theirs. -/
def Avoids (job : LinkJob) (extra : List String) (l : Linkage) : Prop :=
  ∀ key name, l.name? key = some name → name ∈ extra → job.start.name? key = some name

/-- The linkages are the same but for the names taken and for how import maps are put together. -/
structure Lockstep (job : LinkJob) (extra : List String) (l l' : Linkage) : Prop where
  instances : l'.instances = l.instances
  modules : l'.modules = l.modules
  warnings : l'.warnings = l.warnings
  taken : ∀ name, name ∈ l'.taken ↔ name ∈ l.taken ∨ name ∈ extra
  importMaps : ∀ path, (l'.importMaps.get? path).map ImportMap.resolve =
    (l.importMaps.get? path).map ImportMap.resolve
  cached : job.Cached l
  kept : ∀ key name, job.start.name? key = some name → l.name? key = some name

/-- From linkages in lockstep the second computation follows the first with the same answer, as long
as the names are avoided. -/
structure Follows (job : LinkJob) (extra : List String) {α : Type} (x x' : Linking α) : Prop where
  steps : Within job.Steps x
  follows : ∀ l l' a l₁, Lockstep job extra l l' → x.Runs l a l₁ → job.Avoids extra l₁ →
    ∃ l₁', x'.Runs l' a l₁' ∧ Lockstep job extra l₁ l₁'

variable {job job' : LinkJob} {extra : List String} {l l' l₁ : Linkage} {key : InstanceKey}
  {name : String} {m : Module} {d : Decl} {args : Args} {module : ModulePath} {target : Target}
  {n bound : Nat}

/-! ### The start -/

/-- Both links start with the root's names. -/
theorem Serves.start (h : Serves job job' extra) : Lockstep job extra job.start job'.start where
  instances := by rw [LinkJob.start, LinkJob.start, h.root]
  modules := by rw [LinkJob.start, LinkJob.start, h.root]
  warnings := rfl
  taken := h.taken
  importMaps := fun _ ↦ rfl
  cached := (valid_start job).cached
  kept := fun _ _ hname ↦ hname

/-! ### Names avoided -/

/-- Names that are avoided in the end were avoided before. -/
theorem Avoids.of_steps (h : job.Avoids extra l₁) (hsteps : job.Steps l l₁) :
    job.Avoids extra l :=
  fun key name hname hextra ↦ h key name (hsteps.name?_eq hname) hextra

/-- It is enough that names are avoided when linking has come to an end. -/
theorem avoids_of_close (hjob : job.Sound) (hclose : job.close bound = .ok l)
    (h : job.Avoids extra l) (hafter : job.After n l₁) : job.Avoids extra l₁ := by
  obtain ⟨n', hafter', -, hsize⟩ := after_of_close hclose
  have hgrows := hafter.grows hjob hafter' (hafter.le_of_stops (hafter'.stops hsize))
  exact fun key name hname hextra ↦ h key name (hgrows.names key name hname) hextra

/-! ### Reaching instances -/

namespace Lockstep

/-- A new instance gets the same name in both, unless it runs into an added one. -/
theorem addInstance (h : Lockstep job extra l l') (hserves : Serves job job' extra)
    (hhas : job.registry.Has key.target) (havoids : job.Avoids extra (job.addInstance key l).2) :
    (job'.addInstance key l').1 = (job.addInstance key l).1 ∧
      Lockstep job extra (job.addInstance key l).2 (job'.addInstance key l').2 := by
  have hsteps : job.Steps l (job.addInstance key l).2 := .single (.addInstance key)
  cases hadd : job.addInstance key l with
  | mk name l₁ =>
    rw [hadd] at havoids hsteps
    rcases addInstance_cases hadd with ⟨hname, rfl⟩ | ⟨hnew, rfl, rfl⟩
    · obtain ⟨i, hi, rfl⟩ := Option.map_eq_some_iff.1 hname
      rw [LinkJob.addInstance, h.instances, hi]
      exact ⟨rfl, h⟩
    · -- a new instance is no declaration of the root, so its name is none of the further ones
      have hfree : freshName (job.nameOf key.target) l.taken ∉ l'.taken := by
        intro hmem
        rcases (h.taken _).1 hmem with hmem | hmem
        · exact freshName_not_mem _ _ hmem
        · have hstart := havoids key _ (by rw [name?_insert, if_pos rfl]) hmem
          exact hnew (Linkage.mem_keys_iff_name?.2 ⟨_, h.kept _ _ hstart⟩)
      have hname := freshName_eq_of_subset (fun name hmem ↦ (h.taken name).2 (.inl hmem)) hfree
      rw [LinkJob.addInstance, h.instances, OrderedMap.get?_eq_none_iff.2 hnew]
      dsimp only
      rw [hserves.nameOf_eq hhas, hname]
      refine ⟨rfl, ⟨rfl, h.modules, h.warnings, fun name ↦ ?_, h.importMaps,
        h.cached, fun key' name hstart ↦ hsteps.name?_eq (h.kept key' name hstart)⟩⟩
      rw [List.mem_cons, List.mem_cons, h.taken, or_assoc]

/-- So do all the declarations of a module. -/
theorem addAll (h : Lockstep job extra l l') (hserves : Serves job job' extra)
    {decls : List (Nat × Decl)} (hhas : ∀ d ∈ decls, job.registry.Has (.decl module d.1))
    (havoids : job.Avoids extra
      (decls.foldl (fun l d ↦ (job.addInstance ⟨.decl module d.1, []⟩ l).2) l)) :
    Lockstep job extra (decls.foldl (fun l d ↦ (job.addInstance ⟨.decl module d.1, []⟩ l).2) l)
      (decls.foldl (fun l d ↦ (job'.addInstance ⟨.decl module d.1, []⟩ l).2) l') := by
  induction decls generalizing l l' with
  | nil => exact h
  | cons d decls ih =>
    obtain ⟨hd, hdecls⟩ := List.forall_mem_cons.1 hhas
    have hrest := (extends_addAll job decls module
      (job.addInstance ⟨.decl module d.1, []⟩ l).2).grows.names
    have hfirst : job.Avoids extra (job.addInstance ⟨.decl module d.1, []⟩ l).2 :=
      fun key name hname ↦ havoids key name (hrest key name hname)
    exact ih (h.addInstance hserves hd hfirst).2 hdecls havoids

/-- A module contributes the same instances. -/
theorem addModule (h : Lockstep job extra l l') (hserves : Serves job job' extra)
    (hm : job.registry.module? module = some m)
    (havoids : job.Avoids extra (job.addModule module l)) :
    Lockstep job extra (job.addModule module l) (job'.addModule module l') := by
  rw [LinkJob.addModule] at havoids
  rw [LinkJob.addModule, LinkJob.addModule, h.modules]
  split
  · exact h
  · rename_i hnew
    rw [if_neg hnew] at havoids
    dsimp only at havoids ⊢
    rw [hserves.options, hm, hserves.module? _ _ hm]
    rw [hm] at havoids
    have hadded : Lockstep job extra { l with modules := l.modules ++ [module] }
        { l' with modules := l.modules ++ [module] } :=
      ⟨h.instances, rfl, h.warnings, h.taken, h.importMaps, h.cached, h.kept⟩
    refine hadded.addAll hserves (fun d hd ↦ ?_) havoids
    split at hd
    · exact ⟨m, d.2, hm, Module.mem_decls_iff.1 hd⟩
    · cases hd

/-- Reaching an instance gives the same name and keeps the links in lockstep. -/
theorem reach (h : Lockstep job extra l l') (hserves : Serves job job' extra)
    (hhas : job.registry.Has key.target) (havoids : job.Avoids extra (job.reach key l).2) :
    (job'.reach key l').1 = (job.reach key l).1 ∧
      Lockstep job extra (job.reach key l).2 (job'.reach key l').2 := by
  rw [LinkJob.reach] at havoids
  rw [LinkJob.reach, LinkJob.reach]
  dsimp only at havoids ⊢
  cases htarget : key.target with
  | decl module index =>
    rw [htarget] at havoids hhas
    have hsteps := job.steps_addModule module (job.addInstance key l).2
    obtain ⟨hname, hadded⟩ := h.addInstance hserves (htarget ▸ hhas) (havoids.of_steps hsteps)
    obtain ⟨m, d, hm, -⟩ := hhas
    exact ⟨hname, hadded.addModule hserves hm havoids⟩
  | generator module name =>
    rw [htarget] at havoids
    exact h.addInstance hserves hhas havoids

end Lockstep

/-! ### Computations in lockstep -/

namespace Follows

variable {α β : Type} {x x' : Linking α}

theorem pure (a : α) : Follows job extra (Pure.pure a) (Pure.pure a) where
  steps := job.stepClosed_steps.pure a
  follows l l' a' l₁ h hrun _ := by
    obtain ⟨rfl, rfl⟩ := hrun.pure
    exact ⟨l', rfl, h⟩

/-- Computations in turn stay in lockstep if each does. -/
theorem bind {f f' : α → Linking β} (hx : Follows job extra x x')
    (hf : ∀ a, Follows job extra (f a) (f' a)) : Follows job extra (x >>= f) (x' >>= f') where
  steps := job.stepClosed_steps.bind hx.steps fun a ↦ (hf a).steps
  follows l l' b l₂ h hrun havoids := by
    obtain ⟨a, l₁, hfirst, hrest⟩ := hrun.bind
    have hsteps := (hf a).steps l₁ b l₂ hrest
    obtain ⟨l₁', hfirst', h₁⟩ := hx.follows l l' a l₁ h hfirst (havoids.of_steps hsteps)
    obtain ⟨l₂', hrest', h₂⟩ := (hf a).follows l₁ l₁' b l₂ h₁ hrest havoids
    refine ⟨l₂', ?_, h₂⟩
    rw [Linking.Runs, StateT.run_bind, hfirst']
    exact hrest'

theorem map (hx : Follows job extra x x') (f : α → β) :
    Follows job extra (f <$> x) (f <$> x') := by
  rw [map_eq_pure_bind, map_eq_pure_bind]
  exact hx.bind fun a ↦ .pure (f a)

/-- So does going through a list. -/
theorem mapM {f f' : α → Linking β} (h : ∀ a, Follows job extra (f a) (f' a)) (as : List α) :
    Follows job extra (as.mapM f) (as.mapM f') := by
  induction as with
  | nil => exact .pure []
  | cons a as ih =>
    rw [List.mapM_cons, List.mapM_cons]
    exact (h a).bind fun b ↦ ih.bind fun bs ↦ .pure (b :: bs)

theorem modify {f : Linkage → Linkage} (hsteps : ∀ l, job.Steps l (f l))
    (h : ∀ l l', Lockstep job extra l l' → Lockstep job extra (f l) (f l')) :
    Follows job extra (modify f) (modify f) where
  steps := StepClosed.modify hsteps
  follows l l' u l₁ hl hrun _ := by
    obtain rfl := hrun.modified
    exact ⟨f l', rfl, h l l' hl⟩

theorem throw (e : LinkError) : Follows job extra (throw e : Linking α) (throw e) where
  steps := StepClosed.thrown e
  follows _ _ _ _ _ hrun _ := hrun.not_throw.elim

end Follows

theorem follows_warn (w : Warning) : Follows job extra (Linking.warn w) (Linking.warn w) :=
  .modify (fun l ↦ .single (.note l.importMaps (l.warnings ++ [w]))) fun _ _ h ↦
    ⟨h.instances, h.modules, by rw [h.warnings], h.taken, h.importMaps, h.cached, h.kept⟩

/-- Reaching an instance is followed by reaching it. -/
theorem follows_reach (hserves : Serves job job' extra) (hhas : job.registry.Has key.target) :
    Follows job extra (modifyGet (job.reach key)) (modifyGet (job'.reach key)) where
  steps := job.stepClosed_steps.reached key
  follows l l' name l₁ h hrun havoids := by
    have hreach := hrun.modifyGet
    have havoids' : job.Avoids extra (job.reach key l).2 := by rwa [hreach]
    obtain ⟨hname, hreached⟩ := h.reach hserves hhas havoids'
    rw [hreach] at hname hreached
    have hname : (job'.reach key l').1 = name := hname
    refine ⟨(job'.reach key l').2, ?_, hreached⟩
    rw [← hname]
    rfl

/-- The import maps that are made or kept make the same of references. -/
theorem Lockstep.importMapOf (h : Lockstep job extra l l') (hserves : Serves job job' extra)
    (hm : job.registry.module? m.path = some m) {imports : ImportMap}
    (hrun : (job.importMapOf m).Runs l imports l₁) :
    ∃ imports' l₁', (job'.importMapOf m).Runs l' imports' l₁' ∧
      imports'.resolve = imports.resolve ∧ imports.resolve = job.resolution m ∧
      Lockstep job extra l₁ l₁' := by
  have hresolution {imports : ImportMap} {warnings : List Warning}
      (hmap : m.importMap job.registry = .ok (imports, warnings)) :
      imports.resolve = job.resolution m := by
    funext path
    rw [resolution, hmap]
  have hsame := h.importMaps m.path
  -- a map that is kept by one is kept by both
  cases hkept : l.importMaps.get? m.path with
  | some kept =>
    obtain ⟨rfl, rfl⟩ :=
      Prod.mk.inj (Except.ok.inj ((run_importMapOf_of_kept hkept).symm.trans hrun))
    obtain ⟨m', warnings, hm', hmap⟩ := h.cached m.path _ hkept
    obtain rfl := Option.some.inj (hm.symm.trans hm')
    rw [hkept] at hsame
    obtain ⟨imports', hkept', hresolve⟩ := Option.map_eq_some_iff.1 hsame
    exact ⟨imports', l', run_importMapOf_of_kept hkept', hresolve, hresolution hmap, h⟩
  | none =>
    rw [hkept] at hsame
    have hkept' := Option.map_eq_none_iff.1 hsame
    rcases Except.map_eq_map (hserves.importMap _ _ hm) with ⟨b, hmap, -⟩ |
      ⟨⟨imports₁, warnings₁⟩, ⟨imports', warnings'⟩, hmap, hmap', hview⟩
    · cases (run_importMapOf_of_error hkept hmap).symm.trans hrun
    · obtain ⟨rfl, rfl⟩ :=
        Prod.mk.inj (Except.ok.inj ((run_importMapOf_of_ok hkept hmap).symm.trans hrun))
      obtain ⟨hresolve, rfl⟩ := Prod.mk.inj hview
      refine ⟨imports', _, run_importMapOf_of_ok hkept' hmap', hresolve, hresolution hmap,
        ⟨h.instances, h.modules, ?_, h.taken, fun path ↦ ?_, h.cached.insert hm hmap _, h.kept⟩⟩
      · dsimp only
        rw [h.warnings]
      · rw [OrderedMap.get?_insert, OrderedMap.get?_insert]
        split
        · exact congrArg some hresolve
        · exact h.importMaps path

/-- What is done with the import map of a module follows if it depends only on what the imports make
of references. -/
theorem follows_importMapOf {β : Type} {f f' : ImportMap → Linking β}
    (hserves : Serves job job' extra) (hm : job.registry.module? m.path = some m)
    (hsteps : Within job.Steps (job.importMapOf m >>= f))
    (hf : ∀ imports imports', imports'.resolve = imports.resolve →
      imports.resolve = job.resolution m → Follows job extra (f imports) (f' imports')) :
    Follows job extra (job.importMapOf m >>= f) (job'.importMapOf m >>= f') where
  steps := hsteps
  follows l l' b l₂ h hrun havoids := by
    obtain ⟨imports, l₁, hfirst, hrest⟩ := hrun.bind
    obtain ⟨imports', l₁', hfirst', hresolve, hresolution, h₁⟩ := h.importMapOf hserves hm hfirst
    obtain ⟨l₂', hrest', h₂⟩ :=
      (hf imports imports' hresolve hresolution).follows l₁ l₁' b l₂ h₁ hrest havoids
    refine ⟨l₂', ?_, h₂⟩
    rw [Linking.Runs, StateT.run_bind, hfirst']
    exact hrest'

/-! ### Linking a reference -/

/-- Arguments get the same values. -/
theorem follows_argValue (hserves : Serves job job' extra) (hjob : job.Sound)
    (hm : job.registry.module? m.path = some m) (arg : String) :
    Follows job extra (job.argValue m args arg) (job'.argValue m args arg) := by
  have hsteps : Within job.Steps (job.argValue m args arg) := job.stepClosed_steps.argValue arg
  rw [argValue] at hsteps
  rw [argValue, argValue]
  cases hfind : args.find? fun a ↦ a.1 == arg with
  | some a => exact .pure _
  | none =>
    cases hdecl : m.findDecl? arg with
    | some d =>
      refine follows_reach hserves ⟨m, d.2, hm, ?_⟩
      exact Module.mem_decls_iff.1 (List.mem_of_find?_eq_some hdecl)
    | none =>
      rw [hfind, hdecl] at hsteps
      refine follows_importMapOf hserves hm hsteps fun imports imports' hresolve hresolution ↦ ?_
      rw [hresolve]
      split
      · rename_i hfound
        rw [hresolution] at hfound
        exact follows_reach hserves (has_of_resolution hjob.built hfound)
      · exact .pure arg

/-- So do parameters, with what stands in for arguments that are not given. -/
theorem follows_bindParams (hserves : Serves job job' extra) (hjob : job.Sound)
    (hm : job.registry.module? m.path = some m) (required : Bool) (span : Span)
    (params : List (String × Option String)) (given : List String) :
    Follows job extra (job.bindParams m args required span params given)
      (job'.bindParams m args required span params given) := by
  induction params generalizing given with
  | nil => exact .pure []
  | cons param params ih =>
    have hvalue : Follows job extra (job.paramValue? m args param given.head?)
        (job'.paramValue? m args param given.head?) := by
      cases given.head? with
      | some arg => exact (follows_argValue hserves hjob hm arg).map some
      | none =>
        rw [paramValue?, paramValue?, hserves.options]
        exact .pure _
    have hrest (bound : Args) : Follows job extra
        (do return bound ++ (← job.bindParams m args required span params given.tail))
        (do return bound ++ (← job'.bindParams m args required span params given.tail)) :=
      (ih given.tail).bind fun rest ↦ .pure (bound ++ rest)
    rw [bindParams, bindParams]
    refine hvalue.bind fun value? ↦ ?_
    cases value? with
    | some value => exact hrest [(param.1, value)]
    | none =>
      dsimp only
      split
      · exact (follows_warn _).bind fun _ ↦ hrest [(param.1, param.1)]
      · exact hrest []

theorem follows_linkBound (hserves : Serves job job' extra)
    (hm : job.registry.module? m.path = some m) (binding : IdentId) :
    Follows job extra (job.linkBound m args binding) (job'.linkBound m args binding) := by
  rw [linkBound, linkBound]
  split
  · cases hfind : m.decls.find? fun d ↦ d.2.ident == binding with
    | some d =>
      have hd := Module.mem_decls_iff.1 (List.mem_of_find?_eq_some hfind)
      have hhas : job.registry.Has (.decl m.path d.1) := ⟨m, d.2, hm, hd⟩
      exact (follows_reach hserves hhas).map some
    | none => exact .pure none
  · exact .pure none

theorem follows_linkImported (hserves : Serves job job' extra) (hjob : job.Sound)
    (hm : job.registry.module? m.path = some m) (reference : Reference) :
    Follows job extra (job.linkImported m args reference) (job'.linkImported m args reference) := by
  refine follows_importMapOf hserves hm (job.stepClosed_steps.linkImported reference)
    fun imports imports' hresolve hresolution ↦ ?_
  rw [hresolve]
  cases hresolved : imports.resolve reference.path with
  | found target exportPath given =>
    rw [hresolution] at hresolved
    have hhas := has_of_resolution hjob.built hresolved
    simp only [importedInstance, bind_assoc, pure_bind, hserves.paramsOf_eq hhas]
    refine (follows_bindParams hserves hjob hm _ _ _ _).bind fun values ↦ ?_
    have hreach : Follows job extra (modifyGet (job.reach ⟨target, values⟩))
        (modifyGet (job'.reach ⟨target, values⟩)) := follows_reach hserves hhas
    exact hreach.map some
  | unresolved =>
    dsimp only
    split
    · exact (follows_warn _).bind fun _ ↦ .pure none
    · exact .pure none
  | ambiguous candidates => exact .throw _

/-- A reference is linked to the same name. -/
theorem follows_linkReference (hserves : Serves job job' extra) (hjob : job.Sound)
    (hm : job.registry.module? m.path = some m) (reference : Reference) :
    Follows job extra (job.linkReference m args reference)
      (job'.linkReference m args reference) := by
  rw [linkReference, linkReference]
  split
  · exact follows_linkBound hserves hm _
  · split
    · exact .pure none
    · exact follows_linkImported hserves hjob hm reference

/-! ### Visits -/

/-- It is renamed in the same way. -/
theorem follows_renameReference (hserves : Serves job job' extra) (hjob : job.Sound)
    (hm : job.registry.module? m.path = some m) (reference : Reference) :
    Follows job extra (job.renameReference m args reference)
      (job'.renameReference m args reference) := by
  refine (follows_linkReference hserves hjob hm reference).bind fun name? ↦ ?_
  split
  · split
    · exact .pure none
    · exact .pure _
  · exact .pure none

theorem follows_settle (key : InstanceKey) (renames : List Splice) : Follows job extra
    (modify fun l ↦ { l with instances := l.instances.modify key fun i ↦ { i with renames } })
    (modify fun l ↦ { l with instances := l.instances.modify key fun i ↦ { i with renames } }) := by
  refine .modify (fun l ↦ .single (.settle key renames)) fun l l' h ↦ ⟨?_, h.modules, h.warnings,
    h.taken, h.importMaps, h.cached, fun key' name hname ↦ ?_⟩
  · dsimp only
    rw [h.instances]
  · rw [name?_modify]
    exact h.kept key' name hname

/-- A visit to an instance of something that the registry has. -/
theorem follows_visit (hserves : Serves job job' extra) (hjob : job.Sound)
    (hhas : job.registry.Has key.target) (name : String) :
    Follows job extra (job.visit key name) (job'.visit key name) := by
  rw [visit, visit]
  cases htarget : key.target with
  | generator module generator => exact .pure ()
  | decl module index =>
    rw [htarget] at hhas
    dsimp only
    rw [hserves.decl?_eq hhas]
    cases hdecl : job.decl? module index with
    | none => exact .pure ()
    | some found =>
      obtain ⟨m, d⟩ := found
      have hm := hjob.module?_path (decl?_eq_some hdecl).1
      have hrenames : Follows job extra (job.renamesOf m d key.args name)
          (job'.renamesOf m d key.args name) :=
        (Follows.mapM (follows_renameReference hserves hjob hm) (m.references d)).bind
          fun _ ↦ .pure _
      exact hrenames.bind fun renames ↦ follows_settle key renames

/-! ### Closing the linkage -/

/-- The instances that have been reached are of something that the registry has. -/
theorem After.has (h : job.After n l) (hjob : job.Sound) {i : Instance}
    (hmem : (key, i) ∈ l.instances.toList) : job.registry.Has key.target :=
  (h.needed hjob (.refl l) (List.mem_map_of_mem hmem)).has hjob

/-- As long as names are avoided, the linkages after a number of visits are in lockstep. -/
theorem After.lockstep (h : job.After n l) (hserves : Serves job job' extra) (hjob : job.Sound)
    (havoids : ∀ k l, k ≤ n → job.After k l → job.Avoids extra l) :
    ∃ l', job'.After n l' ∧ Lockstep job extra l l' := by
  induction h with
  | @start imports l hrun =>
    obtain ⟨imports', l', hrun', -, -, h'⟩ := hserves.start.importMapOf hserves hjob.root hrun
    rw [← hserves.root] at hrun'
    exact ⟨l', .start hrun', h'⟩
  | @visit n l l₁ key i u h hget hrun ih =>
    obtain ⟨l', hafter', h'⟩ := ih fun k l hle ↦ havoids k l (Nat.le_succ_of_le hle)
    have hhas := h.has hjob (List.mem_of_getElem? hget)
    obtain ⟨l₁', hrun', h₁⟩ := (follows_visit hserves hjob hhas i.name).follows l l' u l₁ h' hrun
      (havoids (n + 1) l₁ le_rfl (.visit h hget hrun))
    refine ⟨l₁', .visit hafter' ?_ hrun', h₁⟩
    rw [h'.instances]
    exact hget

/-- The visits from a place on end in lockstep too, or fail in both registries in the same way. -/
theorem close_lockstep_from (hserves : Serves job job' extra) (hjob : job.Sound)
    (hjob' : job'.Sound) (havoids : ∀ n l, job.After n l → job.Avoids extra l) (bound : Nat)
    (h : job.After n l) (h' : job'.After n l') (hl : Lockstep job extra l l') :
    (∃ e, job.close (n + bound) = .error e ∧ job'.close (n + bound) = .error e) ∨
      ∃ l₁ l₁', job.close (n + bound) = .ok l₁ ∧ job'.close (n + bound) = .ok l₁' ∧
        Lockstep job extra l₁ l₁' := by
  induction bound generalizing n l l' with
  | zero =>
    rw [h.close_add, h'.close_add, run_visitFrom_zero, run_visitFrom_zero, hl.instances]
    split
    · exact .inl ⟨_, rfl, rfl⟩
    · exact .inr ⟨l, l', rfl, rfl, hl⟩
  | succ bound ih =>
    cases hget : l.instances.toList[n]? with
    | none =>
      have hget' : l'.instances.toList[n]? = none := by rw [hl.instances, hget]
      rw [h.close_add, h'.close_add, run_visitFrom_succ, run_visitFrom_succ, hget, hget']
      exact .inr ⟨l, l', rfl, rfl, hl⟩
    | some found =>
      obtain ⟨key, i⟩ := found
      have hget' : l'.instances.toList[n]? = some (key, i) := by rw [hl.instances, hget]
      have hhas := h.has hjob (List.mem_of_getElem? hget)
      -- the other link fails at the same visit, or the visit keeps both in lockstep
      cases hrun : (job.visit key i.name).run l with
      | error e =>
        have hfailure := (failsWith_visit hjob key i.name l (h.visited hjob).1.valid e).1 hrun
        have hrun' := (failsWith_visit hjob' key i.name l' (h'.visited hjob').1.valid e).2
          ((hserves.visitFailure?_eq hjob hhas).trans hfailure)
        have hle : n + 1 ≤ n + (bound + 1) := by omega
        exact .inl ⟨e, (stops_of_error h hjob hget hrun).close_eq _ hle,
          (stops_of_error h' hjob' hget' hrun').close_eq _ hle⟩
      | ok r =>
        have hafter : job.After (n + 1) r.2 := .visit h hget hrun
        obtain ⟨l₁', hrun', h₁⟩ := (follows_visit hserves hjob hhas i.name).follows l l' r.1 r.2 hl
          hrun (havoids (n + 1) r.2 hafter)
        have hrest := ih hafter (.visit h' hget' hrun') h₁
        rwa [Nat.add_assoc, Nat.add_comm 1 bound] at hrest

/-- Linking comes to linkages in lockstep, or it fails in both registries in the same way. -/
theorem close_lockstep (hserves : Serves job job' extra) (hjob : job.Sound) (hjob' : job'.Sound)
    (havoids : ∀ n l, job.After n l → job.Avoids extra l) (bound : Nat) :
    (∃ e, job.close bound = .error e ∧ job'.close bound = .error e) ∨
      ∃ l l', job.close bound = .ok l ∧ job'.close bound = .ok l' ∧
        Lockstep job extra l l' := by
  cases hrun : (job.importMapOf job.root).run job.start with
  | error e =>
    have hfailure := (failsWith_importMapOf hjob.root job.start (valid_start job) e).1 hrun
    have hrun' := (failsWith_importMapOf hjob'.root job'.start (valid_start job') e).2
      (by rw [hserves.root, hserves.importFailure?_eq hjob.root, hfailure])
    refine .inl ⟨e, ?_, ?_⟩
    · rw [close, StateT.run_bind, hrun]
      rfl
    · rw [close, StateT.run_bind, hrun']
      rfl
  | ok r =>
    obtain ⟨l', h', hl⟩ := (After.start hrun).lockstep hserves hjob fun k l _ ↦ havoids k l
    have hclosed := close_lockstep_from hserves hjob hjob' havoids bound (.start hrun) h' hl
    rwa [Nat.zero_add] at hclosed

/-! ### The linked text -/

/-- The modules that contribute are found in both registries. -/
theorem Lockstep.contributors_eq (h : Lockstep job extra l l') (hserves : Serves job job' extra)
    (hjob : job.Sound) (hafter : job.After n l) : job'.contributors l' = job.contributors l := by
  have hfound : ∀ module ∈ l.modules, ∃ m, job.registry.module? module = some m := by
    intro module hmodule
    rcases hafter.contributing module hmodule with rfl | ⟨index, args, hkey⟩
    · exact ⟨_, hjob.root⟩
    · obtain ⟨m, d, hm, -⟩ := (hafter.needed hjob (.refl l) hkey).has hjob
      exact ⟨m, hm⟩
  rw [contributors, contributors, h.modules]
  refine List.filterMap_congr fun module hmodule ↦ ?_
  obtain ⟨m, hm⟩ := hfound module hmodule
  rw [hm, hserves.module? _ _ hm]

/-- From linkages in lockstep the same is put together. -/
theorem Lockstep.output_eq (h : Lockstep job extra l l') (hserves : Serves job job' extra)
    (hjob : job.Sound) (hafter : job.After n l) : job'.output l' = job.output l := by
  have hcontributors := h.contributors_eq hserves hjob hafter
  have hdirectives : job'.directivesText l' = job.directivesText l := by
    rw [directivesText, directivesText, hcontributors, hserves.root]
  have hroot : job'.rootText l' = job.rootText l := by
    have hown : job'.isOwn = job.isOwn := by
      funext key
      rw [isOwn, isOwn, hserves.root]
    rw [rootText, rootText, hserves.root, h.instances, hown]
  have hpieces : l'.instances.toList.zipIdx.mapM job'.piece =
      l.instances.toList.zipIdx.mapM job.piece := by
    rw [h.instances]
    refine Except.mapM_congr fun e he ↦ ?_
    obtain ⟨⟨key, i⟩, place⟩ := e
    exact hserves.piece_eq (hafter.has hjob (List.fst_mem_of_mem_zipIdx he))
  rw [output, output, hdirectives, hroot, hpieces, hcontributors, h.warnings]

/-- Linking a module in a registry that serves for it gives the same result as long as the further
names are avoided. -/
theorem link_lockstep (hserves : Serves job job' extra) (hr : job.registry.Built)
    (hr' : job'.registry.Built) {path : ModulePath}
    (hroot : job.registry.root path = .ok job.root)
    (hroot' : job'.registry.root path = .ok job'.root)
    (havoids : ∀ n l, job.After n l → job.Avoids extra l) (bound : Nat) :
    job'.registry.link job'.options path bound = job.registry.link job.options path bound := by
  have hjob := sound_of_root hr hroot
  have hjob' := sound_of_root hr' hroot'
  rw [link_eq hroot, link_eq hroot']
  rcases close_lockstep hserves hjob hjob' havoids bound with
    ⟨e, hclose, hclose'⟩ | ⟨l, l', hclose, hclose', hl⟩
  · rw [hclose, hclose']
    rfl
  · obtain ⟨n, hafter, -, -⟩ := after_of_close hclose
    rw [hclose, hclose']
    change (job'.output l').mapError LinkError.fault = (job.output l).mapError LinkError.fault
    rw [hl.output_eq hserves hjob hafter]

end LinkJob

end ShaderLink
