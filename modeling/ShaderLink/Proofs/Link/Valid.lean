import ShaderLink.Proofs.Link.Name
import ShaderLink.Proofs.Link.Run
import ShaderLink.Proofs.Module.Splices
import ShaderLink.Proofs.Registry.Built

/-!
# What holds of every linkage

Three things hold of a linkage from the start on. Its instances are **well named**: the declarations
of the root keep their names, and every other instance has the first name that nothing else had.
Its instances are **covered**: the module of each of them contributes. And its import maps are those
of the modules they are kept for.

Each is shown to hold at the start and to be kept when an instance is reached, which is the only way
in which instances and modules are added.
-/

namespace ShaderLink

namespace LinkJob

variable (job : LinkJob)

/-- The name was taken from the start, or is the name of another instance. -/
def Occupied (l : Linkage) (key : InstanceKey) (name : String) : Prop :=
  name ∈ job.start.taken ∨ ∃ key', key' ≠ key ∧ l.name? key' = some name

/-- The name is the first that was free for the instance: the name of its target, or that name with
the least number that makes it free. -/
structure Fresh (l : Linkage) (key : InstanceKey) (name : String) : Prop where
  new : name ∉ job.start.taken
  first : name = job.nameOf key.target ∨
    ∃ n : Nat, name = job.nameOf key.target ++ toString n ∧
      job.Occupied l key (job.nameOf key.target) ∧
      ∀ k < n, job.Occupied l key (job.nameOf key.target ++ toString k)

/-- The declarations of the root keep their names, all other names are fresh and different from each
other, and the names taken are those taken from the start and those of the instances. -/
structure WellNamed (l : Linkage) : Prop where
  named : ∀ key name, l.name? key = some name → job.start.name? key = some name ∨
    job.Fresh l key name
  taken_of_name? : ∀ key name, l.name? key = some name → name ∈ l.taken
  name?_of_taken : ∀ name ∈ l.taken, name ∈ job.start.taken ∨ ∃ key, l.name? key = some name
  distinct : ∀ key key' name, l.name? key = some name → l.name? key' = some name →
    key = key' ∨ job.start.name? key = some name ∧ job.start.name? key' = some name
  start_taken : job.start.taken ⊆ l.taken

/-- The modules of the instances contribute. -/
def Covered (l : Linkage) : Prop :=
  ∀ key ∈ l.instances.keys, ∀ module index, key.target = .decl module index → module ∈ l.modules

/-- The import maps that are kept are those of the modules. -/
def Cached (l : Linkage) : Prop :=
  ∀ path imports, l.importMaps.get? path = some imports →
    ∃ m warnings, job.registry.module? path = some m ∧
      m.importMap job.registry = .ok (imports, warnings)

/-- All that holds of every linkage. -/
structure Valid (l : Linkage) : Prop where
  wellNamed : job.WellNamed l
  covered : Covered l
  cached : job.Cached l

variable {job} {l l' : Linkage} {key key' : InstanceKey} {name : String}

/-! ### Names -/

/-- A name that is occupied stays so. -/
theorem Occupied.mono (h : job.Occupied l key name) (hgrows : l.Grows l') :
    job.Occupied l' key name :=
  h.imp id fun ⟨key', hne, hname⟩ ↦ ⟨key', hne, hgrows.names key' name hname⟩

/-- A name that was fresh for an instance stays right for it. -/
theorem Fresh.mono (h : job.Fresh l key name) (hgrows : l.Grows l') : job.Fresh l' key name where
  new := h.new
  first := h.first.imp id fun ⟨n, hname, hbase, hbelow⟩ ↦
    ⟨n, hname, hbase.mono hgrows, fun k hk ↦ (hbelow k hk).mono hgrows⟩

/-- What was taken when a new instance got its name is occupied. -/
theorem WellNamed.occupied (h : job.WellNamed l) (hnew : key ∉ l.instances.keys)
    (hname : name ∈ l.taken) : job.Occupied l key name := by
  rcases h.name?_of_taken name hname with hstart | ⟨key', hkey'⟩
  · exact .inl hstart
  · refine .inr ⟨key', ?_, hkey'⟩
    rintro rfl
    exact hnew (Linkage.mem_keys_iff_name?.2 ⟨name, hkey'⟩)

/-- A name that is given to a new instance is fresh. -/
theorem WellNamed.fresh (h : job.WellNamed l) (hnew : key ∉ l.instances.keys) :
    job.Fresh l key (freshName (job.nameOf key.target) l.taken) where
  new := fun hmem ↦ freshName_not_mem _ _ (h.start_taken hmem)
  first := by
    rcases freshName_cases (job.nameOf key.target) l.taken with ⟨hname, -⟩ |
      ⟨hbase, n, hname, -, hbelow⟩
    · exact .inl hname
    · exact .inr ⟨n, hname, h.occupied hnew hbase, fun k hk ↦ h.occupied hnew (hbelow k hk)⟩

/-- So names stay in order when an instance is added. -/
theorem WellNamed.addInstance (h : job.WellNamed l)
    (hadd : job.addInstance key l = (name, l')) : job.WellNamed l' := by
  have hgrows := (extends_addInstance hadd).1.grows
  rcases addInstance_cases hadd with ⟨-, rfl⟩ | ⟨hnew, rfl, rfl⟩
  · exact h
  · have hfresh {key' : InstanceKey} :
        l.name? key' ≠ some (freshName (job.nameOf key.target) l.taken) :=
      fun hname' ↦ freshName_not_mem _ _ (h.taken_of_name? key' _ hname')
    refine ⟨fun key' name' hname' ↦ ?_, fun key' name' hname' ↦ ?_, fun name' hname' ↦ ?_,
      fun key' key'' name' hname' hname'' ↦ ?_,
      List.Subset.trans h.start_taken (List.subset_cons_self _ _)⟩
    · -- the new instance has a fresh name, and other fresh names stay fresh
      rw [name?_insert] at hname'
      split at hname'
      · rename_i hkey
        obtain rfl := Option.some.inj hname'
        rw [hkey]
        exact .inr ((h.fresh hnew).mono hgrows)
      · exact (h.named key' name' hname').imp id fun hfresh ↦ hfresh.mono hgrows
    · rw [name?_insert] at hname'
      split at hname'
      · obtain rfl := Option.some.inj hname'
        exact List.mem_cons_self
      · exact List.mem_cons_of_mem _ (h.taken_of_name? key' name' hname')
    · rcases List.mem_cons.1 hname' with rfl | hname'
      · exact .inr ⟨key, by rw [name?_insert, if_pos rfl]⟩
      · exact (h.name?_of_taken name' hname').imp id fun ⟨key', hkey'⟩ ↦
          ⟨key', hgrows.names key' name' hkey'⟩
    · -- no other instance had the fresh name
      rw [name?_insert] at hname' hname''
      split at hname'
      · rename_i hkey'
        obtain rfl := Option.some.inj hname'
        split at hname''
        · rename_i hkey''
          exact .inl (hkey'.trans hkey''.symm)
        · exact absurd hname'' hfresh
      · split at hname''
        · obtain rfl := Option.some.inj hname''
          exact absurd hname' hfresh
        · exact h.distinct key' key'' name' hname' hname''

/-- Only names matter, and not splices, modules, import maps and warnings. -/
theorem WellNamed.of_eq (h : job.WellNamed l) (hname : ∀ key, l'.name? key = l.name? key)
    (htaken : l'.taken = l.taken) : job.WellNamed l' := by
  have hoccupied {key : InstanceKey} {name : String} (h : job.Occupied l key name) :
      job.Occupied l' key name :=
    h.imp id fun ⟨key', hne, hkey'⟩ ↦ ⟨key', hne, (hname key').trans hkey'⟩
  refine ⟨fun key name h' ↦ ?_, fun key name h' ↦ ?_, fun name h' ↦ ?_,
    fun key key' name h' h'' ↦ ?_, ?_⟩
  · rw [hname] at h'
    exact (h.named key name h').imp id fun hfresh ↦ ⟨hfresh.new, hfresh.first.imp id
      fun ⟨n, hn, hbase, hbelow⟩ ↦ ⟨n, hn, hoccupied hbase, fun k hk ↦ hoccupied (hbelow k hk)⟩⟩
  · rw [hname] at h'
    rw [htaken]
    exact h.taken_of_name? key name h'
  · rw [htaken] at h'
    exact (h.name?_of_taken name h').imp id fun ⟨key, hkey⟩ ↦ ⟨key, (hname key).trans hkey⟩
  · rw [hname] at h' h''
    exact h.distinct key key' name h' h''
  · rw [htaken]
    exact h.start_taken

/-- They do when several are added. -/
theorem WellNamed.addAll (h : job.WellNamed l) (decls : List (Nat × Decl)) (module : ModulePath) :
    job.WellNamed (decls.foldl (fun l d ↦ (job.addInstance ⟨.decl module d.1, []⟩ l).2) l) := by
  induction decls generalizing l with
  | nil => exact h
  | cons d decls ih => exact ih (h.addInstance rfl)

theorem WellNamed.addModule (h : job.WellNamed l) (module : ModulePath) :
    job.WellNamed (job.addModule module l) := by
  rw [LinkJob.addModule]
  split
  · exact h
  · have hadded : job.WellNamed { l with modules := l.modules ++ [module] } :=
      h.of_eq (fun _ ↦ rfl) rfl
    exact hadded.addAll _ module

/-! ### Modules -/

/-- Adding an instance adds no other. -/
theorem mem_keys_addInstance (h : key' ∈ (job.addInstance key l).2.instances.keys) :
    key' ∈ l.instances.keys ∨ key' = key := by
  cases hadd : job.addInstance key l with
  | mk name l' =>
    rw [hadd] at h
    rcases addInstance_cases hadd with ⟨-, rfl⟩ | ⟨hnew, -, rfl⟩
    · exact .inl h
    · rw [OrderedMap.keys_insert, if_neg hnew] at h
      simpa using h

/-- Adding instances changes nothing but instances and the names taken. -/
theorem exists_addInstance (key : InstanceKey) (l : Linkage) : ∃ instances taken,
    (job.addInstance key l).2 = { l with instances, taken } := by
  cases hadd : job.addInstance key l with
  | mk name l' =>
    rcases addInstance_cases hadd with ⟨-, rfl⟩ | ⟨-, -, rfl⟩
    · exact ⟨l'.instances, l'.taken, rfl⟩
    · exact ⟨_, _, rfl⟩

/-- Adding instances changes nothing but the instances and the names that are taken. -/
theorem exists_addAll (decls : List (Nat × Decl)) (module : ModulePath) (l : Linkage) :
    ∃ instances taken, decls.foldl (fun l d ↦ (job.addInstance ⟨.decl module d.1, []⟩ l).2) l =
      { l with instances, taken } := by
  induction decls generalizing l with
  | nil => exact ⟨l.instances, l.taken, rfl⟩
  | cons d decls ih =>
    obtain ⟨instances, taken, hfirst⟩ := job.exists_addInstance ⟨.decl module d.1, []⟩ l
    obtain ⟨instances', taken', hall⟩ := ih { l with instances, taken }
    exact ⟨instances', taken', by rw [List.foldl_cons, hfirst, hall]⟩

/-- Reaching an instance adds its module and no import maps. -/
theorem reach_notes (key : InstanceKey) (l : Linkage) :
    (job.reach key l).2.importMaps = l.importMaps ∧
      ∀ module ∈ (job.reach key l).2.modules, module ∈ l.modules ∨
        ∃ index, key.target = .decl module index := by
  obtain ⟨instances, taken, hadd⟩ := job.exists_addInstance key l
  rw [LinkJob.reach]
  dsimp only
  split
  · rename_i module index htarget
    rw [hadd, addModule]
    dsimp only
    split
    · exact ⟨rfl, fun _ ↦ .inl⟩
    · obtain ⟨instances', taken', hall⟩ := job.exists_addAll (if job.options.wholeFile then
        ((job.registry.module? module).map Module.decls).getD [] else []) module
        { l with instances, taken, modules := l.modules ++ [module] }
      rw [hall]
      refine ⟨rfl, fun module' hmem ↦ ?_⟩
      rcases List.mem_append.1 hmem with hmem | hmem
      · exact .inl hmem
      · exact .inr ⟨index, by rw [List.mem_singleton.1 hmem, htarget]⟩
  · rw [hadd]
    exact ⟨rfl, fun _ ↦ .inl⟩

/-- With a module only its declarations are added. -/
theorem mem_keys_addModule {module : ModulePath}
    (h : key ∈ (job.addModule module l).instances.keys) :
    key ∈ l.instances.keys ∨ ∃ index, key.target = .decl module index := by
  have hall (decls : List (Nat × Decl)) (l : Linkage) (h : key ∈ (decls.foldl
      (fun l d ↦ (job.addInstance ⟨.decl module d.1, []⟩ l).2) l).instances.keys) :
      key ∈ l.instances.keys ∨ ∃ index, key.target = .decl module index := by
    induction decls generalizing l with
    | nil => exact .inl h
    | cons d decls ih =>
      rcases ih _ h with h | h
      · exact (mem_keys_addInstance h).imp id fun heq ↦ ⟨d.1, by rw [heq]⟩
      · exact .inr h
  rw [addModule] at h
  split at h
  · exact .inl h
  · dsimp only at h
    exact hall _ { l with modules := l.modules ++ [module] } h

/-- Reaching an instance keeps all that holds of linkages. -/
theorem Valid.reach (h : job.Valid l) (hreach : job.reach key l = (name, l')) : job.Valid l' := by
  have hextends := (extends_reach hreach).1
  have hcached : job.Cached l' := by
    have hmaps : l'.importMaps = l.importMaps := by
      have hnotes := (job.reach_notes key l).1
      rwa [hreach] at hnotes
    rw [Cached, hmaps]
    exact h.cached
  rw [LinkJob.reach] at hreach
  cases hadd : job.addInstance key l with
  | mk name₁ l₁ =>
    have hnamed := h.wellNamed.addInstance hadd
    have hkeys {key' : InstanceKey} (hkey' : key' ∈ l₁.instances.keys) :
        key' ∈ l.instances.keys ∨ key' = key :=
      mem_keys_addInstance (by rwa [hadd])
    rw [hadd] at hreach
    cases htarget : key.target with
    | decl module index =>
      rw [htarget] at hreach
      obtain ⟨-, rfl⟩ := Prod.mk.inj hreach
      have hmem := (job.extends_addModule module l₁).2
      refine ⟨hnamed.addModule module, fun key' hkey' module' index' htarget' ↦ ?_, hcached⟩
      -- instances come from before, are the one reached, or are of the module that was added
      rcases mem_keys_addModule hkey' with hkey' | ⟨index₁, htarget₁⟩
      · rcases hkeys hkey' with hkey' | rfl
        · exact hextends.modules (h.covered key' hkey' module' index' htarget')
        · rw [htarget] at htarget'
          obtain ⟨rfl, -⟩ := Target.decl.inj htarget'
          exact hmem
      · rw [htarget₁] at htarget'
        obtain ⟨rfl, -⟩ := Target.decl.inj htarget'
        exact hmem
    | generator module name =>
      rw [htarget] at hreach
      obtain ⟨-, rfl⟩ := Prod.mk.inj hreach
      refine ⟨hnamed, fun key' hkey' module' index' htarget' ↦ ?_, hcached⟩
      rcases hkeys hkey' with hkey' | rfl
      · exact hextends.modules (h.covered key' hkey' module' index' htarget')
      · rw [htarget] at htarget'
        cases htarget'

/-! ### Import maps -/

/-- The import map of a module that is found can be kept. -/
theorem Cached.insert (h : job.Cached l) {m : Module} (hm : job.registry.module? m.path = some m)
    {imports : ImportMap} {warnings : List Warning}
    (hmap : m.importMap job.registry = .ok (imports, warnings)) (warnings' : List Warning) :
    job.Cached { l with
      importMaps := l.importMaps.insert m.path imports, warnings := warnings' } := by
  intro path found hfound
  rw [OrderedMap.get?_insert] at hfound
  split at hfound
  · rename_i hpath
    obtain rfl := Option.some.inj hfound
    exact ⟨m, warnings, hpath ▸ hm, hmap⟩
  · exact h path found hfound

/-! ### The start -/

/-- At the start, only declarations of the root have names, and they have their own. -/
theorem start_name?_mem (h : job.start.name? key = some name) :
    ∃ d ∈ job.root.decls, key = ⟨.decl job.root.path d.1, []⟩ ∧ name = d.2.name := by
  obtain ⟨i, hi, rfl⟩ := Option.map_eq_some_iff.1 h
  obtain ⟨d, hd, heq⟩ := List.mem_map.1 (OrderedMap.mem_of_get?_ofList hi)
  obtain ⟨rfl, rfl⟩ := Prod.mk.inj heq
  exact ⟨d, hd, rfl, rfl⟩

theorem start_name?_of_mem {index : Nat} {d : Decl} (h : (index, d) ∈ job.root.decls) :
    job.start.name? ⟨.decl job.root.path index, []⟩ = some d.name := by
  rw [Linkage.name?, start, OrderedMap.get?_ofList_of_unique (a := ⟨d.name, []⟩)]
  · rfl
  · exact List.mem_map.2 ⟨(index, d), h, rfl⟩
  · intro i hi
    obtain ⟨⟨index', d'⟩, hd', heq⟩ := List.mem_map.1 hi
    obtain ⟨hkey, rfl⟩ := Prod.mk.inj heq
    obtain ⟨-, rfl⟩ := Target.decl.inj (InstanceKey.mk.inj hkey).1
    rw [Module.mem_decls_iff] at h hd'
    rw [Option.some.inj (h.symm.trans hd')]

/-- The start is valid. -/
theorem valid_start (job : LinkJob) : job.Valid job.start where
  wellNamed := by
    refine ⟨fun _ _ h ↦ .inl h, fun key name h ↦ ?_, fun _ h ↦ .inl h,
      fun _ _ _ h h' ↦ .inr ⟨h, h'⟩, List.Subset.refl _⟩
    obtain ⟨d, hd, -, rfl⟩ := start_name?_mem h
    exact List.mem_append_left _ (List.mem_map_of_mem hd)
  covered := by
    intro key hkey module index htarget
    obtain ⟨name, hname⟩ := Linkage.mem_keys_iff_name?.1 hkey
    obtain ⟨d, -, rfl, -⟩ := start_name?_mem hname
    obtain ⟨rfl, -⟩ := Target.decl.inj htarget
    exact List.mem_singleton_self _
  cached := fun path imports h ↦ nomatch h

end LinkJob

end ShaderLink
