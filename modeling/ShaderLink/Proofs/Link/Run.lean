import ShaderLink.Link.Closure
import ShaderLink.Proofs.OrderedMap

/-!
# Runs of the linker

`x.Runs l a l'` says that the computation goes from the linkage `l` to `l'` with the answer `a`.
There is one inversion lemma for each way of putting computations together, so that a run is opened
along the definition of what ran.

What every run has in common is that a linkage only **grows**: instances keep their places and their
names, and modules that contribute stay. So what has been found out about an instance stays true,
and the names that a visit saw are those of the closed linkage. Reaching instances does not even
touch those that there are, it **extends** the linkage at the end.
-/

namespace ShaderLink

namespace Linking

variable {α β : Type} {l l' : Linkage}

/-- The computation goes from `l` to `l'` with the answer `a`. -/
def Runs (x : Linking α) (l : Linkage) (a : α) (l' : Linkage) : Prop :=
  x.run l = .ok (a, l')

namespace Runs

variable {x : Linking α} {a : α} {b : β}

/-- A run of two computations in turn is made of a run of each. -/
theorem bind {f : α → Linking β} (h : Runs (x >>= f) l b l') :
    ∃ a l₁, Runs x l a l₁ ∧ Runs (f a) l₁ b l' := by
  rw [Runs, StateT.run_bind] at h
  cases hx : x.run l with
  | error e =>
    rw [hx] at h
    cases h
  | ok r =>
    rw [hx] at h
    exact ⟨r.1, r.2, hx, h⟩

/-- An answer that is there leaves the linkage alone. -/
theorem pure {a' : α} (h : Runs (Pure.pure a') l a l') : a' = a ∧ l = l' :=
  Prod.mk.inj (Except.ok.inj h)

theorem get {l₁ : Linkage} (h : Runs MonadState.get l l₁ l') : l = l₁ ∧ l = l' :=
  Prod.mk.inj (Except.ok.inj h)

/-- A change leads to the changed linkage. -/
theorem modified {f : Linkage → Linkage} {u : PUnit} (h : Runs (modify f) l u l') :
    f l = l' :=
  (Prod.mk.inj (Except.ok.inj h)).2

theorem modifyGet {f : Linkage → α × Linkage} (h : Runs (MonadState.modifyGet f) l a l') :
    f l = (a, l') := by
  have hrun : (f l).1 = a ∧ (f l).2 = l' := Prod.mk.inj (Except.ok.inj h)
  rw [← hrun.1, ← hrun.2]

/-- A failure leads nowhere. -/
theorem not_throw {e : LinkError} (h : Runs (throw e : Linking α) l a l') : False := by
  cases h

end Runs

end Linking

/-! ### Growth -/

namespace Linkage

/-- The name of an instance, if there is one of the key. -/
def name? (l : Linkage) (key : InstanceKey) : Option String :=
  (l.instances.get? key).map Instance.name

/-- What there is stays: instances with their places and names, and modules. -/
structure Grows (l l' : Linkage) : Prop where
  keys : l.instances.keys <+: l'.instances.keys
  names : ∀ key name, l.name? key = some name → l'.name? key = some name
  modules : l.modules ⊆ l'.modules

/-- Instances that have not been visited are added at the end, and modules are added. -/
structure Extends (l l' : Linkage) : Prop where
  instances : ∃ added, l'.instances.toList = l.instances.toList ++ added ∧
    ∀ e ∈ added, e.2.renames = []
  modules : l.modules ⊆ l'.modules

variable {l l' l'' : Linkage} {key : InstanceKey} {name : String}

/-- The instances of a linkage are those that have a name in it. -/
theorem mem_keys_iff_name? : key ∈ l.instances.keys ↔ ∃ name, l.name? key = some name := by
  rw [OrderedMap.mem_keys_iff, Option.isSome_iff_exists]
  constructor
  · rintro ⟨i, hi⟩
    exact ⟨i.name, by rw [name?, hi]; rfl⟩
  · rintro ⟨name, hname⟩
    obtain ⟨i, hi, -⟩ := Option.map_eq_some_iff.1 hname
    exact ⟨i, hi⟩

theorem name?_of_mem {i : Instance} (h : (key, i) ∈ l.instances.toList) :
    l.name? key = some i.name := by
  rw [name?, OrderedMap.get?_eq_some_iff.2 h]
  rfl

theorem Grows.refl (l : Linkage) : l.Grows l :=
  ⟨List.prefix_refl _, fun _ _ h ↦ h, List.Subset.refl _⟩

theorem Grows.trans (h : l.Grows l') (h' : l'.Grows l'') : l.Grows l'' :=
  ⟨h.keys.trans h'.keys, fun key name hname ↦ h'.names key name (h.names key name hname),
    List.Subset.trans h.modules h'.modules⟩

/-- A linkage with the same instances and modules extends by nothing. -/
theorem Extends.of_eq (hinstances : l'.instances = l.instances)
    (hmodules : l'.modules = l.modules) : l.Extends l' := by
  refine ⟨⟨[], ?_, by simp⟩, ?_⟩
  · rw [hinstances, List.append_nil]
  · rw [hmodules]
    exact List.Subset.refl _

theorem Extends.refl (l : Linkage) : l.Extends l :=
  .of_eq rfl rfl

theorem Extends.trans (h : l.Extends l') (h' : l'.Extends l'') : l.Extends l'' := by
  obtain ⟨first, hfirst, hunvisited⟩ := h.instances
  obtain ⟨rest, hrest, hunvisited'⟩ := h'.instances
  refine ⟨⟨first ++ rest, ?_, fun e he ↦ ?_⟩, List.Subset.trans h.modules h'.modules⟩
  · rw [hrest, hfirst, List.append_assoc]
  · exact (List.mem_append.1 he).elim (hunvisited e) (hunvisited' e)

/-- A linkage that is extended keeps its names, so it grows. -/
theorem Extends.grows (h : l.Extends l') : l.Grows l' := by
  obtain ⟨added, hadded, -⟩ := h.instances
  refine ⟨?_, fun key name hname ↦ ?_, h.modules⟩
  · rw [OrderedMap.keys, OrderedMap.keys, hadded, List.map_append]
    exact List.prefix_append _ _
  · obtain ⟨i, hi, rfl⟩ := Option.map_eq_some_iff.1 hname
    refine name?_of_mem ?_
    rw [hadded]
    exact List.mem_append_left _ (OrderedMap.get?_eq_some_iff.1 hi)

end Linkage

namespace LinkJob

variable {job : LinkJob} {l l' : Linkage} {key key' : InstanceKey} {name : String}

/-- Adding an instance gives it the name of the one there is, or a fresh one at the end. -/
theorem addInstance_cases (h : job.addInstance key l = (name, l')) :
    (l.name? key = some name ∧ l' = l) ∨
      (key ∉ l.instances.keys ∧ name = freshName (job.nameOf key.target) l.taken ∧
        l' = { l with
          instances := l.instances.insert key ⟨name, []⟩
          taken := name :: l.taken }) := by
  rw [addInstance] at h
  split at h
  · rename_i i hi
    obtain ⟨rfl, rfl⟩ := Prod.mk.inj h
    exact .inl ⟨by rw [Linkage.name?, hi]; rfl, rfl⟩
  · rename_i hnone
    obtain ⟨rfl, rfl⟩ := Prod.mk.inj h
    exact .inr ⟨OrderedMap.get?_eq_none_iff.1 hnone, rfl, rfl⟩

/-- The names after an instance was added. -/
theorem name?_insert (l : Linkage) (key key' : InstanceKey) (i : Instance) (taken : List String) :
    ({ l with instances := l.instances.insert key i, taken } : Linkage).name? key' =
      if key' = key then some i.name else l.name? key' := by
  rw [Linkage.name?, OrderedMap.get?_insert]
  split <;> rfl

/-- Giving an instance its splices changes no name. -/
theorem name?_modify (l : Linkage) (key key' : InstanceKey) (renames : List Splice) :
    ({ l with instances := l.instances.modify key fun i ↦ { i with renames } } : Linkage).name?
      key' = l.name? key' := by
  simp only [Linkage.name?, OrderedMap.get?_modify]
  split
  · rw [Option.map_map]
    rfl
  · rfl

/-- An instance that is added has its name from then on. -/
theorem extends_addInstance (h : job.addInstance key l = (name, l')) :
    l.Extends l' ∧ l'.name? key = some name := by
  rcases addInstance_cases h with ⟨hname, rfl⟩ | ⟨hnew, -, rfl⟩
  · exact ⟨.refl l', hname⟩
  · refine ⟨⟨⟨_, OrderedMap.toList_insert_of_not_mem hnew _, by simp⟩, List.Subset.refl _⟩, ?_⟩
    rw [name?_insert, if_pos rfl]

/-- The instances of all declarations of a module, one after another. -/
theorem extends_addAll (job : LinkJob) (decls : List (Nat × Decl)) (module : ModulePath)
    (l : Linkage) :
    l.Extends (decls.foldl (fun l d ↦ (job.addInstance ⟨.decl module d.1, []⟩ l).2) l) := by
  induction decls generalizing l with
  | nil => exact .refl l
  | cons d decls ih =>
    have hfirst : l.Extends (job.addInstance ⟨.decl module d.1, []⟩ l).2 :=
      (extends_addInstance rfl).1
    exact hfirst.trans (ih _)

/-- A module that is added is there from then on. -/
theorem extends_addModule (job : LinkJob) (module : ModulePath) (l : Linkage) :
    l.Extends (job.addModule module l) ∧ module ∈ (job.addModule module l).modules := by
  rw [addModule]
  split
  · rename_i hmem
    exact ⟨.refl l, hmem⟩
  · have hadded : l.Extends { l with modules := l.modules ++ [module] } :=
      ⟨⟨[], (List.append_nil _).symm, by simp⟩, List.subset_append_left _ _⟩
    have hall := extends_addAll job (if job.options.wholeFile then
      ((job.registry.module? module).map Module.decls).getD [] else []) module
      { l with modules := l.modules ++ [module] }
    exact ⟨hadded.trans hall, hall.modules (by simp)⟩

/-- However an instance is reached, it has its name then, and no name is lost. -/
theorem extends_reach (h : job.reach key l = (name, l')) :
    l.Extends l' ∧ l'.name? key = some name := by
  rw [reach] at h
  cases hadd : job.addInstance key l with
  | mk name₁ l₁ =>
    obtain ⟨hextends, hname⟩ := extends_addInstance hadd
    rw [hadd] at h
    dsimp only at h
    split at h
    · rename_i module index htarget
      obtain ⟨rfl, rfl⟩ := Prod.mk.inj h
      have hmodule := (job.extends_addModule module l₁).1
      exact ⟨hextends.trans hmodule, hmodule.grows.names _ _ hname⟩
    · obtain ⟨rfl, rfl⟩ := Prod.mk.inj h
      exact ⟨hextends, hname⟩

end LinkJob

end ShaderLink
