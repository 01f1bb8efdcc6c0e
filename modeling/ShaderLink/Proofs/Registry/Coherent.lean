import ShaderLink.Proofs.OrderedMap
import ShaderLink.Registry.Basic

/-!
# Coherent registries

A registry keeps its modules by key and finds the keys by path. It is **coherent** if the two agree:
each path that has a key leads to a module of this path, and each module is found by its own path.
Moreover no path has both a module and a failure, no key in use will be given again, and generators
are kept under their own modules and names.

All of this holds of the empty registry, and every change of a registry keeps it. A change is put
together from few updates: a module is added or taken out, a failure is added or forgotten, a
generator is registered. So the lemmas are about these.
-/

namespace ShaderLink

namespace Registry

/-- The index and the arena agree, and nothing is recorded twice or in the wrong place. -/
structure Coherent (r : Registry) : Prop where
  live : ∀ path key, r.key? path = some key → ∃ m, r.get? key = some m ∧ m.path = path
  indexed : ∀ key m, r.get? key = some m → r.key? m.path = some key
  unfailed : ∀ path, (r.failure? path).isSome → r.key? path = none
  given : ∀ key m, r.get? key = some m → key.number < r.nextKey.number
  registered : ∀ module name g, r.generator? module name = some g →
    g.module = module ∧ g.name = name

variable {r : Registry} {m : Module} {path : ModulePath} {key : ModuleKey}

/-! ### What changes do -/

/-- After a module is added, there are this module and those of other paths. -/
theorem get?_insert (h : r.Coherent) (m : Module) (key : ModuleKey) :
    (r.insert m).2.get? key = if key = r.nextKey then some m
      else if r.key? m.path = some key then none else r.get? key := by
  have hnext : ∀ old, r.key? m.path = some old → old ≠ r.nextKey := by
    intro old hold heq
    obtain ⟨m', hget, -⟩ := h.live m.path old hold
    exact Nat.lt_irrefl _ (heq ▸ h.given old m' hget)
  simp only [Registry.insert, get?]
  split
  · rename_i old hold
    rw [OrderedMap.get?_erase, OrderedMap.get?_insert]
    by_cases hkey : key = r.nextKey
    · have hne : key ≠ old := fun heq ↦ hnext old hold (heq.symm.trans hkey)
      rw [if_neg hne, if_pos hkey, if_pos hkey]
    · by_cases heq : key = old
      · rw [if_pos heq, if_neg hkey, if_pos (heq ▸ hold)]
      · have hne : r.key? m.path ≠ some key := fun h ↦ heq (Option.some.inj (h.symm.trans hold))
        rw [if_neg heq, if_neg hkey, if_neg hkey, if_neg hne]
  · rename_i hnone
    rw [OrderedMap.get?_insert, hnone, if_neg (Option.some_ne_none key).symm]

theorem key?_insert (r : Registry) (m : Module) (path : ModulePath) :
    (r.insert m).2.key? path = if path = m.path then some r.nextKey else r.key? path :=
  OrderedMap.get?_insert _ _ _ _

theorem failure?_insert (r : Registry) (m : Module) (path : ModulePath) :
    (r.insert m).2.failure? path = if path = m.path then none else r.failure? path :=
  OrderedMap.get?_erase _ _ _

/-- Taking the module of a path out leaves the others. -/
theorem get?_remove (r : Registry) (path : ModulePath) (key : ModuleKey) :
    (r.remove path).2.get? key = if r.key? path = some key then none else r.get? key := by
  rw [Registry.remove]
  split
  · rename_i old hold
    simp only [get?, hold, OrderedMap.get?_erase, Option.some.injEq, eq_comm]
  · rename_i hnone
    rw [hnone, if_neg (Option.some_ne_none key).symm]

theorem key?_remove (r : Registry) (path path' : ModulePath) :
    (r.remove path).2.key? path' = if path' = path then none else r.key? path' := by
  rw [Registry.remove]
  split
  · exact OrderedMap.get?_erase _ _ _
  · rename_i hnone
    split
    · rename_i heq
      rw [heq, hnone]
    · rfl

/-- Taking a module out changes nothing else. -/
theorem remove_rest (r : Registry) (path : ModulePath) :
    (r.remove path).2.failures = r.failures ∧ (r.remove path).2.generators = r.generators ∧
      (r.remove path).2.nextKey = r.nextKey ∧ (r.remove path).2.options = r.options := by
  rw [Registry.remove]
  split <;> exact ⟨rfl, rfl, rfl, rfl⟩

/-- A source that can be parsed is added as a module. -/
theorem addSource_of_ok {file : String} {source : Text}
    (h : Module.parse r.options file source = .ok m) : r.addSource file source =
      (.ok r.nextKey,
        (({ r with failures := r.failures.erase (.ofFile file.toList) } :
          Registry).insert m).2) := by
  delta Registry.addSource
  rw [h]
  rfl

/-- The path under which a source that cannot be parsed is recorded. -/
def failurePath (file : String) (source : Text) : ModulePath :=
  (ModulePath.declaredIn? source).getD (.ofFile file.toList)

/-- A source that cannot be parsed takes the module of its path out. -/
theorem addSource_of_error {file : String} {source : Text} {e : ParseError}
    (h : Module.parse r.options file source = .error e) : r.addSource file source =
      (.error e, { (r.remove (failurePath file source)).2 with
        failures := r.failures.insert (failurePath file source) e }) := by
  rw [← (r.remove_rest (failurePath file source)).1]
  delta Registry.addSource
  rw [h]
  rfl

/-! ### Coherence is kept -/

namespace Coherent

theorem empty (options : ParseOptions) : (Registry.empty options).Coherent :=
  ⟨fun _ _ h ↦ (nomatch h), fun _ _ h ↦ (nomatch h), fun _ h ↦ (nomatch h), fun _ _ h ↦ (nomatch h),
    fun _ _ _ h ↦ (nomatch h)⟩

/-- Which modules there are decides whether the rest is coherent. -/
theorem of_failures (h : r.Coherent) {failures : OrderedMap ModulePath ParseError}
    (hfailures : ∀ path, (failures.get? path).isSome → r.key? path = none) :
    ({ r with failures } : Registry).Coherent :=
  ⟨h.live, h.indexed, hfailures, h.given, h.registered⟩

theorem forget (h : r.Coherent) (path : ModulePath) :
    ({ r with failures := r.failures.erase path } : Registry).Coherent := by
  refine h.of_failures fun path' hfailed ↦ h.unfailed path' ?_
  rw [OrderedMap.get?_erase] at hfailed
  split at hfailed
  · cases hfailed
  · exact hfailed

theorem insert (h : r.Coherent) (m : Module) : (r.insert m).2.Coherent := by
  have hget := get?_insert h m
  have hkey := r.key?_insert m
  refine ⟨fun path key hpath ↦ ?_, fun key m' hm' ↦ ?_, fun path hfailed ↦ ?_,
    fun key m' hm' ↦ ?_, h.registered⟩
  · rw [hkey] at hpath
    split at hpath
    · rename_i heq
      obtain rfl := Option.some.inj hpath
      exact ⟨m, by rw [hget, if_pos rfl], heq.symm⟩
    · -- a key of another path is that of a module that was there before
      rename_i hne
      obtain ⟨m', hm', hm'path⟩ := h.live path key hpath
      refine ⟨m', ?_, hm'path⟩
      have hlt := h.given key m' hm'
      rw [hget, if_neg fun heq ↦ by simp [heq] at hlt, if_neg fun hold ↦ hne ?_]
      · exact hm'
      · obtain ⟨m'', hm'', hpath''⟩ := h.live m.path key hold
        rw [← hm'path, ← hpath'', Option.some.inj (hm'.symm.trans hm'')]
  · rw [hget] at hm'
    split at hm'
    · rename_i heq
      rw [← Option.some.inj hm', hkey, if_pos rfl, heq]
    · split at hm'
      · cases hm'
      · rename_i hold
        have hindexed := h.indexed key m' hm'
        have hne : m'.path ≠ m.path := fun heq ↦ hold (heq ▸ hindexed)
        rw [hkey, if_neg hne, hindexed]
  · rw [failure?_insert] at hfailed
    split at hfailed
    · cases hfailed
    · rename_i hne
      rw [hkey, if_neg hne, h.unfailed path hfailed]
  · rw [hget] at hm'
    split at hm'
    · rename_i heq
      rw [heq]
      exact Nat.lt_succ_self _
    · split at hm'
      · cases hm'
      · exact Nat.lt_succ_of_lt (h.given key m' hm')

theorem remove (h : r.Coherent) (path : ModulePath) : (r.remove path).2.Coherent := by
  have hget := r.get?_remove path
  have hkey := r.key?_remove path
  obtain ⟨hfailures, hgenerators, hnext, -⟩ := r.remove_rest path
  refine ⟨fun path' key hpath' ↦ ?_, fun key m hm ↦ ?_, fun path' hfailed ↦ ?_,
    fun key m hm ↦ ?_, fun module name g hg ↦ h.registered module name g ?_⟩
  · rw [hkey] at hpath'
    split at hpath'
    · cases hpath'
    · rename_i hne
      obtain ⟨m, hm, rfl⟩ := h.live path' key hpath'
      refine ⟨m, ?_, rfl⟩
      rw [hget, if_neg fun hold ↦ hne ?_, hm]
      obtain ⟨m', hm', rfl⟩ := h.live path key hold
      rw [Option.some.inj (hm.symm.trans hm')]
  · rw [hget] at hm
    split at hm
    · cases hm
    · rename_i hold
      have hindexed := h.indexed key m hm
      have hne : m.path ≠ path := fun heq ↦ hold (heq ▸ hindexed)
      rw [hkey, if_neg hne, hindexed]
  · rw [failure?, hfailures] at hfailed
    rw [hkey]
    split
    · rfl
    · exact h.unfailed path' hfailed
  · rw [hget] at hm
    split at hm
    · cases hm
    · rw [hnext]
      exact h.given key m hm
  · rwa [generator?, hgenerators] at hg

theorem register (h : r.Coherent) (g : Generator) : (r.register g).Coherent := by
  refine ⟨h.live, h.indexed, h.unfailed, h.given, fun module name g' hg' ↦ ?_⟩
  rw [generator?, Registry.register, OrderedMap.get?_insert] at hg'
  split at hg'
  · rename_i heq
    obtain rfl := Option.some.inj hg'
    obtain ⟨rfl, rfl⟩ := Prod.mk.inj heq
    exact ⟨rfl, rfl⟩
  · exact h.registered module name g' hg'

theorem addSource (h : r.Coherent) (file : String) (source : Text) :
    (r.addSource file source).2.Coherent := by
  cases hresult : Module.parse r.options file source with
  | ok m =>
    rw [addSource_of_ok hresult]
    exact (h.forget _).insert m
  | error e =>
    rw [addSource_of_error hresult]
    refine (h.remove _).of_failures fun path hfailed ↦ ?_
    rw [key?_remove]
    split
    · rfl
    · rename_i hne
      rw [OrderedMap.get?_insert, if_neg hne] at hfailed
      exact h.unfailed path hfailed

/-! ### Modules of a coherent registry -/

/-- The module of a path is the one that is kept under the key of the path. -/
theorem module?_eq_some_iff (h : r.Coherent) :
    r.module? path = some m ↔ m.path = path ∧ m ∈ r.modules := by
  rw [module?, Option.bind_eq_some_iff]
  constructor
  · rintro ⟨key, hkey, hm⟩
    obtain ⟨m', hm', hpath⟩ := h.live path key hkey
    obtain rfl := Option.some.inj (hm.symm.trans hm')
    exact ⟨hpath, OrderedMap.mem_values_of_get? hm⟩
  · rintro ⟨rfl, hmem⟩
    obtain ⟨⟨key, m'⟩, hentry, rfl⟩ := List.mem_map.1 hmem
    have hm' : r.get? key = some m' := OrderedMap.get?_eq_some_iff.2 hentry
    exact ⟨key, h.indexed key m' hm', hm'⟩

/-- A path with a key has a module. -/
theorem module?_eq_none_iff (h : r.Coherent) : r.module? path = none ↔ r.key? path = none := by
  rw [module?, Option.bind_eq_none_iff]
  constructor
  · intro hnone
    by_contra hkey
    obtain ⟨key, hkey⟩ := Option.ne_none_iff_exists'.1 hkey
    obtain ⟨m, hm, -⟩ := h.live path key hkey
    rw [hnone key hkey] at hm
    cases hm
  · intro hkey key heq
    rw [hkey] at heq
    cases heq

/-- Adding a module sets the module of its path. -/
theorem module?_insert (h : r.Coherent) (m : Module) (path : ModulePath) :
    (r.insert m).2.module? path = if path = m.path then some m else r.module? path := by
  rw [module?, key?_insert]
  split
  · rw [Option.bind_some, get?_insert h, if_pos rfl]
  · rename_i hne
    rw [module?]
    cases hkey : r.key? path with
    | none => rfl
    | some key =>
      obtain ⟨m', hm', rfl⟩ := h.live path key hkey
      have hlt := h.given key m' hm'
      rw [Option.bind_some, Option.bind_some, get?_insert h,
        if_neg fun heq ↦ Nat.lt_irrefl _ (heq ▸ hlt), if_neg fun hold ↦ hne ?_]
      obtain ⟨m'', hm'', hpath⟩ := h.live m.path key hold
      rw [← hpath, Option.some.inj (hm'.symm.trans hm'')]

/-- A source that can be parsed sets the module of the path that it has. -/
theorem module?_addSource (h : r.Coherent) {file : String} {source : Text}
    (hparse : Module.parse r.options file source = .ok m) :
    (r.addSource file source).2.module? m.path = some m := by
  rw [addSource_of_ok hparse, (h.forget _).module?_insert m m.path, if_pos rfl]

/-- Taking the module of a path out leaves those of other paths. -/
theorem module?_remove (h : r.Coherent) (path path' : ModulePath) :
    (r.remove path).2.module? path' = if path' = path then none else r.module? path' := by
  rw [module?, key?_remove]
  split
  · rfl
  · rename_i hne
    rw [module?]
    cases hkey : r.key? path' with
    | none => rfl
    | some key =>
      obtain ⟨m, hm, rfl⟩ := h.live path' key hkey
      rw [Option.bind_some, Option.bind_some, get?_remove, if_neg fun hold ↦ hne ?_]
      obtain ⟨m', hm', hpath⟩ := h.live path key hold
      rw [← hpath, Option.some.inj (hm.symm.trans hm')]

end Coherent

end Registry

end ShaderLink
