import ShaderLink.Proofs.Registry.Coherent

/-!
# Registries that can come about

A registry is **built** if it comes from the empty one by adding parsed modules, adding sources,
removing modules and registering generators, in any order. Every module found in a built registry
has been parsed, under whatever conditions, and has the path it was asked for by.
-/

namespace ShaderLink

/-- Parsing some text of a file under some options gives the module. -/
def Module.Parsed (m : Module) : Prop :=
  ∃ options file source, Module.parse options file source = .ok m

namespace Registry

/-- The registry has come about by the operations on registries. -/
inductive Built : Registry → Prop
  | empty (options : ParseOptions) : Built (.empty options)
  | insert {r : Registry} {m : Module} (h : Built r) (hm : m.Parsed) : Built (r.insert m).2
  | addSource {r : Registry} (h : Built r) (file : String) (source : Text) :
    Built (r.addSource file source).2
  | remove {r : Registry} (h : Built r) (path : ModulePath) : Built (r.remove path).2
  | register {r : Registry} (h : Built r) (g : Generator) : Built (r.register g)

/-- Something holds of every module in the arena. -/
def Holds (P : Module → Prop) (r : Registry) : Prop :=
  ∀ key m, r.arena.get? key = some m → P m

variable {r : Registry} {P : Module → Prop} {m : Module}

namespace Holds

/-- What holds of a module holds of all modules once it is put in. -/
theorem insert (h : r.Holds P) (hr : r.Coherent) (hm : P m) : (r.insert m).2.Holds P := by
  intro key m' hget
  have hget : (r.insert m).2.get? key = some m' := hget
  rw [get?_insert hr] at hget
  split at hget
  · rwa [← Option.some.inj hget]
  · split at hget
    · cases hget
    · exact h key m' hget

theorem remove (h : r.Holds P) (path : ModulePath) : (r.remove path).2.Holds P := by
  intro key m hget
  have hget : (r.remove path).2.get? key = some m := hget
  rw [get?_remove] at hget
  split at hget
  · cases hget
  · exact h key m hget

/-- What holds of all modules that can be read from a file goes on to hold when it is added. -/
theorem addSource (h : r.Holds P) (hr : r.Coherent) {file : String} {source : Text}
    (hparse : ∀ m, Module.parse r.options file source = .ok m → P m) :
    (r.addSource file source).2.Holds P := by
  cases hresult : Module.parse r.options file source with
  | ok m =>
    have hforgotten : ({ r with failures := r.failures.erase (.ofFile file.toList) } :
        Registry).Holds P := h
    rw [addSource_of_ok hresult]
    exact hforgotten.insert (hr.forget _) (hparse m hresult)
  | error e =>
    rw [addSource_of_error hresult]
    exact h.remove _

end Holds

/-! ### Registries that have come about -/

/-- Whatever has been done to a registry has left it coherent. -/
theorem Built.coherent (h : r.Built) : r.Coherent := by
  induction h with
  | empty options => exact .empty options
  | @insert _ m _ hm ih => exact ih.insert m
  | addSource _ file source ih => exact ih.addSource file source
  | remove _ path ih => exact ih.remove path
  | register _ g ih => exact ih.register g

/-- All its modules were read from some file. -/
theorem Built.holds_parsed (h : r.Built) : r.Holds Module.Parsed := by
  induction h with
  | empty options => exact fun _ _ h ↦ (nomatch h)
  | insert hr hm ih => exact ih.insert hr.coherent hm
  | addSource hr file source ih => exact ih.addSource hr.coherent fun m hm ↦ ⟨_, file, source, hm⟩
  | remove _ path ih => exact ih.remove path
  | register _ g ih => exact ih

theorem exists_key {path : ModulePath} {m : Module} (h : r.module? path = some m) :
    ∃ key, r.index.get? path = some key ∧ r.arena.get? key = some m :=
  Option.bind_eq_some_iff.1 h

/-- A module that is found has been parsed. -/
theorem Built.parsed (h : r.Built) {path : ModulePath} {m : Module}
    (hm : r.module? path = some m) : m.Parsed := by
  obtain ⟨key, -, hget⟩ := exists_key hm
  exact h.holds_parsed key m hget

/-- A module that is found has the path it was asked for by. -/
theorem Built.path_eq (h : r.Built) {path : ModulePath} {m : Module}
    (hm : r.module? path = some m) : m.path = path :=
  (h.coherent.module?_eq_some_iff.1 hm).1

/-- A module that is found is one of the modules. -/
theorem mem_modules {path : ModulePath} {m : Module} (hm : r.module? path = some m) :
    m ∈ r.modules := by
  obtain ⟨key, -, hget⟩ := exists_key hm
  exact OrderedMap.mem_values_of_get? hget

/-- Each module was parsed under the conditions given for its path. -/
def ParsedUnder (r : Registry) (conditions : ModulePath → String → Bool) : Prop :=
  ∀ path m, r.module? path = some m →
    ∃ steps file source, Module.parse ⟨conditions path, steps⟩ file source = .ok m

/-- Modules of a registry that has come about were parsed under some conditions. -/
theorem Built.exists_parsedUnder (h : r.Built) : ∃ conditions, r.ParsedUnder conditions := by
  have hall (path : ModulePath) : ∃ conditions : String → Bool, ∀ m, r.module? path = some m →
      ∃ steps file source, Module.parse ⟨conditions, steps⟩ file source = .ok m := by
    cases hm : r.module? path with
    | none => exact ⟨fun _ ↦ false, fun m hm ↦ nomatch hm⟩
    | some m =>
      obtain ⟨options, file, source, hparse⟩ := h.parsed hm
      refine ⟨options.conditions, fun m' hm' ↦ ?_⟩
      obtain rfl := Option.some.inj hm'
      exact ⟨options.maxSteps, file, source, hparse⟩
  choose conditions hconditions using hall
  exact ⟨conditions, hconditions⟩

/-! ### Registries of sources -/

/-- The options of a registry never change. -/
theorem options_addSource (r : Registry) (file : String) (source : Text) :
    (r.addSource file source).2.options = r.options := by
  cases hresult : Module.parse r.options file source with
  | ok m =>
    rw [addSource_of_ok hresult]
    rfl
  | error e =>
    rw [addSource_of_error hresult]
    exact (r.remove_rest _).2.2.2

/-- A generator is kept under the module and the name that it has. -/
theorem Built.eq_of_generator? (h : r.Built) {module : ModulePath} {name : String} {g : Generator}
    (hg : r.generator? module name = some g) : g.module = module ∧ g.name = name :=
  h.coherent.registered module name g hg

/-- Registering generators changes nothing else. -/
theorem foldl_register (generators : List Generator) (r : Registry) :
    generators.foldl register r = { r with
      generators :=
        generators.foldl (fun gs g ↦ gs.insert (g.module, g.name) g) r.generators } := by
  induction generators generalizing r with
  | nil => rfl
  | cons g generators ih => exact ih (r.register g)

theorem Built.foldl_register (h : r.Built) (generators : List Generator) :
    (generators.foldl Registry.register r).Built := by
  induction generators generalizing r with
  | nil => exact h
  | cons g generators ih => exact ih (h.register g)

/-- A registry of sources and generators has come about by adding them. Each module is one of the
sources, parsed under the options. -/
theorem built_ofSources (options : ParseOptions) (sources : List (String × Text))
    (generators : List Generator) : (ofSources options sources generators).Built ∧
      (ofSources options sources generators).Holds fun m ↦
        ∃ file source, Module.parse options file source = .ok m := by
  have hsources (r : Registry) (h : r.Built) (hoptions : r.options = options)
      (hholds : r.Holds fun m ↦ ∃ file source, Module.parse options file source = .ok m) :
      (sources.foldl (fun r s ↦ (r.addSource s.1 s.2).2) r).Built ∧
        (sources.foldl (fun r s ↦ (r.addSource s.1 s.2).2) r).Holds fun m ↦
          ∃ file source, Module.parse options file source = .ok m := by
    induction sources generalizing r with
    | nil => exact ⟨h, hholds⟩
    | cons s sources ih =>
      rw [List.foldl_cons]
      refine ih _ (h.addSource s.1 s.2) ((options_addSource r s.1 s.2).trans hoptions)
        (hholds.addSource h.coherent fun m hm ↦ ⟨s.1, s.2, ?_⟩)
      rwa [← hoptions]
  obtain ⟨hbuilt, hholds⟩ :=
    hsources (empty options) (.empty options) rfl fun _ _ h ↦ (nomatch h)
  refine ⟨hbuilt.foldl_register generators, fun key m hget ↦ hholds key m ?_⟩
  rw [ofSources, foldl_register] at hget
  exact hget

/-- Its modules are read under the conditions of its options. -/
theorem parsedUnder_ofSources (options : ParseOptions) (sources : List (String × Text))
    (generators : List Generator) :
    (ofSources options sources generators).ParsedUnder fun _ ↦ options.conditions := by
  intro path m hm
  obtain ⟨key, -, hget⟩ := exists_key hm
  obtain ⟨file, source, hparse⟩ := (built_ofSources options sources generators).2 key m hget
  exact ⟨options.maxSteps, file, source, hparse⟩

end Registry

end ShaderLink
