import ShaderLink.Proofs.Link.Lockstep
import ShaderLink.Proofs.Registry.Files

/-!
# The order of sources

If all sources can be parsed and their modules have different paths, each of them stays recorded,
and if no two generators have the same module and name, each of these stays registered. So the
registry has the same at every path in whatever order sources and generators come. Only its keys
differ, and the order in which it lists modules and generators.

Linking does not see this order. Where it looks at all modules, for the names to avoid and for those
that export a word, it takes them as a set or sorts them. So linking any root gives the same result,
which may also be an error or that visits run out.
-/

namespace ShaderLink

namespace Registry

variable {r r' : Registry} {options : ParseOptions} {versions versions' : List Version}
  {generators generators' : List Generator} {path : ModulePath}
  {outcome : Except ParseError Module}

/-! ### What is recorded -/

/-- If all versions can be parsed and are recorded under different paths, all stay recorded. -/
theorem record?_ofSources_of_nodup
    (hparsed : ∀ s ∈ versions, ∃ m, Module.parse options s.1 s.2 = .ok m)
    (hpaths : (versions.map (recordPath options)).Nodup) :
    (ofSources options versions []).record? path = some outcome ↔
      ∃ s ∈ versions, recordPath options s = path ∧ Module.parse options s.1 s.2 = outcome := by
  rw [record?_ofSources]
  refine exists_congr fun s ↦ and_congr_left fun _ ↦ ⟨?_, fun hs ↦ ?_⟩
  · rintro ⟨front, behind, rfl, -⟩
    exact List.mem_append_right _ List.mem_cons_self
  · obtain ⟨front, behind, rfl⟩ := List.append_of_mem hs
    refine ⟨front, behind, rfl, fun s' hs' ↦ not_or.2 ⟨fun heq ↦ ?_, fun hforgets ↦ ?_⟩⟩
    · rw [List.map_append, List.map_cons] at hpaths
      have hnot := (List.nodup_cons.1 (List.nodup_append.1 hpaths).2.1).1
      exact hnot (heq ▸ List.mem_map_of_mem hs')
    · obtain ⟨m, hm⟩ := hparsed s hs
      obtain ⟨e, he⟩ := hforgets.1
      rw [hm] at he
      cases he

theorem generators_addSource (r : Registry) (file : String) (source : Text) :
    (r.addSource file source).2.generators = r.generators := by
  cases hresult : Module.parse r.options file source with
  | ok m =>
    rw [addSource_of_ok hresult]
    rfl
  | error e =>
    rw [addSource_of_error hresult]
    exact (r.remove_rest _).2.1

/-- The generators of a registry are those that were given. -/
theorem ofSources_eq (options : ParseOptions) (versions : List Version)
    (generators : List Generator) : ofSources options versions generators =
      { ofSources options versions [] with
        generators := .ofList (generators.map fun g ↦ ((g.module, g.name), g)) } := by
  have hempty : (ofSources options versions []).generators = .empty := by
    induction versions using List.reverseRecOn with
    | nil => rfl
    | append_singleton versions s ih =>
      rw [ofSources_append_singleton, generators_addSource, ih]
  have hrest : ofSources options versions generators =
      generators.foldl register (ofSources options versions []) := rfl
  rw [hrest, foldl_register, hempty, OrderedMap.ofList, List.foldl_map]

theorem sameAt_of_record? (hr : r.Coherent) (hr' : r'.Coherent)
    (hrecord : r'.record? path = r.record? path)
    (hgenerator : ∀ name, r'.generator? path name = r.generator? path name) :
    r.SameAt r' path where
  module? := Option.ext fun m ↦ by
    rw [← record?_eq_ok_iff, ← record?_eq_ok_iff, hrecord]
  failure? := Option.ext fun e ↦ by
    rw [← record?_eq_error_iff hr', ← record?_eq_error_iff hr, hrecord]
  generator? := hgenerator

/-- In whatever order sources and generators come, the registry has the same at every path. -/
theorem sameAt_ofSources_perm
    (hparsed : ∀ s ∈ versions, ∃ m, Module.parse options s.1 s.2 = .ok m)
    (hpaths : (versions.map (recordPath options)).Nodup)
    (hnames : (generators.map fun g ↦ (g.module, g.name)).Nodup)
    (hversions : versions.Perm versions') (hgenerators : generators.Perm generators')
    (path : ModulePath) :
    (ofSources options versions generators).SameAt (ofSources options versions' generators')
      path := by
  have hcoherent := (built_ofSources options versions generators).1.coherent
  have hcoherent' := (built_ofSources options versions' generators').1.coherent
  refine sameAt_of_record? hcoherent hcoherent' ?_ fun name ↦ ?_
  · have hrecord : (ofSources options versions' []).record? path =
        (ofSources options versions []).record? path := by
      refine Option.ext fun outcome ↦ ?_
      rw [record?_ofSources_of_nodup hparsed hpaths, record?_ofSources_of_nodup
        (fun s hs ↦ hparsed s (hversions.mem_iff.2 hs)) ((hversions.map _).nodup_iff.1 hpaths)]
      exact exists_congr fun s ↦ and_congr_left fun _ ↦ hversions.mem_iff.symm
    rw [ofSources_eq options versions generators, ofSources_eq options versions' generators']
    exact hrecord
  · -- no module and name are given to two generators
    have hunique (generators : List Generator)
        (hnames : (generators.map fun g ↦ (g.module, g.name)).Nodup)
        (key : ModulePath × String) (g g' : Generator)
        (hg : (key, g) ∈ generators.map fun g ↦ ((g.module, g.name), g))
        (hg' : (key, g') ∈ generators.map fun g ↦ ((g.module, g.name), g)) : g = g' := by
      obtain ⟨g, hmem, heq⟩ := List.mem_map.1 hg
      obtain ⟨rfl, rfl⟩ := Prod.mk.inj heq
      obtain ⟨g', hmem', heq'⟩ := List.mem_map.1 hg'
      obtain ⟨hkey, rfl⟩ := Prod.mk.inj heq'
      exact (List.inj_on_of_nodup_map hnames hmem' hmem hkey).symm
    have hnames' := (hgenerators.map _).nodup_iff.1 hnames
    rw [ofSources_eq options versions generators, ofSources_eq options versions' generators']
    refine Option.ext fun g ↦ ?_
    change OrderedMap.lookup _ (path, name) = some g ↔ OrderedMap.lookup _ (path, name) = some g
    rw [OrderedMap.lookup_eq_some_iff (hunique generators' hnames'),
      OrderedMap.lookup_eq_some_iff (hunique generators hnames)]
    exact (hgenerators.map _).mem_iff.symm

/-! ### Linking -/

/-- The modules of registries that have the same at every path are the same. -/
theorem mem_modules_of_sameAt (h : ∀ path, r.SameAt r' path) (hr : r.Coherent)
    (hr' : r'.Coherent) {m : Module} : m ∈ r'.modules ↔ m ∈ r.modules := by
  have hfound := congrArg (· = some m) (h m.path).module?
  simpa [hr.module?_eq_some_iff, hr'.module?_eq_some_iff] using hfound

/-- Registries that have the same at every path link alike. -/
theorem link_of_sameAt (h : ∀ path, r.SameAt r' path) (hr : r.Built) (hr' : r'.Built)
    (options : LinkOptions) (path : ModulePath) (bound : Nat) :
    r'.link options path bound = r.link options path bound := by
  have hsame := root_of_sameAt (h path)
  cases hroot : r.root path with
  | error e =>
    rw [Registry.link, Registry.link, hsame, hroot]
    rfl
  | ok root =>
    have hserves : LinkJob.Serves ⟨r, options, root⟩ ⟨r', options, root⟩ [] := by
      refine ⟨rfl, rfl, fun path m hm ↦ ?_, fun module name g hg ↦ ?_, fun path m _ ↦ ?_,
        fun name ↦ ?_⟩
      · exact (h path).module?.trans hm
      · exact ((h module).generator? name).trans hg
      · exact Module.view_importMap (fun _ _ path _ ↦ ⟨h path, h path.dropLast⟩) (fun _ _ _ ↦ h)
          hr.coherent hr'.coherent
      · simp only [LinkJob.start, List.mem_append, List.mem_flatMap,
          mem_modules_of_sameAt h hr.coherent hr'.coherent, List.not_mem_nil, or_false]
    exact LinkJob.link_lockstep hserves hr hr' hroot (hsame.trans hroot)
      (fun _ _ _ _ _ _ hextra ↦ absurd hextra List.not_mem_nil) bound

/-- Linking does not depend on the order of sources and generators, if all sources can be parsed,
the paths of their modules are different, and no two generators have the same module and name. -/
theorem link_ofSources_perm {modules : List Module}
    (hparse : versions.mapM (fun s ↦ Module.parse options s.1 s.2) = .ok modules)
    (hpaths : (modules.map Module.path).Nodup)
    (hnames : (generators.map fun g ↦ (g.module, g.name)).Nodup)
    (hversions : versions.Perm versions') (hgenerators : generators.Perm generators')
    (linkOptions : LinkOptions) (path : ModulePath) (bound : Nat) :
    (ofSources options versions' generators').link linkOptions path bound =
      (ofSources options versions generators).link linkOptions path bound := by
  have hall := Except.forall₂_of_mapM hparse
  have hrecorded : versions.map (recordPath options) = modules.map Module.path := by
    clear hparse hpaths hversions
    induction hall with
    | nil => rfl
    | cons hfirst _ ih => rw [List.map_cons, List.map_cons, recordPath_of_ok hfirst, ih]
  have hparsed : ∀ s ∈ versions, ∃ m, Module.parse options s.1 s.2 = .ok m := by
    intro s hs
    obtain ⟨m, -, hm⟩ := exists_of_mem_forall₂ hall.flip hs
    exact ⟨m, hm⟩
  have hpaths : (versions.map (recordPath options)).Nodup := by rwa [hrecorded]
  -- the registries agree wherever a link looks, and that decides the link
  exact link_of_sameAt (sameAt_ofSources_perm hparsed hpaths hnames hversions hgenerators)
    (built_ofSources _ _ _).1 (built_ofSources _ _ _).1 linkOptions path bound

/-- A root that imports a word and a generator, two modules, of which one exports the word, and two
generators. -/
def shuffled : List Version × List Generator :=
  ([("main", "import foo;\nimport gen/bar;\nconst sum = foo + bar;\n".toList),
      ("a", "const foo = 1;\n".toList), ("b", "const bar = 2;\n".toList)],
    [⟨["gen"], "bar", [], fun name _ ↦ ("const " ++ name ++ " = 3;").toList⟩,
      ⟨["gen"], "baz", [], fun name _ ↦ ("const " ++ name ++ " = 4;").toList⟩])

theorem link_shuffled : ∃ modules linked,
    shuffled.1.mapM (fun s ↦ Module.parse .default s.1 s.2) = .ok modules ∧
    (modules.map Module.path).Nodup ∧
    (shuffled.2.map fun g ↦ (g.module, g.name)).Nodup ∧
    linked.map.text = "const sum = foo + bar;\n\nconst foo = 1;\n\nconst bar = 3;".toList ∧
    (ofSources .default shuffled.1 shuffled.2).link ⟨.empty, false⟩ ["main"] 10 = .ok linked ∧
    (ofSources .default shuffled.1.reverse shuffled.2.reverse).link ⟨.empty, false⟩ ["main"] 10 =
      .ok linked := by
  have hparse : (shuffled.1.mapM fun s ↦ Module.parse .default s.1 s.2).toOption.map
      (List.map Module.path) = some [["main"], ["a"], ["b"]] := by
    decide +kernel
  have hlink : ((ofSources .default shuffled.1 shuffled.2).link ⟨.empty, false⟩ ["main"]
      10).toOption.map (fun linked ↦ linked.map.text) =
        some "const sum = foo + bar;\n\nconst foo = 1;\n\nconst bar = 3;".toList := by
    decide +kernel
  obtain ⟨modules, hmodules, hpaths⟩ := Option.map_eq_some_iff.1 hparse
  obtain ⟨linked, hlinked, htext⟩ := Option.map_eq_some_iff.1 hlink
  have hmodules := Except.eq_ok_of_toOption hmodules
  have hlinked := Except.eq_ok_of_toOption hlinked
  have hnodup : (modules.map Module.path).Nodup := by
    rw [hpaths]
    decide
  have hnames : (shuffled.2.map fun g ↦ (g.module, g.name)).Nodup := by decide
  have hsame := link_ofSources_perm hmodules hnodup hnames (List.reverse_perm shuffled.1).symm
    (List.reverse_perm shuffled.2).symm ⟨.empty, false⟩ ["main"] 10
  exact ⟨modules, linked, hmodules, hnodup, hnames, htext, hlinked, hsame.trans hlinked⟩

end Registry

end ShaderLink
