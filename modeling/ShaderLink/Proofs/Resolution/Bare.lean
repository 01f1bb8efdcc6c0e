import ShaderLink.Proofs.Registry.Exporters
import ShaderLink.Proofs.Resolution.Broken
import ShaderLink.Proofs.Resolution.Relative
import ShaderLink.Proofs.Resolution.Target

/-!
# Imports of bare names

The modules that the imports of a module name (`Module.Names`) are not those that a bare name is
looked for in (`Module.Searches`). An import of a whole module names this module, but it is the
module around it that is searched, or none if its path has a single segment. So a bare name that
only one of the named modules exports need not be found there. It is if and only if this module is
the first one searched that exports the name, or no searched module exports it and no other module
at all (`Module.importsFrom_iff`).
-/

namespace ShaderLink

namespace Registry

variable {r : Registry} {module : ModulePath} {name : String}

/-- A name means something in a module if and only if the module exports it. -/
theorem isSome_item?_iff : (r.item? module name).isSome ↔ r.Exports module name := by
  rw [item?, Exports]
  split
  · rename_i hsome
    exact iff_of_true rfl (.inr hsome)
  · rename_i hnone
    rw [or_iff_left hnone]
    cases hm : r.module? module with
    | none =>
      refine iff_of_false Bool.false_ne_true ?_
      rintro ⟨m, heq, -⟩
      cases heq
    | some m =>
      have hfind : (m.findExport? name).isSome ↔ ∃ d ∈ m.exports, d.2.name = name := by
        simp [Module.findExport?]
      rw [Option.bind_eq_bind, Option.bind_some, Option.bind_eq_bind, Option.isSome_bind]
      constructor
      · intro h
        obtain ⟨d, hd, -⟩ := Option.any_eq_true _ _ |>.1 h
        exact ⟨m, rfl, hfind.1 (Option.isSome_of_eq_some hd)⟩
      · rintro ⟨m', heq, hexports⟩
        obtain rfl := Option.some.inj heq
        obtain ⟨d, hd⟩ := Option.isSome_iff_exists.1 (hfind.2 hexports)
        rw [hd]
        rfl

/-- One path only stands among the exporters if no other module exports the name. -/
theorem exporters_eq_singleton_iff (h : r.Coherent) :
    r.exporters name = [module] ↔ ∀ path, r.Exports path name ↔ path = module := by
  simp only [← mem_exporters_iff h, ← List.mem_singleton (b := module)]
  exact ⟨fun heq path ↦ heq ▸ Iff.rfl,
    (r.pairwise_exporters name).eq_of_mem_iff (List.pairwise_singleton _ _)⟩

end Registry

namespace Module

variable (m : Module) (r : Registry)

/-! ### Named and searched modules -/

/-- The modules that an import names: the module of everything imported from a module, the module
itself of an imported module, and the module of an imported item. What is neither there as an item
nor as a module is taken for an item. -/
inductive Names (leaf : ImportLeaf) : ModulePath → Prop
  | everything {path : ModulePath} (hwildcard : leaf.wildcard = true)
    (hpath : ModulePath.resolve? m.path leaf.path = some path) : Names leaf path
  | whole {path : ModulePath} (hitem : leaf.wildcard = false)
    (hpath : ModulePath.resolve? m.path leaf.path = some path)
    (hmodule : (r.members? path).isSome) : Names leaf path
  | container {module : ModulePath} {name : String} (hitem : leaf.wildcard = false)
    (hpath : ModulePath.resolve? m.path leaf.path = some (module ++ [name])) (hne : module ≠ [])
    (hthere : r.Exports module name ∨ r.members? (module ++ [name]) = none) : Names leaf module

/-- The module that a bare name is looked for in because of another import. -/
inductive Searches (leaf : ImportLeaf) : ModulePath → Prop
  | everything {path : ModulePath} (hwildcard : leaf.wildcard = true)
    (hpath : ModulePath.resolve? m.path leaf.path = some path) : Searches leaf path
  | container {module : ModulePath} {name : String} (hitem : leaf.wildcard = false)
    (hpath : ModulePath.resolve? m.path leaf.path = some (module ++ [name])) (hne : module ≠ []) :
    Searches leaf module

/-- A module is the first one searched that exports a name. -/
def FindsFirst (name : String) (module : ModulePath) : Prop :=
  ∃ front site back, m.importLeaves = front ++ site :: back ∧ m.Searches site.2 module ∧
    r.Exports module name ∧
    ∀ site' ∈ front, ∀ module', m.Searches site'.2 module' → ¬r.Exports module' name

/-- No module is searched that exports a name, and one module at all does. -/
def FindsOnly (name : String) (module : ModulePath) : Prop :=
  (∀ site ∈ m.importLeaves, ∀ module', m.Searches site.2 module' → ¬r.Exports module' name) ∧
    ∀ module', r.Exports module' name ↔ module' = module

/-- Where an import of a bare name leads: to the root if there is something of the name, and
otherwise to the first module searched or the only one at all that exports the name. -/
inductive Finds (name : String) : ModulePath → Prop
  | root (hroot : r.Exports [] name) : Finds name []
  | first {module : ModulePath} (hroot : ¬r.Exports [] name) (hfirst : m.FindsFirst r name module) :
    Finds name module
  | only {module : ModulePath} (hroot : ¬r.Exports [] name) (honly : m.FindsOnly r name module) :
    Finds name module

/-- The import map is made, and in it the import of a name leads to the name in a module. -/
def ImportsFrom (span : Span) (leaf : ImportLeaf) (module : ModulePath) (name : String) : Prop :=
  ∃ imports warnings part entry target, m.importMap r = .ok (imports, warnings) ∧
    m.importPart r span leaf = .ok part ∧ part.entry = some entry ∧ entry ∈ imports.entries ∧
    entry.exportPath = module ++ [name] ∧
    imports.Contributes [leaf.localName.getD name] entry 1 target ∧
    r.Leads (module ++ [name]) target

variable {m r} {span : Span} {leaf : ImportLeaf} {module : ModulePath} {name : String}

/-! ### The search -/

/-- The module searched because of an import, as a partial function. -/
def searched? (m : Module) (leaf : ImportLeaf) : Option ModulePath := do
  let path ← ModulePath.resolve? m.path leaf.path
  if leaf.wildcard then some path
  else if 1 < path.length then some path.dropLast
  else none

theorem namedModules_eq (m : Module) : m.namedModules =
    m.path :: m.importLeaves.filterMap fun site ↦ m.searched? site.2 := rfl

theorem searched?_eq_some_iff : m.searched? leaf = some module ↔ m.Searches leaf module := by
  constructor
  · intro h
    obtain ⟨path, hpath, h⟩ := Option.bind_eq_some_iff.1 h
    split at h
    · rename_i hwildcard
      obtain rfl := Option.some.inj h
      exact .everything hwildcard hpath
    · rename_i hitem
      split at h
      · rename_i hlength
        obtain rfl := Option.some.inj h
        have hne : path ≠ [] := List.ne_nil_of_length_pos (Nat.zero_lt_of_lt hlength)
        rw [← List.dropLast_concat_getLast hne] at hpath
        refine .container (Bool.eq_false_iff.2 hitem) hpath (List.ne_nil_of_length_pos ?_)
        rw [List.length_dropLast]
        exact Nat.sub_pos_of_lt hlength
      · cases h
  · rintro (⟨hwildcard, hpath⟩ | ⟨hitem, hpath, hne⟩)
    · rw [searched?, hpath, hwildcard]
      rfl
    · rw [searched?, hpath, hitem]
      simp [List.length_pos_iff.2 hne]

section Search

variable (hr : r.Coherent)
include hr

/-- An import is passed over in the search if what is searched because of it does not export the
name. -/
theorem any_searched?_eq_false_iff : (m.searched? leaf).any (r.exporters name).contains = false ↔
    ∀ module, m.Searches leaf module → ¬r.Exports module name := by
  simp only [← searched?_eq_some_iff, ← Registry.mem_exporters_iff hr]
  cases m.searched? leaf <;> simp

theorem findsFirst_iff : m.FindsFirst r name module ↔
    (m.importLeaves.find? fun site ↦
      (m.searched? site.2).any (r.exporters name).contains).bind (fun site ↦ m.searched? site.2) =
        some module := by
  rw [Option.bind_eq_some_iff]
  simp only [List.find?_eq_some_iff_append, Bool.not_eq_true', any_searched?_eq_false_iff hr]
  constructor
  · rintro ⟨front, site, back, hleaves, hsearches, hexports, hfront⟩
    have hfound := searched?_eq_some_iff.2 hsearches
    refine ⟨site, ⟨?_, front, back, hleaves, hfront⟩, hfound⟩
    rw [hfound]
    exact List.contains_iff_mem.2 ((Registry.mem_exporters_iff hr).2 hexports)
  · rintro ⟨site, ⟨hsite, front, back, hleaves, hfront⟩, hfound⟩
    rw [hfound] at hsite
    have hexports := (Registry.mem_exporters_iff hr).1 (List.contains_iff_mem.1 hsite)
    exact ⟨front, site, back, hleaves, searched?_eq_some_iff.1 hfound, hexports, hfront⟩

theorem findsOnly_iff : m.FindsOnly r name module ↔
    (m.importLeaves.find? fun site ↦
      (m.searched? site.2).any (r.exporters name).contains) = none ∧
        r.exporters name = [module] := by
  rw [FindsOnly, List.find?_eq_none, Registry.exporters_eq_singleton_iff hr]
  simp only [Bool.not_eq_true, any_searched?_eq_false_iff hr]

omit hr in
/-- Something is searched because of the import that ends the search. -/
theorem exists_searched?_of_find? {site : Span × ImportLeaf}
    (h : (m.importLeaves.find? fun site ↦
      (m.searched? site.2).any (r.exporters name).contains) = some site) :
    ∃ found, m.searched? site.2 = some found := by
  have hany := List.find?_some h
  cases hfound : m.searched? site.2 with
  | some found => exact ⟨found, rfl⟩
  | none =>
    rw [hfound] at hany
    cases hany

/-- A bare name that the module does not export itself is found in the first module searched that
exports it, and otherwise in the only one that does. -/
theorem exporterOf?_eq_some_iff (hown : ¬r.Exports m.path name) :
    m.exporterOf? r name = some module ↔
      m.FindsFirst r name module ∨ m.FindsOnly r name module := by
  have hskip : ¬(r.exporters name).contains m.path = true := fun h ↦
    hown ((Registry.mem_exporters_iff hr).1 (List.contains_iff_mem.1 h))
  rw [exporterOf?, namedModules_eq, List.find?_cons_of_neg hskip, List.find?_filterMap,
    findsFirst_iff hr, findsOnly_iff hr]
  cases hfirst : m.importLeaves.find? fun site ↦
      (m.searched? site.2).any (r.exporters name).contains with
  | some site =>
    obtain ⟨found, hfound⟩ := exists_searched?_of_find? hfirst
    rw [Option.bind_some, hfound]
    exact (or_iff_left fun h ↦ nomatch h.1).symm
  | none =>
    rw [Option.bind_none, or_iff_right (Option.some_ne_none module).symm, and_iff_right rfl,
      Option.orElse_none]
    split
    · rename_i only honly
      rw [honly, Option.some_inj, List.singleton_inj]
    · rename_i hmany
      exact iff_of_false (Option.some_ne_none module).symm (hmany module)

theorem finds_iff_of_not_root (hown : ¬r.Exports m.path name) (hroot : ¬r.Exports [] name) :
    m.Finds r name module ↔ m.exporterOf? r name = some module := by
  rw [exporterOf?_eq_some_iff hr hown]
  constructor
  · rintro (hroot' | ⟨-, hfirst⟩ | ⟨-, honly⟩)
    · exact absurd hroot' hroot
    · exact .inl hfirst
    · exact .inr honly
  · exact fun h ↦ h.elim (.first hroot) (.only hroot)

end Search

theorem finds_iff_of_root (hroot : r.Exports [] name) : m.Finds r name module ↔ module = [] := by
  constructor
  · rintro (_ | ⟨hnot, -⟩ | ⟨hnot, -⟩)
    · rfl
    · exact absurd hroot hnot
    · exact absurd hroot hnot
  · rintro rfl
    exact .root hroot

/-! ### The import -/

section Import

variable (hitem : leaf.wildcard = false) (hleaf : leaf.path = [name])
  (hname : ¬IsMarker name) (hmembers : r.members? [name] = none)
  (hown : ¬r.Exports m.path name)
include hitem hleaf hname

/-- A name is looked for at the root first. -/
theorem importPart_of_bare (m : Module) (r : Registry) (span : Span) :
    ModulePath.resolve? m.path leaf.path = some [name] ∧
    m.importPart r span leaf = m.itemPart r span leaf [name] ∧
    leaf.visiblePath = [leaf.localName.getD name] := by
  have hpath : ModulePath.resolve? m.path leaf.path = some [name] := by
    rw [hleaf]
    exact ModulePath.resolve?_names (by simpa using hname) m.path
  refine ⟨hpath, ?_, ?_⟩
  · rw [importPart, hpath, hitem]
    rfl
  · rw [ImportLeaf.visiblePath, hleaf]
    have hshown : ModulePath.isMarker name = false :=
      Bool.eq_false_iff.2 fun h ↦ hname (isMarker_iff.1 h)
    cases leaf.localName <;> simp [hshown]

omit hitem hleaf hname in
include hmembers in
/-- There is something at the path of a name that is no module if the root exports the name. -/
theorem provides_iff : r.Provides [name] ↔ r.Exports [] name := by
  rw [Registry.Provides, hmembers, or_iff_left (by simp), ← Registry.isSome_item?_iff]
  constructor
  · rintro ⟨module, name', heq, h⟩
    have heq : [] ++ [name] = module ++ [name'] := heq
    obtain ⟨rfl, hname'⟩ := List.append_inj' heq rfl
    rwa [List.singleton_inj.1 hname']
  · exact fun h ↦ ⟨[], name, rfl, h⟩

include hmembers hown

/-- An import of a name that needs nothing broken has an entry for the path where the name is found,
and what is there. -/
theorem exists_part_of_bare (hr : r.Coherent) (hclear : m.Clear r leaf) (span : Span) :
    ∃ part entry, m.importPart r span leaf = .ok part ∧ part.entry = some entry ∧
      entry.visible = [leaf.localName.getD name] ∧ ∀ module, r.Exports module name →
        (entry.exportPath = module ++ [name] ↔ m.Finds r name module) ∧
        (m.Finds r name module → module ++ [name] ∈ part.exports.map Prod.fst) := by
  obtain ⟨hpath, himport, hvisible⟩ := importPart_of_bare hitem hleaf hname m r span
  have hprovides := provides_iff hmembers
  have hlook : r.itemAt? ([] ++ [name]) = .ok (r.item? [] name) :=
    Registry.itemAt?_concat_eq_ok_iff.2 ⟨hclear 0 [] (.parent hitem hpath), rfl⟩
  have hmembersAt : r.membersAt? [name] = .ok none :=
    Registry.membersAt?_eq_ok_iff.2 ⟨hclear 1 [name] (.target hpath), hmembers⟩
  have hthere {module found : ModulePath} {item : Option Target}
      (hitemAt : r.itemAt? (found ++ [name]) = .ok item) (hexports : r.Exports module name)
      (heq : found = module) :
      module ++ [name] ∈ (item.map fun t ↦ (found ++ [name], t)).toList.map Prod.fst := by
    obtain ⟨-, rfl⟩ := Registry.itemAt?_concat_eq_ok_iff.1 hitemAt
    obtain ⟨target, htarget⟩ := Option.isSome_iff_exists.1 (Registry.isSome_item?_iff.2 hexports)
    simp [heq, htarget]
  rw [himport]
  by_cases hroot : r.Exports [] name
  · refine ⟨_, _, itemPart_of_provides hlook hmembersAt (hprovides.2 hroot), rfl, hvisible,
      fun module hexports ↦ ?_⟩
    have hempty : [] ++ [name] = module ++ [name] ↔ module = [] :=
      (List.append_left_inj [name]).trans eq_comm
    rw [finds_iff_of_root hroot]
    refine ⟨hempty, fun heq ↦ ?_⟩
    rw [List.map_append]
    exact List.mem_append_left _ (hthere hlook hexports heq.symm)
  · have hmissing := mt hprovides.1 hroot
    simp only [finds_iff_of_not_root hr hown hroot]
    cases hexporter : m.exporterOf? r name with
    | some found =>
      have hitemAt : r.itemAt? (found ++ [name]) = .ok (r.item? found name) :=
        Registry.itemAt?_concat_eq_ok_iff.2
          ⟨hclear 2 found (.bare hitem hpath hleaf hmissing hexporter), rfl⟩
      have hpart : m.itemPart r span leaf [name] = _ :=
        itemPart_of_bare hlook hmembersAt hmissing hleaf hexporter
      rw [hitemAt] at hpart
      refine ⟨_, _, hpart, rfl, hvisible, fun module hexports ↦ ?_⟩
      rw [Option.some_inj]
      exact ⟨List.append_left_inj [name], fun heq ↦ hthere hitemAt hexports heq⟩
    | none =>
      have hnowhere : ∀ name', leaf.path = [name'] → m.exporterOf? r name' = none := by
        intro name' hname'
        rwa [← List.singleton_inj.1 (hleaf.symm.trans hname')]
      refine ⟨_, _, itemPart_of_missing hlook hmembersAt hmissing hnowhere, rfl, hvisible,
        fun module hexports ↦ ⟨iff_of_false (fun heq ↦ ?_) nofun, nofun⟩⟩
      -- nothing is exported at the root
      have heq : [] ++ [name] = module ++ [name] := heq
      exact hroot (List.append_cancel_right heq ▸ hexports)

end Import

/-- If no import needs anything broken, the import map is made. -/
theorem exists_importMap (h : ∀ site ∈ m.importLeaves, m.Clear r site.2) :
    ∃ imports warnings, m.importMap r = .ok (imports, warnings) := by
  cases hmap : m.importMap r with
  | ok result => exact ⟨result.1, result.2, rfl⟩
  | error broken =>
    obtain ⟨front, site, back, hleaves, -, rank, hneeds, hfailed, -⟩ :=
      importMap_eq_error_iff.1 hmap
    exact absurd (h site (hleaves ▸ by simp) rank _ hneeds) hfailed.ne_none

/-- The entry of an import is in the import map, and so are its exports. -/
theorem mem_importMap {imports : ImportMap} {warnings : List Warning} {part : ImportMap.Part}
    (h : m.importMap r = .ok (imports, warnings)) (hsite : (span, leaf) ∈ m.importLeaves)
    (hpart : m.importPart r span leaf = .ok part) :
    (∀ entry, part.entry = some entry → entry ∈ imports.entries) ∧
      ∀ path ∈ part.exports.map Prod.fst, ∃ target, imports.exports.get? path = some target := by
  obtain ⟨parts, hparts, heq⟩ := Except.bind_eq_ok.1 h
  obtain ⟨rfl, -⟩ := Prod.mk.inj (Except.ok.inj heq)
  obtain ⟨part', hmem, hpart'⟩ := exists_of_mem_forall₂ (Except.forall₂_of_mapM hparts).flip hsite
  obtain rfl := Except.ok.inj (hpart.symm.trans hpart')
  refine ⟨fun entry hentry ↦ List.mem_filterMap.2 ⟨part, hmem, hentry⟩, fun path hpath ↦ ?_⟩
  refine OrderedMap.exists_get?_ofList ?_
  rw [List.map_flatMap]
  exact List.mem_flatMap.2 ⟨part, hmem, hpath⟩

/-- An import of a bare name leads to the name in a module that exports it if and only if no import
needs anything broken and this module is where the name is found. -/
theorem importsFrom_iff_finds (hr : r.Built) (hsite : (span, leaf) ∈ m.importLeaves)
    (hitem : leaf.wildcard = false) (hleaf : leaf.path = [name]) (hname : ¬IsMarker name)
    (hmembers : r.members? [name] = none) (hown : ¬r.Exports m.path name)
    (hexports : r.Exports module name) : m.ImportsFrom r span leaf module name ↔
      (∀ site ∈ m.importLeaves, m.Clear r site.2) ∧ m.Finds r name module := by
  constructor
  · rintro ⟨imports, warnings, part, entry, target, hmap, hpart, hentry, -, hpath, -, -⟩
    have hclear := fun site (hsite : site ∈ m.importLeaves) ↦ clear_of_importMap hmap hsite
    obtain ⟨part', entry', hpart', hentry', -, hiff⟩ :=
      exists_part_of_bare hitem hleaf hname hmembers hown hr.coherent (hclear _ hsite) span
    obtain rfl := Except.ok.inj (hpart.symm.trans hpart')
    obtain rfl := Option.some.inj (hentry.symm.trans hentry')
    exact ⟨hclear, (hiff module hexports).1.1 hpath⟩
  · rintro ⟨hclear, hfinds⟩
    obtain ⟨part, entry, hpart, hentry, hvisible, hiff⟩ :=
      exists_part_of_bare hitem hleaf hname hmembers hown hr.coherent (hclear _ hsite) span
    obtain ⟨imports, warnings, hmap⟩ := exists_importMap hclear
    obtain ⟨hentries, hget⟩ := mem_importMap hmap hsite hpart
    have hpath := (hiff module hexports).1.2 hfinds
    obtain ⟨target, htarget⟩ := hget _ ((hiff module hexports).2 hfinds)
    have htakes : entry.Takes [leaf.localName.getD name] 1 :=
      .overlap Nat.one_pos ⟨Nat.le_refl 1, by rw [hvisible]; rfl⟩ fun j hj ↦ hj.1
    exact ⟨imports, warnings, part, entry, target, hmap, hpart, hentry, hentries entry hentry,
      hpath, ⟨htakes, by rw [hpath]; simpa using htarget⟩, leads_of_importMap hr hmap htarget⟩

/-- An import that is not of a whole module names the module that is searched because of it. -/
theorem names_iff_searches (hwhole : ∀ path, leaf.wildcard = false →
      ModulePath.resolve? m.path leaf.path = some path → r.members? path = none) :
    m.Names r leaf module ↔ m.Searches leaf module := by
  constructor
  · rintro (⟨hwildcard, hpath⟩ | ⟨hitem, hpath, hmodule⟩ | ⟨hitem, hpath, hne, -⟩)
    · exact .everything hwildcard hpath
    · rw [hwhole _ hitem hpath] at hmodule
      cases hmodule
    · exact .container hitem hpath hne
  · rintro (⟨hwildcard, hpath⟩ | ⟨hitem, hpath, hne⟩)
    · exact .everything hwildcard hpath
    · exact .container hitem hpath hne (.inr (hwhole _ hitem hpath))

/-- If some module searched exports a name, there is a first one. -/
theorem exists_findsFirst (hr : r.Coherent) {site : Span × ImportLeaf}
    (hsite : site ∈ m.importLeaves) (hsearches : m.Searches site.2 module)
    (hexports : r.Exports module name) : ∃ first, m.FindsFirst r name first := by
  have hsome : (m.importLeaves.find? fun site ↦
      (m.searched? site.2).any (r.exporters name).contains).isSome := by
    refine List.find?_isSome.2 ⟨site, hsite, ?_⟩
    rw [searched?_eq_some_iff.2 hsearches]
    exact List.contains_iff_mem.2 ((Registry.mem_exporters_iff hr).2 hexports)
  obtain ⟨found, hfound⟩ := Option.isSome_iff_exists.1 hsome
  obtain ⟨first, hfirst⟩ := exists_searched?_of_find? hfound
  exact ⟨first, (findsFirst_iff hr).2 (Option.bind_eq_some_iff.2 ⟨found, hfound, hfirst⟩)⟩

/-- **Where the import of a bare name leads.** For a name that is no module and that the module does
not export itself, the import leads to a module that exports the name if and only if no import needs
anything broken and the search finds this module. If no import is of a whole module and the root
does not have the name, then it leads to the only one of the modules named by the imports that
exports the name, whatever other modules export it. -/
theorem importsFrom_iff (hr : r.Built) (hsite : (span, leaf) ∈ m.importLeaves)
    (hitem : leaf.wildcard = false) (hleaf : leaf.path = [name]) (hname : ¬IsMarker name)
    (hmembers : r.members? [name] = none) (hown : ¬r.Exports m.path name) :
    (∀ module, r.Exports module name → (m.ImportsFrom r span leaf module name ↔
      (∀ site ∈ m.importLeaves, m.Clear r site.2) ∧ m.Finds r name module)) ∧
    ∀ module, (∃ site ∈ m.importLeaves, m.Names r site.2 module) → r.Exports module name →
      (∀ site ∈ m.importLeaves, ∀ module', m.Names r site.2 module' →
        r.Exports module' name → module' = module) →
      (∀ site ∈ m.importLeaves, m.Clear r site.2) → (r.Exports [] name → module = []) →
      (∀ site ∈ m.importLeaves, ∀ path, site.2.wildcard = false →
        ModulePath.resolve? m.path site.2.path = some path → r.members? path = none) →
      m.ImportsFrom r span leaf module name := by
  have hiff (module) (hexports : r.Exports module name) :=
    importsFrom_iff_finds hr hsite hitem hleaf hname hmembers hown hexports
  refine ⟨hiff, fun module hnamed hexports honly hclear hroot hwhole ↦ ?_⟩
  refine (hiff module hexports).2 ⟨hclear, ?_⟩
  by_cases htop : r.Exports [] name
  · exact (finds_iff_of_root htop).2 (hroot htop)
  · obtain ⟨site, hsite, hnames⟩ := hnamed
    have hsearches := (names_iff_searches (hwhole site hsite)).1 hnames
    obtain ⟨first, hfirst⟩ := exists_findsFirst hr.coherent hsite hsearches hexports
    -- the first one searched is a named one
    obtain ⟨front, site', back, hleaves, hsearches', hexports', -⟩ := id hfirst
    have hsite' : site' ∈ m.importLeaves := hleaves ▸ by simp
    have hnames' := (names_iff_searches (hwhole site' hsite')).2 hsearches'
    obtain rfl := honly site' hsite' first hnames' hexports'
    exact .first htop hfirst

end Module

namespace Registry

/-- Two modules that import a module and a name that it exports. Only the first one also imports an
item of the module, and another module exports the name as well. -/
def exportedTwice : Registry :=
  ofSources .default
    [("item", "import lib/util;\nimport lib/util/g;\nimport f;\n".toList),
      ("whole", "import lib/util;\nimport f;\n".toList),
      ("lib/util", "fn f() \x7b\x7d\nfn g() \x7b\x7d\n".toList),
      ("other", "fn f() \x7b\x7d\n".toList)] []

/-- The name is found because of the item. The import of the whole module alone does not lead to
it. -/
theorem importsFrom_iff_exportedTwice : ∃ item whole,
    exportedTwice.module? ["item"] = some item ∧ exportedTwice.module? ["whole"] = some whole ∧
    exportedTwice.Exports ["lib", "util"] "f" ∧ exportedTwice.Exports ["other"] "f" ∧
    (∃ span, item.ImportsFrom exportedTwice span ⟨["f"], none, none, false⟩ ["lib", "util"] "f") ∧
    ∃ site ∈ whole.importLeaves, whole.Names exportedTwice site.2 ["lib", "util"] ∧
      ∀ span, (span, ⟨["f"], none, none, false⟩) ∈ whole.importLeaves →
        ¬whole.ImportsFrom exportedTwice span ⟨["f"], none, none, false⟩ ["lib", "util"] "f" := by
  have hitem : (do
      let item ← exportedTwice.module? ["item"]
      let _ ← (item.importMap exportedTwice).toOption
      return (item.path, item.importLeaves, item.exporterOf? exportedTwice "f")) =
      some (["item"], [(⟨0, 17⟩, ⟨["lib", "util"], none, none, false⟩),
        (⟨17, 19⟩, ⟨["lib", "util", "g"], none, none, false⟩),
        (⟨36, 10⟩, ⟨["f"], none, none, false⟩)], some ["lib", "util"]) := by
    decide +kernel
  have hwhole : (do
      let whole ← exportedTwice.module? ["whole"]
      return (whole.path, whole.importLeaves, whole.exporterOf? exportedTwice "f")) =
      some (["whole"], [(⟨0, 17⟩, ⟨["lib", "util"], none, none, false⟩),
        (⟨17, 10⟩, ⟨["f"], none, none, false⟩)], none) := by
    decide +kernel
  have hmembers : exportedTwice.members? ["f"] = none ∧
      (exportedTwice.members? ["lib", "util"]).isSome = true := by decide +kernel
  have hitems : [["item"], ["whole"], [], ["lib", "util"], ["other"]].map (fun path ↦
      (exportedTwice.item? path "f").isSome) =
        [false, false, false, true, true] := by decide +kernel
  have hbuilt : exportedTwice.Built := (built_ofSources _ _ _).1
  generalize exportedTwice = r at hitem hwhole hmembers hitems hbuilt ⊢
  simp only [List.map_cons, List.map_nil, List.cons.injEq, ← Bool.not_eq_true,
    isSome_item?_iff] at hitems
  obtain ⟨hownI, hownW, hroot, hlib, hother, -⟩ := hitems
  have hname : ¬IsMarker "f" := by decide
  obtain ⟨item, hitem, heval⟩ := Option.bind_eq_some_iff.1 hitem
  obtain ⟨⟨imports, warnings⟩, hmap, heval⟩ := Option.bind_eq_some_iff.1 heval
  obtain ⟨hpathI, hleavesI, hfoundI⟩ := by simpa using heval
  obtain ⟨whole, hwhole, heval⟩ := Option.bind_eq_some_iff.1 hwhole
  obtain ⟨hpathW, hleavesW, hfoundW⟩ := by simpa using heval
  rw [← hpathI] at hownI
  rw [← hpathW] at hownW
  refine ⟨item, whole, hitem, hwhole, hlib, hother, ⟨⟨36, 10⟩, ?_⟩,
    (⟨0, 17⟩, ⟨["lib", "util"], none, none, false⟩), by simp [hleavesW],
    .whole rfl (ModulePath.resolve?_names (by decide) _) hmembers.2, fun span hsite himport ↦ ?_⟩
  · have hsite : (⟨36, 10⟩, ⟨["f"], none, none, false⟩) ∈ item.importLeaves := by
      simp [hleavesI]
    have hiff := (Module.importsFrom_iff hbuilt hsite rfl rfl hname hmembers.1 hownI).1 _ hlib
    exact hiff.2 ⟨fun _ hsite ↦ Module.clear_of_importMap (Except.eq_ok_of_toOption hmap) hsite,
      (Module.finds_iff_of_not_root hbuilt.coherent hownI hroot).2 hfoundI⟩
  · have hiff := (Module.importsFrom_iff hbuilt hsite rfl rfl hname hmembers.1 hownW).1 _ hlib
    have hfinds := (Module.finds_iff_of_not_root hbuilt.coherent hownW hroot).1 (hiff.1 himport).2
    exact Option.some_ne_none _ (hfinds.symm.trans hfoundW)

end Registry

end ShaderLink
