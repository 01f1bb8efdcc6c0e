import ShaderLink.Proofs.Module.Splices
import ShaderLink.Proofs.Registry.Built
import ShaderLink.Proofs.Resolution.Best

/-!
# Targets of imports

An import map of a built registry leads only to what there is: a path that it knows is that of an
exported declaration or of a generator, made of the path of the module and the name
(`Registry.Leads`). So whatever a reference resolves to can be found in the registry.
-/

namespace ShaderLink

namespace Registry

/-- The path is that of the target, which is in the registry. -/
inductive Leads (r : Registry) : List String → Target → Prop
  | decl {module : ModulePath} {m : Module} {index : Nat} {d : Decl}
    (hm : r.module? module = some m) (hd : m.decl? index = some d) (hexported : d.exported = true) :
    Leads r (module ++ [d.name]) (.decl module index)
  | generator {g : Generator} (hg : r.generator? g.module g.name = some g) :
    Leads r (g.module ++ [g.name]) (.generator g.module g.name)

/-- The target is in the registry. -/
def Has (r : Registry) : Target → Prop
  | .decl module index => ∃ m d, r.module? module = some m ∧ m.decl? index = some d
  | .generator module name => (r.generator? module name).isSome

variable {r : Registry} {module : ModulePath} {name : String} {path : List String} {target : Target}

/-- A path leads to targets that the registry has. -/
theorem Leads.has (h : r.Leads path target) : r.Has target := by
  cases h with
  | decl hm hd _ => exact ⟨_, _, hm, hd⟩
  | generator hg => exact Option.isSome_of_eq_some hg

/-- An exported declaration found in a module is one that the module has. -/
theorem leads_of_mem_exports {m : Module} (hm : r.module? module = some m) {d : Nat × Decl}
    (hd : d ∈ m.exports) : r.Leads (module ++ [d.2.name]) (.decl module d.1) := by
  obtain ⟨hmem, hexported⟩ := List.mem_filter.1 hd
  exact .decl hm (Module.mem_decls_iff.1 hmem) hexported

/-- A path that names an export leads to it. -/
theorem leads_of_item? (hr : r.Built) (h : r.item? module name = some target) :
    r.Leads (module ++ [name]) target := by
  rw [item?] at h
  split at h
  · rename_i hsome
    obtain ⟨g, hg⟩ := Option.isSome_iff_exists.1 hsome
    obtain ⟨rfl, rfl⟩ := hr.eq_of_generator? hg
    obtain rfl := Option.some.inj h
    exact .generator hg
  · obtain ⟨m, hm, hrest⟩ := Option.bind_eq_some_iff.1 h
    obtain ⟨d, hd, heq⟩ := Option.bind_eq_some_iff.1 hrest
    obtain rfl := Option.some.inj heq
    have hname : d.2.name = name := by simpa using List.find?_some hd
    rw [← hname]
    exact leads_of_mem_exports hm (List.mem_of_find?_eq_some hd)

/-- So do the paths that a module gives to an import of all of it. -/
theorem leads_of_members? (hr : r.Built) {members : List (List String × Target)}
    (h : r.members? module = some members) (hmem : (path, target) ∈ members) :
    r.Leads path target := by
  have hgenerators (hmem : (path, target) ∈ (r.generatorsOf module).map fun g ↦
      (module ++ [g.name], Target.generator module g.name)) : r.Leads path target := by
    obtain ⟨g, hg, heq⟩ := List.mem_map.1 hmem
    obtain ⟨hvalue, hmodule⟩ := List.mem_filter.1 hg
    obtain ⟨⟨key, g'⟩, hentry, rfl⟩ := List.mem_map.1 hvalue
    have hget : r.generator? key.1 key.2 = some g' := OrderedMap.get?_eq_some_iff.2 hentry
    obtain ⟨hkey, hname⟩ := hr.eq_of_generator? hget
    rw [← hkey, ← hname] at hget
    obtain rfl : g'.module = module := by simpa using hmodule
    obtain ⟨rfl, rfl⟩ := Prod.mk.inj heq
    exact .generator hget
  rw [members?] at h
  split at h
  · rename_i m hm
    obtain rfl := Option.some.inj h
    rcases List.mem_append.1 hmem with hmem | hmem
    · exact hgenerators hmem
    · obtain ⟨d, hd, heq⟩ := List.mem_map.1 hmem
      obtain ⟨rfl, rfl⟩ := Prod.mk.inj heq
      exact leads_of_mem_exports hm hd
  · split at h
    · cases h
    · obtain rfl := Option.some.inj h
      exact hgenerators hmem

theorem leads_of_itemAt? (hr : r.Built) (h : r.itemAt? path = .ok (some target)) :
    r.Leads path target := by
  rw [itemAt?] at h
  split at h
  · cases h
  · rename_i name hlast
    obtain ⟨u, -, hitem⟩ := Except.bind_eq_ok.1 h
    rw [← List.dropLast_append_getLast? name hlast]
    exact leads_of_item? hr (Except.ok.inj hitem)

theorem leads_of_membersAt? (hr : r.Built) {members : List (List String × Target)}
    (h : r.membersAt? module = .ok (some members)) (hmem : (path, target) ∈ members) :
    r.Leads path target := by
  obtain ⟨u, -, hmembers⟩ := Except.bind_eq_ok.1 h
  exact leads_of_members? hr (Except.ok.inj hmembers) hmem

end Registry

namespace Module

variable {m : Module} {r : Registry} {span : Span} {leaf : ImportLeaf} {path : List String}
  {part : ImportMap.Part} {target : Target}

/-! ### Import maps -/

/-- The targets that the paths of a part lead to. -/
theorem leads_of_wildcardPart (hr : r.Built) {module : ModulePath}
    (h : m.wildcardPart r span leaf module = .ok part) (hmem : (path, target) ∈ part.exports) :
    r.Leads path target := by
  obtain ⟨members, hmembers, hpart⟩ := Except.bind_eq_ok.1 h
  obtain rfl := Except.ok.inj hpart
  cases members with
  | none => exact absurd hmem List.not_mem_nil
  | some members => exact Registry.leads_of_membersAt? hr hmembers hmem

/-- What an import of one item exports leads to it. -/
theorem leads_of_itemPart (hr : r.Built) {itemPath : List String}
    (h : m.itemPart r span leaf itemPath = .ok part) (hmem : (path, target) ∈ part.exports) :
    r.Leads path target := by
  have hitem {itemPath : List String} {item : Option Target}
      (hitem : r.itemAt? itemPath = .ok item)
      (hmem : (path, target) ∈ (item.map fun t ↦ (itemPath, t)).toList) : r.Leads path target := by
    obtain ⟨t, rfl, heq⟩ := Option.map_eq_some_iff.1 (Option.mem_toList.1 hmem)
    obtain ⟨rfl, rfl⟩ := Prod.mk.inj heq
    exact Registry.leads_of_itemAt? hr hitem
  obtain ⟨item, hitemAt, h⟩ := Except.bind_eq_ok.1 h
  obtain ⟨members, hmembers, h⟩ := Except.bind_eq_ok.1 h
  dsimp only at h
  split at h
  · obtain rfl := Except.ok.inj h
    rcases List.mem_append.1 hmem with hmem | hmem
    · exact hitem hitemAt hmem
    · cases members with
      | none => exact absurd hmem List.not_mem_nil
      | some members => exact Registry.leads_of_membersAt? hr hmembers hmem
  · -- a single name may mean what another module exports
    split at h
    · split at h
      · obtain ⟨item, hitemAt, hpart⟩ := Except.bind_eq_ok.1 h
        obtain rfl := Except.ok.inj hpart
        exact hitem hitemAt hmem
      · obtain rfl := Except.ok.inj h
        exact absurd hmem List.not_mem_nil
    · obtain rfl := Except.ok.inj h
      exact absurd hmem List.not_mem_nil

/-- The exports of an import map lead to their targets. -/
theorem leads_of_importPart (hr : r.Built) (h : m.importPart r span leaf = .ok part)
    (hmem : (path, target) ∈ part.exports) : r.Leads path target := by
  rw [importPart] at h
  split at h
  · obtain rfl := Except.ok.inj h
    exact absurd hmem List.not_mem_nil
  · split at h
    · exact leads_of_wildcardPart hr h hmem
    · exact leads_of_itemPart hr h hmem

/-- The paths that an import map knows lead to the targets that it has for them. -/
theorem leads_of_importMap (hr : r.Built) {imports : ImportMap} {warnings : List Warning}
    (h : m.importMap r = .ok (imports, warnings)) (hget : imports.exports.get? path = some target) :
    r.Leads path target := by
  obtain ⟨parts, hparts, heq⟩ := Except.bind_eq_ok.1 h
  obtain ⟨rfl, -⟩ := Prod.mk.inj (Except.ok.inj heq)
  obtain ⟨part, hpart, hmem⟩ := List.mem_flatMap.1 (OrderedMap.mem_of_get?_ofList hget)
  obtain ⟨leaf, -, hleaf⟩ := exists_of_mem_forall₂ (Except.forall₂_of_mapM hparts) hpart
  exact leads_of_importPart hr hleaf hmem

end Module

namespace ImportMap

variable {imports : ImportMap} {reference exportPath : List String} {target : Target}
  {given : Option (List String)}

/-- What a reference is found to mean is an export of the path that it was found by. -/
theorem get?_of_resolve (h : imports.resolve reference = .found target exportPath given) :
    imports.exports.get? exportPath = some target := by
  rw [resolve] at h
  split at h
  · cases h
  · rename_i c cs hbest
    have hc : c ∈ imports.bestMatches reference := hbest ▸ List.mem_cons_self
    obtain ⟨e, -, k, t, ht, rfl⟩ := mem_bestMatches_iff.1 hc
    split at h
    · obtain ⟨rfl, rfl, -⟩ := Resolution.found.inj h
      exact ht.contributes.exported
    · cases h

end ImportMap

end ShaderLink
