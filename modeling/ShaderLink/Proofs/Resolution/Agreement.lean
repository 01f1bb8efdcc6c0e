import ShaderLink.Proofs.Except
import ShaderLink.Proofs.Registry.Exporters
import ShaderLink.Resolution.Resolve

/-!
# Registries that agree

Two registries agree at a path if they have the same module there, or failed to parse it for the
same reason, and have the same generators. An import looks at its absolute path and at the one in
front of the last segment, and only an import of a single word looks further. So where two
registries agree on the paths of its imports, a module has import maps that lead every reference to
the same target, or none in both for the same reason.

The order of generators is not part of the agreement, so the import maps need not list their targets
in the same order. What counts is what look-up finds.
-/

namespace ShaderLink

namespace OrderedMap

variable {κ α : Type} [DecidableEq κ]

/-- What look-up finds in a list of pairs, of which later ones count. -/
def lookup (es : List (κ × α)) : κ → Option α :=
  (ofList es).get?

/-- A later entry for a key hides the earlier ones. -/
theorem lookup_append (es es' : List (κ × α)) :
    lookup (es ++ es') = fun k ↦ (lookup es' k).or (lookup es k) := by
  funext k
  simp only [lookup, get?_ofList, List.filter_append, List.getLast?_append]
  cases (es'.filter fun e ↦ e.1 = k).getLast? <;> rfl

/-- Where no key is paired with two values, look-up finds all pairs. -/
theorem lookup_eq_some_iff {es : List (κ × α)} (h : ∀ k a b, (k, a) ∈ es → (k, b) ∈ es → a = b)
    {k : κ} {a : α} : lookup es k = some a ↔ (k, a) ∈ es :=
  ⟨mem_of_get?_ofList, fun hmem ↦ get?_ofList_of_unique hmem fun b hb ↦ h k b a hb hmem⟩

end OrderedMap

open OrderedMap (lookup lookup_append)

namespace Registry

/-- The registries have the same at a path. -/
structure SameAt (r r' : Registry) (path : ModulePath) : Prop where
  module? : r'.module? path = r.module? path
  failure? : r'.failure? path = r.failure? path
  generator? : ∀ name, r'.generator? path name = r.generator? path name

variable {r r' : Registry} {path module : ModulePath}

theorem Coherent.mem_generatorsOf_iff (h : r.Coherent) {g : Generator} :
    g ∈ r.generatorsOf module ↔ r.generator? module g.name = some g := by
  rw [generatorsOf, List.mem_filter, beq_iff_eq]
  constructor
  · rintro ⟨hvalue, rfl⟩
    obtain ⟨⟨key, g'⟩, hentry, rfl⟩ := List.mem_map.1 hvalue
    have hget : r.generator? key.1 key.2 = some g' := OrderedMap.get?_eq_some_iff.2 hentry
    obtain ⟨hmodule, hname⟩ := h.registered _ _ _ hget
    rwa [hmodule, hname]
  · intro hget
    exact ⟨OrderedMap.mem_values_of_get? hget, (h.registered _ _ _ hget).1⟩

/-- A path names one of the generators of a module. -/
theorem eq_of_mem_generators {generators : List Generator} {path : List String} {a b : Target}
    (ha : (path, a) ∈ generators.map fun g ↦ (module ++ [g.name], Target.generator module g.name))
    (hb : (path, b) ∈ generators.map fun g ↦
      (module ++ [g.name], Target.generator module g.name)) : a = b := by
  obtain ⟨g, -, hg⟩ := List.mem_map.1 ha
  obtain ⟨g', -, hg'⟩ := List.mem_map.1 hb
  obtain ⟨rfl, rfl⟩ := Prod.mk.inj hg
  obtain ⟨hpath, rfl⟩ := Prod.mk.inj hg'
  rw [List.singleton_inj.1 (List.append_cancel_left hpath)]

namespace SameAt

/-- Registries that agree at a path agree on whether there is a module to read. -/
theorem checkParsed (h : r.SameAt r' path) : r'.checkParsed path = r.checkParsed path := by
  rw [Registry.checkParsed, Registry.checkParsed, h.failure?]

theorem item? (h : r.SameAt r' path) (name : String) : r'.item? path name = r.item? path name := by
  rw [Registry.item?, Registry.item?, h.generator?, h.module?]

/-- They agree on what is exported there. -/
theorem itemAt? {path : List String} (h : r.SameAt r' path.dropLast) :
    r'.itemAt? path = r.itemAt? path := by
  rw [Registry.itemAt?, Registry.itemAt?]
  cases path.getLast? with
  | none => rfl
  | some name => simp only [h.checkParsed, h.item?]

/-- The same paths lead to generators. -/
theorem lookup_generators (h : r.SameAt r' module) (hr : r.Coherent) (hr' : r'.Coherent) :
    lookup ((r'.generatorsOf module).map fun g ↦
      (module ++ [g.name], Target.generator module g.name))
      = lookup ((r.generatorsOf module).map fun g ↦
          (module ++ [g.name], Target.generator module g.name)) := by
  funext path
  refine Option.ext fun target ↦ ?_
  rw [OrderedMap.lookup_eq_some_iff fun _ _ _ ↦ eq_of_mem_generators,
    OrderedMap.lookup_eq_some_iff fun _ _ _ ↦ eq_of_mem_generators, List.mem_map, List.mem_map]
  refine exists_congr fun g ↦ and_congr_left fun _ ↦ ?_
  rw [hr'.mem_generatorsOf_iff, hr.mem_generatorsOf_iff, h.generator?]

theorem generatorsOf_eq_nil_iff (h : r.SameAt r' module) (hr : r.Coherent) (hr' : r'.Coherent) :
    r'.generatorsOf module = [] ↔ r.generatorsOf module = [] := by
  simp only [List.eq_nil_iff_forall_not_mem, hr'.mem_generatorsOf_iff, hr.mem_generatorsOf_iff,
    h.generator?]

/-- The same paths lead to what is in a module. -/
theorem members? (h : r.SameAt r' module) (hr : r.Coherent) (hr' : r'.Coherent) :
    (r'.members? module).map lookup = (r.members? module).map lookup := by
  rw [Registry.members?, Registry.members?, h.module?]
  cases r.module? module with
  | some m =>
    dsimp only
    rw [Option.map_some, Option.map_some, lookup_append, lookup_append, h.lookup_generators hr hr']
  | none =>
    dsimp only
    simp only [List.isEmpty_iff, List.map_eq_nil_iff, h.generatorsOf_eq_nil_iff hr hr']
    split
    · rfl
    · rw [Option.map_some, Option.map_some, h.lookup_generators hr hr']

/-- They agree on all its members, up to their order. -/
theorem membersAt? (h : r.SameAt r' module) (hr : r.Coherent) (hr' : r'.Coherent) :
    (r'.membersAt? module).map (Option.map lookup) =
      (r.membersAt? module).map (Option.map lookup) := by
  rw [Registry.membersAt?, Registry.membersAt?, h.checkParsed]
  exact Except.map_bind_congr_right fun _ ↦ congrArg Except.ok (h.members? hr hr')

end SameAt

/-- Registries that agree everywhere have the same exporters. -/
theorem exporters_of_sameAt (h : ∀ path, r.SameAt r' path) (hr : r.Coherent) (hr' : r'.Coherent)
    (name : String) : r'.exporters name = r.exporters name := by
  refine exporters_congr hr' hr fun path ↦ ?_
  rw [Exports, Exports, (h path).module?, (h path).generator?]

end Registry

namespace ImportMap

/-- What a reference resolves to depends only on the imports and on what look-up finds. -/
theorem resolve_congr {imports imports' : ImportMap} (hentries : imports'.entries = imports.entries)
    (hexports : imports'.exports.get? = imports.exports.get?) :
    imports'.resolve = imports.resolve := by
  funext reference
  have hmatch (e : ImportEntry) : imports'.match? reference e = imports.match? reference e := by
    rw [match?, match?, hexports]
  have hbest : imports'.bestMatches reference = imports.bestMatches reference := by
    rw [bestMatches, bestMatches, matchesOf, matchesOf, hentries, funext hmatch]
  rw [resolve, resolve, hbest]

/-- What counts of the part of a leaf. -/
def Part.view (part : Part) :
    Option ImportEntry × (List String → Option Target) × Option Warning :=
  (part.entry, lookup part.exports, part.warning)

/-- What counts of an import map and its warnings. -/
def view (result : ImportMap × List Warning) : (List String → Resolution) × List Warning :=
  (result.1.resolve, result.2)

end ImportMap

namespace Module

open Registry

variable {m : Module} {r r' : Registry} {span : Span} {leaf : ImportLeaf} {path : List String}

theorem lookup_getD {members members' : Option (List (List String × Target))}
    (h : members'.map lookup = members.map lookup) :
    members'.isSome = members.isSome ∧ lookup (members'.getD []) = lookup (members.getD []) := by
  cases members with
  | none =>
    obtain rfl := Option.map_eq_none_iff.1 h
    exact ⟨rfl, rfl⟩
  | some es =>
    obtain ⟨es', rfl, heq⟩ := Option.map_eq_some_iff.1 h
    exact ⟨rfl, heq⟩

/-- An import of a whole module sees the same. -/
theorem view_wildcardPart (h : r.SameAt r' path) (hr : r.Coherent) (hr' : r'.Coherent) :
    (m.wildcardPart r' span leaf path).map ImportMap.Part.view =
      (m.wildcardPart r span leaf path).map ImportMap.Part.view := by
  refine Except.map_bind_congr (h.membersAt? hr hr') fun members members' hmembers ↦ ?_
  obtain ⟨hsome, hlookup⟩ := lookup_getD hmembers
  simp only [ImportMap.Part.view, Except.map, pure, Except.pure, hsome, hlookup]

theorem missingMessage_congr (h : r.SameAt r' path.dropLast) :
    missingMessage r' path = missingMessage r path := by
  rw [missingMessage, missingMessage]
  split
  · rename_i hfront
    rw [← hfront, h.module?]
  · rfl

/-- So does an import of one item. -/
theorem view_itemPart (h : r.SameAt r' path) (hfront : r.SameAt r' path.dropLast)
    (hbare : leaf.path.length = 1 → ∀ path, r.SameAt r' path) (hr : r.Coherent)
    (hr' : r'.Coherent) : (m.itemPart r' span leaf path).map ImportMap.Part.view =
      (m.itemPart r span leaf path).map ImportMap.Part.view := by
  rw [itemPart, itemPart, hfront.itemAt?, missingMessage_congr hfront]
  refine Except.map_bind_congr_right fun item ↦ ?_
  refine Except.map_bind_congr (h.membersAt? hr hr') fun members members' hmembers ↦ ?_
  obtain ⟨hsome, hlookup⟩ := lookup_getD hmembers
  rw [hsome]
  split
  · simp only [ImportMap.Part.view, Except.map, pure, Except.pure, lookup_append, hlookup]
  · -- only a single word is looked for everywhere
    split
    · rename_i name hname
      have hall := hbare (by rw [hname]; rfl)
      have hexporter : m.exporterOf? r' name = m.exporterOf? r name := by
        rw [exporterOf?, exporterOf?, exporters_of_sameAt hall hr hr']
      rw [hexporter]
      cases m.exporterOf? r name with
      | none => rfl
      | some module =>
        dsimp only
        rw [(hall _).itemAt?]
    · rfl

/-- What a leaf adds is the same in registries that agree on its absolute path. -/
theorem view_importPart (h : ∀ path, ModulePath.resolve? m.path leaf.path = some path →
      r.SameAt r' path ∧ r.SameAt r' path.dropLast)
    (hbare : leaf.path.length = 1 → ∀ path, r.SameAt r' path) (hr : r.Coherent)
    (hr' : r'.Coherent) : (m.importPart r' span leaf).map ImportMap.Part.view =
      (m.importPart r span leaf).map ImportMap.Part.view := by
  rw [importPart, importPart]
  cases hpath : ModulePath.resolve? m.path leaf.path with
  | none => rfl
  | some path =>
    obtain ⟨hhere, hfront⟩ := h path hpath
    dsimp only
    split
    · exact view_wildcardPart hhere hr hr'
    · exact view_itemPart hhere hfront hbare hr hr'

/-- The import maps of a module lead references to the same in registries that agree on the absolute
paths of its imports. -/
theorem view_importMap (h : ∀ leaf ∈ m.importLeaves, ∀ path,
      ModulePath.resolve? m.path leaf.2.path = some path →
        r.SameAt r' path ∧ r.SameAt r' path.dropLast)
    (hbare : ∀ leaf ∈ m.importLeaves, leaf.2.path.length = 1 → ∀ path, r.SameAt r' path)
    (hr : r.Coherent) (hr' : r'.Coherent) :
    (m.importMap r').map ImportMap.view = (m.importMap r).map ImportMap.view := by
  rw [importMap, importMap]
  have hparts : (m.importLeaves.mapM fun leaf ↦ m.importPart r' leaf.1 leaf.2).map
      (List.map ImportMap.Part.view) =
        (m.importLeaves.mapM fun leaf ↦ m.importPart r leaf.1 leaf.2).map
          (List.map ImportMap.Part.view) :=
    Except.map_mapM_congr fun leaf hleaf ↦ view_importPart (h leaf hleaf) (hbare leaf hleaf) hr hr'
  refine Except.map_bind_congr hparts fun parts parts' hviews ↦ congrArg Except.ok ?_
  have hentries : parts'.filterMap ImportMap.Part.entry = parts.filterMap ImportMap.Part.entry := by
    have hfirst (parts : List ImportMap.Part) : parts.filterMap ImportMap.Part.entry =
        (parts.map ImportMap.Part.view).filterMap fun v ↦ v.1 := by
      rw [List.filterMap_map]
      rfl
    rw [hfirst, hfirst, hviews]
  have hwarnings : parts'.filterMap ImportMap.Part.warning =
      parts.filterMap ImportMap.Part.warning := by
    have hlast (parts : List ImportMap.Part) : parts.filterMap ImportMap.Part.warning =
        (parts.map ImportMap.Part.view).filterMap fun v ↦ v.2.2 := by
      rw [List.filterMap_map]
      rfl
    rw [hlast, hlast, hviews]
  -- the exports agree part by part, and later parts hide earlier ones
  have hexports : lookup (parts'.flatMap ImportMap.Part.exports) =
      lookup (parts.flatMap ImportMap.Part.exports) := by
    clear hparts hentries hwarnings
    induction parts generalizing parts' with
    | nil =>
      obtain rfl := List.map_eq_nil_iff.1 hviews
      rfl
    | cons part parts ih =>
      obtain ⟨part', parts', rfl, hfirst, hrest⟩ := List.map_eq_cons_iff.1 hviews
      rw [List.flatMap_cons, List.flatMap_cons, lookup_append, lookup_append, ih _ hrest,
        (Prod.mk.inj (Prod.mk.inj hfirst).2).1]
  exact Prod.ext (ImportMap.resolve_congr hentries hexports) hwarnings

end Module

end ShaderLink
