import ShaderLink.Proofs.Resolution.Agreement
import ShaderLink.Proofs.Resolution.Target

/-!
# Forms of imports

An item can be imported by its path, with everything in its module, or by the way of its module:
after `import m/n` and after `import m/*` it is referred to by `n`, and after `import m` by the last
segment of `m` and `n`. One expects the same target each time.

A module may export several things by one name, a generator and any number of declarations
(`Registry.homonyms`). The first form finds the first of them and the others find the last, so they
agree if there is at most one. The last form has a case of its own: where `m` ends in `n` twice, the
reference is matched with all of it and not only with its last segment, which leads to `m` itself.
There is no other way to disagree (`Module.forms_agree_iff`).
-/

namespace ShaderLink

open OrderedMap (lookup lookup_append)

/-! ### Overlaps -/

section Overlap

variable {α : Type} [BEq α] [LawfulBEq α]

/-- No proper extension of a list to the left is the start of it. -/
theorem isPrefixOf_append_self (x : α) (a b : List α) : (x :: (a ++ b)).isPrefixOf b = false := by
  rw [Bool.eq_false_iff]
  intro h
  have hle := (List.isPrefixOf_iff_prefix.1 h).length_le
  simp only [List.length_cons, List.length_append] at hle
  omega

/-- A path overlaps with its own end, and nothing is left. -/
theorem overlapTail?_append_self (a : List α) {b : List α} (hb : b ≠ []) :
    overlapTail? (a ++ b) b = some [] := by
  induction a with
  | nil =>
    obtain ⟨y, b, rfl⟩ := List.exists_cons_of_ne_nil hb
    rw [List.nil_append, overlapTail?, if_pos (List.isPrefixOf_iff_prefix.2 (List.prefix_refl _))]
    simp
  | cons x a ih =>
    rw [List.cons_append, overlapTail?, if_neg (by simp [isPrefixOf_append_self]), ih]

/-- A path overlaps with its last segment and another one by the last segment, unless it ends in
both. -/
theorem overlapTail?_of_not_suffix {a : List α} {l n : α}
    (h : ¬[l, n] <:+ a ++ [l]) : overlapTail? (a ++ [l]) [l, n] = some [n] := by
  induction a with
  | nil => simp [overlapTail?, List.isPrefixOf]
  | cons x a ih =>
    have hno : (x :: (a ++ [l])).isPrefixOf [l, n] = false := by
      rw [Bool.eq_false_iff]
      intro hprefix
      have hpre := List.isPrefixOf_iff_prefix.1 hprefix
      have hle := hpre.length_le
      obtain rfl : a = [] := by simpa using hle
      have heq : [x, l] = [l, n] := hpre.eq_of_length rfl
      exact h (heq ▸ List.suffix_refl _)
    rw [List.cons_append, overlapTail?, if_neg (by simp [hno])]
    exact ih fun hsuffix ↦ h (hsuffix.trans (List.suffix_cons _ _))

end Overlap

/-! ### Everything of a name -/

namespace Registry

variable {r : Registry} {module : ModulePath} {name : String}

/-- All that a module exports by a name: the generator, and behind it the declarations in order. -/
def homonyms (r : Registry) (module : ModulePath) (name : String) : List Target :=
  (if (r.generator? module name).isSome then [.generator module name] else []) ++
    ((r.module? module).map fun m ↦
      (m.exports.filter fun d ↦ d.2.name == name).map fun d ↦ .decl module d.1).getD []

/-- Asked for by name, the first is found. -/
theorem item?_eq_head? (r : Registry) (module : ModulePath) (name : String) :
    r.item? module name = (r.homonyms module name).head? := by
  rw [item?, homonyms]
  split
  · rfl
  · cases hm : r.module? module with
    | none => rfl
    | some m =>
      show (m.findExport? name).bind (fun d ↦ some (Target.decl module d.1)) =
        ((m.exports.filter fun d ↦ d.2.name == name).map fun d ↦ .decl module d.1).head?
      rw [List.head?_map, List.head?_filter, Module.findExport?]
      cases m.exports.find? fun d ↦ d.2.name == name <;> rfl

theorem getD_members? (r : Registry) (module : ModulePath) : (r.members? module).getD [] =
    ((r.generatorsOf module).map fun g ↦
      (module ++ [g.name], Target.generator module g.name)) ++
      ((r.module? module).map fun m ↦
        m.exports.map fun d ↦ (module ++ [d.2.name], Target.decl module d.1)).getD [] := by
  rw [members?]
  cases r.module? module with
  | some m => rfl
  | none =>
    dsimp only
    split
    · rename_i hempty
      rw [List.isEmpty_iff.1 hempty]
      rfl
    · exact (List.append_nil _).symm

/-- Every path in a module is that of the module and a name. -/
theorem exists_of_mem_members {path : List String} {target : Target}
    (h : (path, target) ∈ (r.members? module).getD []) : ∃ name, path = module ++ [name] := by
  rw [getD_members?, List.mem_append] at h
  rcases h with h | h
  · obtain ⟨g, -, heq⟩ := List.mem_map.1 h
    exact ⟨g.name, (Prod.mk.inj heq).1.symm⟩
  · cases hm : r.module? module with
    | none =>
      rw [hm] at h
      exact absurd h List.not_mem_nil
    | some m =>
      rw [hm] at h
      obtain ⟨d, -, heq⟩ := List.mem_map.1 h
      exact ⟨d.2.name, (Prod.mk.inj heq).1.symm⟩

theorem lookup_members_self (r : Registry) (module : ModulePath) :
    lookup ((r.members? module).getD []) module = none := by
  refine OrderedMap.get?_ofList_eq_none fun hmem ↦ ?_
  obtain ⟨⟨path, target⟩, hentry, rfl⟩ := List.mem_map.1 hmem
  obtain ⟨name, hname⟩ := exists_of_mem_members hentry
  exact absurd (congrArg List.length hname) (by simp)

/-- The path of a generator leads to it. -/
theorem lookup_generatorsOf (hr : r.Coherent) (module : ModulePath) (name : String) :
    lookup ((r.generatorsOf module).map fun g ↦
      (module ++ [g.name], Target.generator module g.name)) (module ++ [name]) =
        if (r.generator? module name).isSome then some (.generator module name) else none := by
  refine Option.ext fun target ↦ ?_
  rw [OrderedMap.lookup_eq_some_iff fun _ _ _ ↦ eq_of_mem_generators, List.mem_map]
  constructor
  · rintro ⟨g, hg, heq⟩
    obtain ⟨hpath, rfl⟩ := Prod.mk.inj heq
    obtain rfl := List.singleton_inj.1 (List.append_cancel_left hpath)
    rw [if_pos (Option.isSome_of_eq_some (hr.mem_generatorsOf_iff.1 hg))]
  · intro h
    split at h
    · rename_i hsome
      obtain rfl := Option.some.inj h
      obtain ⟨g, hg⟩ := Option.isSome_iff_exists.1 hsome
      obtain ⟨-, rfl⟩ := hr.registered _ _ _ hg
      exact ⟨g, hr.mem_generatorsOf_iff.2 hg, rfl⟩
    · cases h

/-- Asked for everything in the module, the last is found. -/
theorem lookup_members (hr : r.Coherent) (module : ModulePath) (name : String) :
    lookup ((r.members? module).getD []) (module ++ [name]) =
      (r.homonyms module name).getLast? := by
  have hdecls : lookup (((r.module? module).map fun m ↦
      m.exports.map fun d ↦ (module ++ [d.2.name], Target.decl module d.1)).getD [])
        (module ++ [name]) =
      (((r.module? module).map fun m ↦
        (m.exports.filter fun d ↦ d.2.name == name).map fun d ↦
          Target.decl module d.1).getD []).getLast? := by
    cases r.module? module with
    | none => rfl
    | some m =>
      have hname (d : Nat × Decl) :
          decide (module ++ [d.2.name] = module ++ [name]) = (d.2.name == name) := by
        rw [Bool.eq_iff_iff]
        simp
      simp only [lookup, OrderedMap.get?_ofList, Option.map_some, Option.getD_some,
        List.filter_map, Function.comp_def, hname, List.getLast?_map, Option.map_map]
  rw [getD_members?, lookup_append]
  dsimp only
  rw [hdecls, lookup_generatorsOf hr, homonyms, List.getLast?_append]
  split <;> rfl

theorem nodup_homonyms (r : Registry) (module : ModulePath) (name : String) :
    (r.homonyms module name).Nodup := by
  refine List.nodup_append.2 ⟨by split <;> simp, ?_, ?_⟩
  · cases r.module? module with
    | none => exact .nil
    | some m =>
      have hsublist : (m.exports.filter fun d ↦ d.2.name == name).Sublist m.decls :=
        List.filter_sublist.trans List.filter_sublist
      have hplaces := (Module.nodup_decls m).sublist (hsublist.map Prod.fst)
      have hdecls := hplaces.map (f := Target.decl module) fun _ _ h ↦ (Target.decl.inj h).2
      rwa [List.map_map] at hdecls
  · intro a ha b hb heq
    cases hm : r.module? module with
    | none =>
      rw [hm] at hb
      exact absurd hb List.not_mem_nil
    | some m =>
      rw [hm] at hb
      obtain ⟨d, -, rfl⟩ := List.mem_map.1 hb
      subst heq
      split at ha <;> simp at ha

end Registry

/-! ### A single import -/

/-- The resolution is that target, or that there is none. -/
def Resolution.Means : Resolution → Option Target → Prop
  | .found t _ _, target => target = some t
  | .unresolved, target => target = none
  | .ambiguous _, _ => False

theorem Resolution.Means.unique {resolution : Resolution} {target target' : Option Target}
    (h : resolution.Means target) (h' : resolution.Means target') : target = target' := by
  cases resolution with
  | found t _ _ => exact Eq.trans h (Eq.symm h')
  | unresolved => exact Eq.trans h (Eq.symm h')
  | ambiguous paths => exact h.elim

/-- A single import leads a reference where look-up does. -/
theorem ImportMap.means_resolve {imports : ImportMap} {e : ImportEntry}
    {reference rest : List String} (hentries : imports.entries = [e])
    (hrest : e.rest? reference = some rest) :
    (imports.resolve reference).Means (imports.exports.get? (e.exportPath ++ rest)) := by
  cases hget : imports.exports.get? (e.exportPath ++ rest) with
  | none =>
    have hbest : imports.bestMatches reference = [] := by
      simp [bestMatches, matchesOf, hentries, match?, hrest, hget]
    rw [resolve, hbest]
    exact rfl
  | some target =>
    have hbest : imports.bestMatches reference =
        [⟨reference.length - rest.length, target, e.exportPath ++ rest, e.args⟩] := by
      simp [bestMatches_eq_filter, Shortlist.longest, matchesOf, hentries, match?, hrest, hget]
    rw [resolve, hbest]
    exact rfl

namespace Module

variable {m : Module} {r : Registry} {span : Span} {leaf : ImportLeaf} {path : List String}
  {part : ImportMap.Part} {imports : ImportMap} {warnings : List Warning}

/-- The import map of a module with a single leaf is the part of the leaf. -/
theorem exists_part_of_importMap (hleaves : m.importLeaves = [(span, leaf)])
    (h : m.importMap r = .ok (imports, warnings)) :
    ∃ part, m.importPart r span leaf = .ok part ∧
      imports = ⟨part.entry.toList, .ofList part.exports⟩ := by
  obtain ⟨parts, hparts, heq⟩ := Except.bind_eq_ok.1 h
  obtain ⟨rfl, -⟩ := Prod.mk.inj (Except.ok.inj heq)
  rw [hleaves, List.mapM_cons] at hparts
  obtain ⟨part, hpart, hparts⟩ := Except.bind_eq_ok.1 hparts
  obtain rfl := Except.ok.inj hparts
  refine ⟨part, hpart, ?_⟩
  cases hentry : part.entry <;> simp [hentry]

theorem importPart_of_no_marker
    (hleaf : ∀ segment ∈ leaf.path, ModulePath.isMarker segment = false) :
    m.importPart r span leaf =
      if leaf.wildcard then m.wildcardPart r span leaf leaf.path
      else m.itemPart r span leaf leaf.path := by
  have hmarkers : leaf.path.takeWhile ModulePath.isMarker = [] := by
    cases hpath : leaf.path with
    | nil => rfl
    | cons segment segments =>
      rw [List.takeWhile_cons_of_neg (by simp [hleaf segment (hpath ▸ List.mem_cons_self)])]
  rw [importPart, ModulePath.resolve?, hmarkers]
  rfl

/-- What an import of everything in a module adds. -/
theorem wildcardPart_eq (h : m.wildcardPart r span leaf path = .ok part) :
    part.entry = some ⟨leaf.localName.toList, path, none, span⟩ ∧
      part.exports = (r.members? path).getD [] := by
  obtain ⟨members, hmembers, hpart⟩ := Except.bind_eq_ok.1 h
  obtain ⟨-, -, hmembers⟩ := Except.bind_eq_ok.1 hmembers
  obtain rfl := Except.ok.inj hmembers
  obtain rfl := Except.ok.inj hpart
  exact ⟨rfl, rfl⟩

/-- A path that leads to something leads nowhere else. -/
theorem lookup_toList (item : Option Target) (path path' : List String) :
    lookup (item.map fun t ↦ (path, t)).toList path' = if path' = path then item else none := by
  cases item with
  | none => simp [lookup, OrderedMap.get?_ofList]
  | some t =>
    rw [Option.map_some, Option.toList_some, lookup, OrderedMap.get?_ofList]
    by_cases h : path' = path
    · simp [h]
    · simp [h, Ne.symm h]

/-- What an import of an item adds. Its path leads to the item, unless the item is a single name
that is looked for in other modules, and the path and a name lead to what has this name in the
module of the path. -/
theorem exists_itemPart (h : m.itemPart r span leaf path = .ok part) :
    ∃ exportPath, part.entry = some ⟨leaf.visiblePath, exportPath, leaf.args, span⟩ ∧
      (∀ name, lookup part.exports (exportPath ++ [name]) =
        lookup ((r.members? path).getD []) (path ++ [name])) ∧
      (leaf.path.length ≠ 1 → ∀ front name, path = front ++ [name] →
        exportPath = path ∧ lookup part.exports path = r.item? front name) := by
  obtain ⟨item, hitem, hbehind⟩ := Except.bind_eq_ok.1 h
  obtain ⟨members, hmembers, hpart⟩ := Except.bind_eq_ok.1 hbehind
  obtain ⟨-, -, hmembers⟩ := Except.bind_eq_ok.1 hmembers
  obtain rfl := Except.ok.inj hmembers
  clear h hbehind
  have hitem' (front : List String) (name : String) (hpath : path = front ++ [name]) :
      item = r.item? front name := by
    rw [Registry.itemAt?, hpath, List.getLast?_concat, List.dropLast_concat] at hitem
    obtain ⟨-, -, hitem⟩ := Except.bind_eq_ok.1 hitem
    exact (Except.ok.inj hitem).symm
  dsimp only at hpart
  split at hpart
  · obtain rfl := Except.ok.inj hpart
    refine ⟨path, rfl, fun name ↦ ?_, fun _ front name hpath ↦ ⟨rfl, ?_⟩⟩
    · rw [lookup_append]
      dsimp only
      rw [lookup_toList, if_neg (by simp), Option.or_none]
    · rw [lookup_append]
      dsimp only
      rw [Registry.lookup_members_self, lookup_toList, if_pos rfl, Option.none_or,
        hitem' front name hpath]
  · rename_i hnothing
    obtain ⟨rfl, hmembers⟩ : item = none ∧ r.members? path = none := by simpa using hnothing
    have hnone (name : String) :
        lookup ((r.members? path).getD []) (path ++ [name]) = none := by
      rw [hmembers]
      rfl
    have hmissing : ∀ name, lookup [] (path ++ [name]) =
        lookup ((r.members? path).getD []) (path ++ [name]) := fun name ↦ (hnone name).symm
    split at hpart
    · -- a single name is looked for in other modules
      rename_i name hname
      split at hpart
      · obtain ⟨item', -, hpart⟩ := Except.bind_eq_ok.1 hpart
        obtain rfl := Except.ok.inj hpart
        refine ⟨_, rfl, fun name' ↦ ?_, fun hlength ↦ absurd (by rw [hname]; rfl) hlength⟩
        rw [lookup_toList, if_neg (by simp), hnone]
      · obtain rfl := Except.ok.inj hpart
        exact ⟨path, rfl, hmissing, fun _ front name hpath ↦ ⟨rfl, hitem' front name hpath⟩⟩
    · obtain rfl := Except.ok.inj hpart
      exact ⟨path, rfl, hmissing, fun _ front name hpath ↦ ⟨rfl, hitem' front name hpath⟩⟩

/-! ### The forms -/

/-- The module has a single import, and this is its import map. -/
def ImportsOnly (m : Module) (r : Registry) (leaf : ImportLeaf) (imports : ImportMap) : Prop :=
  ∃ span warnings, m.importLeaves = [(span, leaf)] ∧ m.importMap r = .ok (imports, warnings)

/-- Without another name, what is visible is the path as it is written. -/
theorem visiblePath_of_no_marker (hname : leaf.localName = none)
    (hmarkers : ∀ segment ∈ leaf.path, ModulePath.isMarker segment = false) :
    leaf.visiblePath = leaf.path := by
  have hall : leaf.path.filter (fun segment ↦ !ModulePath.isMarker segment) = leaf.path :=
    List.filter_eq_self.2 fun segment hsegment ↦ by simp [hmarkers segment hsegment]
  rw [ImportLeaf.visiblePath, hname, hall]

/-- What overlaps with the visible path leads on from there. -/
theorem rest?_of_overlapTail? {e : ImportEntry} {reference rest : List String}
    (h : overlapTail? e.visible reference = some rest) : e.rest? reference = some rest := by
  have hne : e.visible.isEmpty = false := by
    cases hvisible : e.visible with
    | nil =>
      rw [hvisible] at h
      cases h
    | cons segment segments => rfl
  rw [ImportEntry.rest?, hne, if_neg Bool.false_ne_true, h]

/-- After an import of an item, a reference that goes on with a name behind the item means what has
the name in the module of the path. A reference to the item itself means the item. -/
theorem means_of_itemImport (h : m.ImportsOnly r ⟨path, none, none, false⟩ imports)
    (hmarkers : ∀ segment ∈ path, ModulePath.isMarker segment = false) {reference : List String} :
    (∀ name, overlapTail? path reference = some [name] →
      (imports.resolve reference).Means (lookup ((r.members? path).getD []) (path ++ [name]))) ∧
    ∀ front name, path = front ++ [name] → path.length ≠ 1 → overlapTail? path reference = some [] →
      (imports.resolve reference).Means (r.item? front name) := by
  obtain ⟨span, warnings, hleaves, hmap⟩ := h
  obtain ⟨part, hpart, rfl⟩ := exists_part_of_importMap hleaves hmap
  rw [importPart_of_no_marker hmarkers] at hpart
  obtain ⟨exportPath, hentry, hmember, hitem⟩ := exists_itemPart hpart
  have hvisible : (⟨path, none, none, false⟩ : ImportLeaf).visiblePath = path :=
    visiblePath_of_no_marker rfl hmarkers
  rw [hvisible] at hentry
  have hentries : part.entry.toList = [⟨path, exportPath, none, span⟩] := by
    rw [hentry]
    rfl
  have hmeans {rest : List String} (hoverlap : overlapTail? path reference = some rest) :
      (ImportMap.resolve ⟨part.entry.toList, .ofList part.exports⟩ reference).Means
        (lookup part.exports (exportPath ++ rest)) := by
    have hrest : (⟨path, exportPath, none, span⟩ : ImportEntry).rest? reference = some rest :=
      rest?_of_overlapTail? hoverlap
    exact ImportMap.means_resolve hentries hrest
  refine ⟨fun name hoverlap ↦ hmember name ▸ hmeans hoverlap,
    fun front name hpath hlength hoverlap ↦ ?_⟩
  obtain ⟨rfl, hlookup⟩ := hitem hlength front name hpath
  rw [← hlookup]
  simpa using hmeans hoverlap

/-- After an import of everything in a module, a name means what has the name there. -/
theorem means_of_wildcardImport (h : m.ImportsOnly r ⟨path, none, none, true⟩ imports)
    (hmarkers : ∀ segment ∈ path, ModulePath.isMarker segment = false) (name : String) :
    (imports.resolve [name]).Means (lookup ((r.members? path).getD []) (path ++ [name])) := by
  obtain ⟨span, warnings, hleaves, hmap⟩ := h
  obtain ⟨part, hpart, rfl⟩ := exists_part_of_importMap hleaves hmap
  rw [importPart_of_no_marker hmarkers] at hpart
  obtain ⟨hentry, hexports⟩ := wildcardPart_eq hpart
  rw [← hexports]
  refine ImportMap.means_resolve (e := ⟨[], path, none, span⟩) ?_ rfl
  rw [hentry]
  rfl

theorem head?_eq_getLast?_iff {α : Type} {as : List α} (h : as.Nodup) :
    as.head? = as.getLast? ↔ as.length ≤ 1 := by
  cases as with
  | nil => simp
  | cons a as =>
    rw [List.head?_cons, List.getLast?_cons, Option.some_inj, List.length_cons]
    cases hlast : as.getLast? with
    | none =>
      obtain rfl := List.getLast?_eq_none_iff.1 hlast
      simp
    | some b =>
      have hb := List.mem_of_getLast? hlast
      have hne : a ≠ b := fun heq ↦ (List.nodup_cons.1 h).1 (heq ▸ hb)
      have hpos := List.length_pos_of_mem hb
      simp only [Option.getD_some, hne, false_iff]
      omega

variable {a b c : Module} {importsA importsB importsC : ImportMap} {front : List String}
  {last name : String}

/-- A name imported by its path, with everything in its module, or by the way of its module means
the same target, or nothing, in all three cases exactly if the module exports at most one thing by
the name, and, should the path of the module end in the name twice, this is also what that path
itself means as the path of an item. -/
theorem forms_agree_iff (hr : r.Built)
    (ha : a.ImportsOnly r ⟨front ++ [last] ++ [name], none, none, false⟩ importsA)
    (hb : b.ImportsOnly r ⟨front ++ [last], none, none, true⟩ importsB)
    (hc : c.ImportsOnly r ⟨front ++ [last], none, none, false⟩ importsC)
    (hmarkers : ∀ segment ∈ front ++ [last] ++ [name], ModulePath.isMarker segment = false) :
    (∃ target, (importsA.resolve [name]).Means target ∧ (importsB.resolve [name]).Means target ∧
        (importsC.resolve [last, name]).Means target) ↔
      (r.homonyms (front ++ [last]) name).length ≤ 1 ∧
        ([last, name] <:+ front ++ [last] →
          r.item? front last = r.item? (front ++ [last]) name) := by
  have hfront : ∀ segment ∈ front ++ [last], ModulePath.isMarker segment = false :=
    fun segment hsegment ↦ hmarkers segment (List.mem_append_left _ hsegment)
  have hitem := (means_of_itemImport ha hmarkers).2 (front ++ [last]) name rfl (by simp)
    (overlapTail?_append_self _ (List.cons_ne_nil _ _))
  have hwildcard := means_of_wildcardImport hb hfront name
  rw [Registry.lookup_members hr.coherent] at hwildcard
  rw [← head?_eq_getLast?_iff (r.nodup_homonyms _ _), ← Registry.item?_eq_head?]
  by_cases hends : [last, name] <:+ front ++ [last]
  · -- the reference overlaps with both of its segments
    obtain ⟨front', hfront'⟩ := hends
    have hlong : (front ++ [last]).length ≠ 1 := by
      rw [← hfront']
      simp
    have hmodule := (means_of_itemImport hc hfront).2 front last rfl hlong
      (hfront' ▸ overlapTail?_append_self front' (List.cons_ne_nil last [name]))
    constructor
    · rintro ⟨target, hA, hB, hC⟩
      obtain rfl := hA.unique hitem
      exact ⟨hB.unique hwildcard, fun _ ↦ hmodule.unique hC⟩
    · rintro ⟨hsame, hboth⟩
      exact ⟨_, hitem, hsame ▸ hwildcard, hboth ⟨front', hfront'⟩ ▸ hmodule⟩
  · have hmodule := (means_of_itemImport hc hfront).1 name (overlapTail?_of_not_suffix hends)
    rw [Registry.lookup_members hr.coherent] at hmodule
    constructor
    · rintro ⟨target, hA, hB, hC⟩
      obtain rfl := hA.unique hitem
      exact ⟨hB.unique hwildcard, fun h ↦ absurd h hends⟩
    · rintro ⟨hsame, -⟩
      exact ⟨_, hitem, hsame ▸ hwildcard, hsame ▸ hmodule⟩

end Module

namespace Registry

/-- A module with a function and a generator of one name, and three modules that import it. -/
def doubled : Registry :=
  ofSources .default
    [("item", "import m/n;\n".toList), ("star", "import m/*;\n".toList),
      ("whole", "import m;\n".toList), ("m", "fn n() \x7b\x7d\n".toList)]
    [⟨["m"], "n", [], fun name _ ↦ ("fn " ++ name ++ "() \x7b\x7d").toList⟩]

/-- The generator is found by its path, and the function in the other cases. -/
theorem forms_agree_iff_doubled : ∃ a b c importsA importsB importsC,
    doubled.module? ["item"] = some a ∧ doubled.module? ["star"] = some b ∧
    doubled.module? ["whole"] = some c ∧
    a.ImportsOnly doubled ⟨["m", "n"], none, none, false⟩ importsA ∧
    b.ImportsOnly doubled ⟨["m"], none, none, true⟩ importsB ∧
    c.ImportsOnly doubled ⟨["m"], none, none, false⟩ importsC ∧
    ¬∃ target, (importsA.resolve ["n"]).Means target ∧ (importsB.resolve ["n"]).Means target ∧
      (importsC.resolve ["m", "n"]).Means target := by
  have heval : (do
      let a ← doubled.module? ["item"]
      let b ← doubled.module? ["star"]
      let c ← doubled.module? ["whole"]
      let _ ← (a.importMap doubled).toOption
      let _ ← (b.importMap doubled).toOption
      let _ ← (c.importMap doubled).toOption
      return (a.importLeaves, b.importLeaves, c.importLeaves)) =
      some ([(⟨0, 12⟩, ⟨["m", "n"], none, none, false⟩)], [(⟨0, 12⟩, ⟨["m"], none, none, true⟩)],
        [(⟨0, 10⟩, ⟨["m"], none, none, false⟩)]) := by
    decide +kernel
  have htwo : (doubled.homonyms ["m"] "n").length = 2 := by decide +kernel
  have hbuilt : doubled.Built := (built_ofSources _ _ _).1
  generalize doubled = r at heval htwo hbuilt ⊢
  obtain ⟨a, ha, heval⟩ := Option.bind_eq_some_iff.1 heval
  obtain ⟨b, hb, heval⟩ := Option.bind_eq_some_iff.1 heval
  obtain ⟨c, hc, heval⟩ := Option.bind_eq_some_iff.1 heval
  obtain ⟨⟨importsA, warningsA⟩, hmapA, heval⟩ := Option.bind_eq_some_iff.1 heval
  obtain ⟨⟨importsB, warningsB⟩, hmapB, heval⟩ := Option.bind_eq_some_iff.1 heval
  obtain ⟨⟨importsC, warningsC⟩, hmapC, heval⟩ := Option.bind_eq_some_iff.1 heval
  obtain ⟨hleavesA, heval⟩ := Prod.mk.inj (Option.some.inj heval)
  obtain ⟨hleavesB, hleavesC⟩ := Prod.mk.inj heval
  have honlyA : a.ImportsOnly r ⟨[] ++ ["m"] ++ ["n"], none, none, false⟩ importsA :=
    ⟨_, warningsA, hleavesA, Except.eq_ok_of_toOption hmapA⟩
  have honlyB : b.ImportsOnly r ⟨[] ++ ["m"], none, none, true⟩ importsB :=
    ⟨_, warningsB, hleavesB, Except.eq_ok_of_toOption hmapB⟩
  have honlyC : c.ImportsOnly r ⟨[] ++ ["m"], none, none, false⟩ importsC :=
    ⟨_, warningsC, hleavesC, Except.eq_ok_of_toOption hmapC⟩
  have hiff := Module.forms_agree_iff hbuilt honlyA honlyB honlyC (by decide)
  refine ⟨a, b, c, importsA, importsB, importsC, ha, hb, hc, honlyA, honlyB, honlyC, fun h ↦ ?_⟩
  have hone := (hiff.1 h).1
  exact absurd hone (by rw [List.nil_append, htwo]; decide)

end Registry

end ShaderLink
