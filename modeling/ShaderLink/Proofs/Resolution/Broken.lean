import ShaderLink.Proofs.Except
import ShaderLink.Resolution.ImportMap

/-!
# Imports of modules that could not be parsed

An import looks into up to three modules, in this order: the one that an item of its path would be
in, the one of the path itself, and the one that a bare name is found in where there is nothing at
its path (`Module.Needs`). Making the import map fails with the first module looked into that could
not be parsed, and there is no other failure. To leave the root or to lead nowhere is none. It gives
one warning (`Module.Complains`), and nothing else gives any (`Module.importMap_surfaces`).
-/

namespace ShaderLink

namespace Registry

variable {r : Registry} {module : ModulePath} {name : String} {path : List String}
  {broken : BrokenModule}

/-- The module could not be parsed, for this reason. -/
def Failed (r : Registry) (broken : BrokenModule) : Prop :=
  r.failure? broken.module = some broken.error

/-- There is something at a path: an item of the module in front of its last segment, or a module or
generators of the path itself. -/
def Provides (r : Registry) (path : List String) : Prop :=
  (∃ module name, path = module ++ [name] ∧ (r.item? module name).isSome) ∨
    (r.members? path).isSome

theorem Failed.ne_none (h : r.Failed broken) : r.failure? broken.module ≠ none :=
  fun hnone ↦ Option.some_ne_none _ (h.symm.trans hnone)

/-! ### Looking into one module -/

/-- Looking into a module fails just if it could not be parsed, and with its own error. -/
theorem checkParsed_eq_error_iff :
    r.checkParsed path = .error broken ↔ path = broken.module ∧ r.Failed broken := by
  rw [checkParsed, Failed]
  split
  · rename_i error herror
    constructor
    · intro h
      obtain rfl := Except.error.inj h
      exact ⟨rfl, herror⟩
    · rintro ⟨rfl, hfailed⟩
      rw [Option.some.inj (herror.symm.trans hfailed)]
  · rename_i hnone
    refine iff_of_false (fun h ↦ nomatch h) ?_
    rintro ⟨rfl, hfailed⟩
    exact Failed.ne_none hfailed hnone

theorem checkParsed_eq_ok_iff {u : Unit} : r.checkParsed path = .ok u ↔ r.failure? path = none := by
  rw [checkParsed]
  split
  · rename_i error herror
    exact iff_of_false (fun h ↦ nomatch h) fun hnone ↦ nomatch hnone.symm.trans herror
  · rename_i hnone
    exact iff_of_true rfl hnone

theorem itemAt?_concat (r : Registry) (module : ModulePath) (name : String) :
    r.itemAt? (module ++ [name]) = (do
      r.checkParsed module
      return r.item? module name) := by
  simp [itemAt?]

/-- An item is looked for in the module in front of its name. -/
theorem itemAt?_concat_eq_error_iff : r.itemAt? (module ++ [name]) = .error broken ↔
    module = broken.module ∧ r.Failed broken := by
  rw [itemAt?_concat, Except.bind_eq_error, checkParsed_eq_error_iff]
  exact or_iff_left fun ⟨_, _, hok⟩ ↦ nomatch hok

theorem itemAt?_concat_eq_ok_iff {item : Option Target} :
    r.itemAt? (module ++ [name]) = .ok item ↔
      r.failure? module = none ∧ r.item? module name = item := by
  rw [itemAt?_concat, Except.bind_eq_ok]
  simp only [checkParsed_eq_ok_iff]
  exact ⟨fun ⟨_, hnone, hok⟩ ↦ ⟨hnone, Except.ok.inj hok⟩,
    fun ⟨hnone, hitem⟩ ↦ ⟨(), hnone, congrArg Except.ok hitem⟩⟩

/-- The members of a module are looked for in itself. -/
theorem membersAt?_eq_error_iff :
    r.membersAt? path = .error broken ↔ path = broken.module ∧ r.Failed broken := by
  rw [membersAt?, Except.bind_eq_error, checkParsed_eq_error_iff]
  exact or_iff_left fun ⟨_, _, hok⟩ ↦ nomatch hok

theorem membersAt?_eq_ok_iff {members : Option (List (List String × Target))} :
    r.membersAt? path = .ok members ↔ r.failure? path = none ∧ r.members? path = members := by
  rw [membersAt?, Except.bind_eq_ok]
  simp only [checkParsed_eq_ok_iff]
  exact ⟨fun ⟨_, hnone, hok⟩ ↦ ⟨hnone, Except.ok.inj hok⟩,
    fun ⟨hnone, hmembers⟩ ↦ ⟨(), hnone, congrArg Except.ok hmembers⟩⟩

/-- A path is looked at as an item by looking into the module in front of its last segment. -/
theorem itemAt?_eq_error_iff : r.itemAt? path = .error broken ↔
    ∃ name, path = broken.module ++ [name] ∧ r.Failed broken := by
  rcases List.eq_nil_or_concat' path with rfl | ⟨module, name, rfl⟩
  · refine iff_of_false (fun h ↦ nomatch h) ?_
    rintro ⟨name, hnil, -⟩
    simp at hnil
  · rw [itemAt?_concat_eq_error_iff]
    constructor
    · rintro ⟨rfl, hfailed⟩
      exact ⟨name, rfl, hfailed⟩
    · rintro ⟨name', heq, hfailed⟩
      exact ⟨(List.append_inj' heq rfl).1, hfailed⟩

theorem failure?_of_itemAt?_eq_ok {item : Option Target}
    (h : r.itemAt? (module ++ [name]) = .ok item) : r.failure? module = none :=
  (itemAt?_concat_eq_ok_iff.1 h).1

/-- What is found when a path is looked at as an item and as a module. -/
theorem isSome_or_isSome_iff {item : Option Target} {members : Option (List (List String × Target))}
    (hitem : r.itemAt? path = .ok item) (hmembers : r.membersAt? path = .ok members) :
    (item.isSome || members.isSome) = true ↔ r.Provides path := by
  obtain ⟨-, rfl⟩ := membersAt?_eq_ok_iff.1 hmembers
  rw [Bool.or_eq_true, Provides]
  refine or_congr_left ?_
  rcases List.eq_nil_or_concat' path with rfl | ⟨module, name, rfl⟩
  · obtain rfl := Except.ok.inj hitem
    refine iff_of_false Bool.false_ne_true ?_
    rintro ⟨module, name, hnil, -⟩
    simp at hnil
  · obtain ⟨-, rfl⟩ := itemAt?_concat_eq_ok_iff.1 hitem
    constructor
    · exact fun h ↦ ⟨module, name, rfl, h⟩
    · rintro ⟨module', name', heq, h⟩
      obtain ⟨rfl, hname⟩ := List.append_inj' heq rfl
      rwa [List.singleton_inj.1 hname]

end Registry

namespace Module

variable (m : Module) (r : Registry)

/-- The modules that an import looks into, numbered in the order in which it does. -/
inductive Needs (leaf : ImportLeaf) : Nat → ModulePath → Prop
  /-- The module that an item of the path is in. -/
  | parent {module : ModulePath} {name : String} (hitem : leaf.wildcard = false)
    (hpath : ModulePath.resolve? m.path leaf.path = some (module ++ [name])) : Needs leaf 0 module
  /-- The module of the path. -/
  | target {path : ModulePath} (hpath : ModulePath.resolve? m.path leaf.path = some path) :
    Needs leaf 1 path
  /-- The module that a bare name is found in if there is nothing at its path. -/
  | bare {path : List String} {name : String} {module : ModulePath}
    (hitem : leaf.wildcard = false) (hpath : ModulePath.resolve? m.path leaf.path = some path)
    (hname : leaf.path = [name]) (hmissing : ¬r.Provides path)
    (hmodule : m.exporterOf? r name = some module) : Needs leaf 2 module

/-- What is to be said about an import that leads nowhere. -/
inductive Complains (leaf : ImportLeaf) : String → Prop
  | escapes (hpath : ModulePath.resolve? m.path leaf.path = none) :
    Complains leaf ("import `" ++ "/".intercalate leaf.path ++ "` leaves the root")
  | noModule {path : ModulePath} (hwildcard : leaf.wildcard = true)
    (hpath : ModulePath.resolve? m.path leaf.path = some path) (hmissing : r.members? path = none) :
    Complains leaf ("module `" ++ ModulePath.render path ++ "` not found")
  | noItem {path : List String} (hitem : leaf.wildcard = false)
    (hpath : ModulePath.resolve? m.path leaf.path = some path) (hmissing : ¬r.Provides path)
    (hbare : ∀ name, leaf.path = [name] → m.exporterOf? r name = none) :
    Complains leaf (missingMessage r path)

/-- All modules that an import needs could be parsed, as far as there are any. -/
def Clear (leaf : ImportLeaf) : Prop :=
  ∀ rank path, m.Needs r leaf rank path → r.failure? path = none

/-- An import needs a module that could not be parsed, and none before it. -/
def Breaks (leaf : ImportLeaf) (broken : BrokenModule) : Prop :=
  ∃ rank, m.Needs r leaf rank broken.module ∧ r.Failed broken ∧
    ∀ rank' < rank, ∀ path, m.Needs r leaf rank' path → r.failure? path = none

variable {m r} {span : Span} {leaf : ImportLeaf} {path path' : List String}
  {part : ImportMap.Part} {broken broken' : BrokenModule} {rank : Nat} {message : String}

/-- At each rank a leaf needs one module at most. -/
theorem Needs.unique (h : m.Needs r leaf rank path) (h' : m.Needs r leaf rank path') :
    path = path' := by
  cases h with
  | parent _ hpath =>
    cases h' with
    | parent _ hpath' => exact (List.append_inj' (Option.some.inj (hpath.symm.trans hpath')) rfl).1
  | target hpath =>
    cases h' with
    | target hpath' => exact Option.some.inj (hpath.symm.trans hpath')
  | bare _ _ hname _ hmodule =>
    cases h' with
    | bare _ _ hname' _ hmodule' =>
      obtain rfl := List.singleton_inj.1 (hname.symm.trans hname')
      exact Option.some.inj (hmodule.symm.trans hmodule')

/-- What breaks a leaf is the first of the modules that it needs, and so only one. -/
theorem Breaks.unique (h : m.Breaks r leaf broken) (h' : m.Breaks r leaf broken') :
    broken = broken' := by
  obtain ⟨rank, hneeds, hfailed, hfirst⟩ := h
  obtain ⟨rank', hneeds', hfailed', hfirst'⟩ := h'
  rcases Nat.lt_trichotomy rank rank' with hlt | rfl | hlt
  · exact absurd (hfirst' rank hlt _ hneeds) hfailed.ne_none
  · obtain ⟨module, error⟩ := broken
    obtain ⟨module', error'⟩ := broken'
    obtain rfl : module = module' := hneeds.unique hneeds'
    obtain rfl : error = error' := Option.some.inj (hfailed.symm.trans hfailed')
    rfl
  · exact absurd (hfirst rank' hlt _ hneeds') hfailed'.ne_none

/-! ### Complaints -/

/-- All that is said about an import that leaves the root is that it does. -/
theorem complains_iff_of_escape (hpath : ModulePath.resolve? m.path leaf.path = none) :
    m.Complains r leaf message ↔
      message = "import `" ++ "/".intercalate leaf.path ++ "` leaves the root" := by
  constructor
  · intro h
    cases h with
    | escapes => rfl
    | noModule _ hpath' => exact absurd (hpath'.symm.trans hpath) (Option.some_ne_none _)
    | noItem _ hpath' => exact absurd (hpath'.symm.trans hpath) (Option.some_ne_none _)
  · rintro rfl
    exact .escapes hpath

/-- There is something to complain of if no module has the path. -/
theorem complains_iff_of_wildcard (hwildcard : leaf.wildcard = true)
    (hpath : ModulePath.resolve? m.path leaf.path = some path) :
    m.Complains r leaf message ↔ r.members? path = none ∧
      message = "module `" ++ ModulePath.render path ++ "` not found" := by
  constructor
  · intro h
    cases h with
    | escapes hpath' => exact absurd (hpath.symm.trans hpath') (Option.some_ne_none _)
    | noModule _ hpath' hmissing =>
      obtain rfl := Option.some.inj (hpath.symm.trans hpath')
      exact ⟨hmissing, rfl⟩
    | noItem hitem => exact absurd (hitem.symm.trans hwildcard) Bool.false_ne_true
  · rintro ⟨hmissing, rfl⟩
    exact .noModule hwildcard hpath hmissing

/-- There is if nothing is found in any way in which an item is looked for. -/
theorem complains_iff_of_item (hitem : leaf.wildcard = false)
    (hpath : ModulePath.resolve? m.path leaf.path = some path) :
    m.Complains r leaf message ↔ ¬r.Provides path ∧
      (∀ name, leaf.path = [name] → m.exporterOf? r name = none) ∧
      message = missingMessage r path := by
  constructor
  · intro h
    cases h with
    | escapes hpath' => exact absurd (hpath.symm.trans hpath') (Option.some_ne_none _)
    | noModule hwildcard => exact absurd (hitem.symm.trans hwildcard) Bool.false_ne_true
    | noItem _ hpath' hmissing hbare =>
      obtain rfl := Option.some.inj (hpath.symm.trans hpath')
      exact ⟨hmissing, hbare, rfl⟩
  · rintro ⟨hmissing, hbare, rfl⟩
    exact .noItem hitem hpath hmissing hbare

/-! ### Import of an item -/

theorem exists_exporter (h : ¬∀ name, leaf.path = [name] → m.exporterOf? r name = none) :
    ∃ name module, leaf.path = [name] ∧ m.exporterOf? r name = some module := by
  push Not at h
  obtain ⟨name, hname, hsome⟩ := h
  obtain ⟨module, hmodule⟩ := Option.ne_none_iff_exists'.1 hsome
  exact ⟨name, module, hname, hmodule⟩

section Item

variable {item : Option Target} {members : Option (List (List String × Target))}
  (hitem : r.itemAt? path = .ok item) (hmembers : r.membersAt? path = .ok members)
include hitem hmembers

/-- What is there is imported without a warning. -/
theorem itemPart_of_provides (hprovides : r.Provides path) :
    m.itemPart r span leaf path = .ok ⟨some ⟨leaf.visiblePath, path, leaf.args, span⟩,
      (item.map fun t ↦ (path, t)).toList ++ members.getD [], none⟩ := by
  rw [itemPart, hitem, hmembers]
  exact if_pos ((Registry.isSome_or_isSome_iff hitem hmembers).2 hprovides)

/-- A bare name is imported from the module that it is found in. -/
theorem itemPart_of_bare (hmissing : ¬r.Provides path) {name : String} {module : ModulePath}
    (hname : leaf.path = [name]) (hmodule : m.exporterOf? r name = some module) :
    m.itemPart r span leaf path = (do
      let item ← r.itemAt? (module ++ [name])
      return ⟨some ⟨leaf.visiblePath, module ++ [name], leaf.args, span⟩,
        (item.map fun t ↦ (module ++ [name], t)).toList, none⟩) := by
  rw [itemPart, hitem, hmembers]
  refine (if_neg fun h ↦ hmissing ((Registry.isSome_or_isSome_iff hitem hmembers).1 h)).trans ?_
  rw [hname]
  dsimp only
  rw [hmodule]

/-- What is found nowhere gives a warning. -/
theorem itemPart_of_missing (hmissing : ¬r.Provides path)
    (hbare : ∀ name, leaf.path = [name] → m.exporterOf? r name = none) :
    m.itemPart r span leaf path = .ok ⟨some ⟨leaf.visiblePath, path, leaf.args, span⟩, [],
      some (m.warning span.start (missingMessage r path))⟩ := by
  rw [itemPart, hitem, hmembers]
  refine (if_neg fun h ↦ hmissing ((Registry.isSome_or_isSome_iff hitem hmembers).1 h)).trans ?_
  split
  · rename_i name hname
    rw [hbare name hname]
    rfl
  · rfl

/-- Where neither look at the path fails, only the module of a bare name can be broken. -/
theorem bare_of_itemPart (h : m.itemPart r span leaf path = .error broken) :
    ∃ name, leaf.path = [name] ∧ ¬r.Provides path ∧
      m.exporterOf? r name = some broken.module ∧ r.Failed broken := by
  by_cases hprovides : r.Provides path
  · exact nomatch (itemPart_of_provides hitem hmembers hprovides).symm.trans h
  by_cases hbare : ∀ name, leaf.path = [name] → m.exporterOf? r name = none
  · exact nomatch (itemPart_of_missing hitem hmembers hprovides hbare).symm.trans h
  obtain ⟨name, module, hname, hmodule⟩ := exists_exporter hbare
  rw [itemPart_of_bare hitem hmembers hprovides hname hmodule] at h
  rcases Except.bind_eq_error.1 h with h | ⟨_, _, hok⟩
  · obtain ⟨rfl, hfailed⟩ := Registry.itemAt?_concat_eq_error_iff.1 h
    exact ⟨name, hname, hprovides, hmodule, hfailed⟩
  · cases hok

end Item

section Outcome

variable {item : Option Target} {members : Option (List (List String × Target))}
  (hitem : leaf.wildcard = false) (hpath : ModulePath.resolve? m.path leaf.path = some path)

include hpath in
theorem failure?_of_needs_parent (hlook : r.itemAt? path = .ok item)
    (h : m.Needs r leaf 0 path') : r.failure? path' = none := by
  cases h with
  | parent _ hpath' =>
    obtain rfl := Option.some.inj (hpath.symm.trans hpath')
    exact Registry.failure?_of_itemAt?_eq_ok hlook

include hpath in
theorem failure?_of_needs_target (hmembers : r.membersAt? path = .ok members)
    (h : m.Needs r leaf 1 path') : r.failure? path' = none := by
  cases h with
  | target hpath' =>
    obtain rfl := Option.some.inj (hpath.symm.trans hpath')
    exact (Registry.membersAt?_eq_ok_iff.1 hmembers).1

include hitem hpath in
/-- If an import of an item fails, one of the modules that it needs is broken. -/
theorem breaks_of_itemPart (h : m.itemPart r span leaf path = .error broken) :
    m.Breaks r leaf broken := by
  cases hlook : r.itemAt? path with
  | error broken' =>
    have herror : m.itemPart r span leaf path = .error broken' :=
      Except.bind_eq_error.2 (.inl hlook)
    obtain rfl := Except.error.inj (herror.symm.trans h)
    obtain ⟨name, rfl, hfailed⟩ := Registry.itemAt?_eq_error_iff.1 hlook
    exact ⟨0, .parent hitem hpath, hfailed, fun _ hrank ↦ absurd hrank (Nat.not_lt_zero _)⟩
  | ok item =>
    cases hmembers : r.membersAt? path with
    | error broken' =>
      have herror : m.itemPart r span leaf path = .error broken' :=
        Except.bind_eq_error.2 (.inr ⟨item, hlook, Except.bind_eq_error.2 (.inl hmembers)⟩)
      obtain rfl := Except.error.inj (herror.symm.trans h)
      obtain ⟨rfl, hfailed⟩ := Registry.membersAt?_eq_error_iff.1 hmembers
      refine ⟨1, .target hpath, hfailed, fun rank hrank path' hneeds ↦ ?_⟩
      obtain rfl := Nat.lt_one_iff.1 hrank
      exact failure?_of_needs_parent hpath hlook hneeds
    | ok members =>
      obtain ⟨name, hname, hmissing, hmodule, hfailed⟩ := bare_of_itemPart hlook hmembers h
      refine ⟨2, .bare hitem hpath hname hmissing hmodule, hfailed,
        fun rank hrank path' hneeds ↦ ?_⟩
      obtain rfl | rfl : rank = 0 ∨ rank = 1 := by omega
      · exact failure?_of_needs_parent hpath hlook hneeds
      · exact failure?_of_needs_target hpath hmembers hneeds

include hpath in
/-- If it does not fail, none is. -/
theorem clear_of_itemPart (h : m.itemPart r span leaf path = .ok part) : m.Clear r leaf := by
  obtain ⟨item, hlook, hrest⟩ := Except.bind_eq_ok.1 h
  obtain ⟨members, hmembers, -⟩ := Except.bind_eq_ok.1 hrest
  intro rank path' hneeds
  cases hneeds with
  | parent hitem hpath' => exact failure?_of_needs_parent hpath hlook (.parent hitem hpath')
  | target hpath' => exact failure?_of_needs_target hpath hmembers (.target hpath')
  | bare _ hpath' hname hmissing hmodule =>
    obtain rfl := Option.some.inj (hpath.symm.trans hpath')
    rw [itemPart_of_bare hlook hmembers hmissing hname hmodule] at h
    obtain ⟨item', hlook', -⟩ := Except.bind_eq_ok.1 h
    exact Registry.failure?_of_itemAt?_eq_ok hlook'

include hitem hpath in
/-- Its warning is what there is to complain of. -/
theorem warning_of_itemPart (h : m.itemPart r span leaf path = .ok part) (w : Warning) :
    part.warning = some w ↔
      ∃ message, m.Complains r leaf message ∧ w = m.warning span.start message := by
  obtain ⟨item, hlook, hrest⟩ := Except.bind_eq_ok.1 h
  obtain ⟨members, hmembers, -⟩ := Except.bind_eq_ok.1 hrest
  simp only [complains_iff_of_item hitem hpath]
  by_cases hprovides : r.Provides path
  · obtain rfl := Except.ok.inj ((itemPart_of_provides hlook hmembers hprovides).symm.trans h)
    refine iff_of_false (fun h ↦ by cases h) ?_
    rintro ⟨_, ⟨hmissing, -⟩, -⟩
    exact hmissing hprovides
  by_cases hbare : ∀ name, leaf.path = [name] → m.exporterOf? r name = none
  · obtain rfl := Except.ok.inj ((itemPart_of_missing hlook hmembers hprovides hbare).symm.trans h)
    rw [Option.some_inj, eq_comm]
    constructor
    · exact fun h ↦ ⟨_, ⟨hprovides, hbare, rfl⟩, h⟩
    · rintro ⟨_, ⟨-, -, rfl⟩, h⟩
      exact h
  · have hnone : part.warning = none := by
      obtain ⟨name, module, hname, hmodule⟩ := exists_exporter hbare
      rw [itemPart_of_bare hlook hmembers hprovides hname hmodule] at h
      obtain ⟨item', -, hok⟩ := Except.bind_eq_ok.1 h
      rw [← Except.ok.inj hok]
    rw [hnone]
    refine iff_of_false (fun h ↦ by cases h) ?_
    rintro ⟨_, ⟨-, hnone, -⟩, -⟩
    exact hbare hnone

end Outcome

/-! ### Import of everything in a module -/

section Wildcard

variable (hwildcard : leaf.wildcard = true)
include hwildcard

/-- Only the module of the path is needed. -/
theorem Needs.rank_of_wildcard (h : m.Needs r leaf rank path') : rank = 1 := by
  cases h with
  | parent hitem => exact absurd (hitem.symm.trans hwildcard) Bool.false_ne_true
  | target => rfl
  | bare hitem => exact absurd (hitem.symm.trans hwildcard) Bool.false_ne_true

variable (hpath : ModulePath.resolve? m.path leaf.path = some path)
include hpath

/-- The same for an import of everything in a module. -/
theorem breaks_of_wildcardPart (h : m.wildcardPart r span leaf path = .error broken) :
    m.Breaks r leaf broken := by
  rcases Except.bind_eq_error.1 h with h | ⟨_, _, hok⟩
  · obtain ⟨rfl, hfailed⟩ := Registry.membersAt?_eq_error_iff.1 h
    refine ⟨1, .target hpath, hfailed, fun rank hrank path' hneeds ↦ ?_⟩
    exact absurd (hneeds.rank_of_wildcard hwildcard) (Nat.ne_of_lt hrank)
  · exact nomatch hok

theorem clear_of_wildcardPart (h : m.wildcardPart r span leaf path = .ok part) :
    m.Clear r leaf := by
  obtain ⟨members, hmembers, -⟩ := Except.bind_eq_ok.1 h
  intro rank path' hneeds
  obtain rfl := hneeds.rank_of_wildcard hwildcard
  exact failure?_of_needs_target hpath hmembers hneeds

theorem warning_of_wildcardPart (h : m.wildcardPart r span leaf path = .ok part) (w : Warning) :
    part.warning = some w ↔
      ∃ message, m.Complains r leaf message ∧ w = m.warning span.start message := by
  obtain ⟨members, hmembers, hpart⟩ := Except.bind_eq_ok.1 h
  obtain rfl := Except.ok.inj hpart
  obtain ⟨-, rfl⟩ := Registry.membersAt?_eq_ok_iff.1 hmembers
  simp only [complains_iff_of_wildcard hwildcard hpath]
  cases hmembers : r.members? path with
  | some members => simp
  | none => simp [eq_comm]

end Wildcard

/-! ### All imports -/

/-- An import that leaves the root needs nothing. -/
theorem clear_of_escape (hpath : ModulePath.resolve? m.path leaf.path = none) : m.Clear r leaf := by
  intro rank path hneeds
  cases hneeds with
  | parent _ hpath' => exact nomatch hpath.symm.trans hpath'
  | target hpath' => exact nomatch hpath.symm.trans hpath'
  | bare _ hpath' => exact nomatch hpath.symm.trans hpath'

/-- Whichever of the two an import is, its failure shows a broken module. -/
theorem breaks_of_importPart (h : m.importPart r span leaf = .error broken) :
    m.Breaks r leaf broken := by
  rw [importPart] at h
  split at h
  · cases h
  · rename_i path hpath
    split at h
    · rename_i hwildcard
      exact breaks_of_wildcardPart hwildcard hpath h
    · rename_i hitem
      exact breaks_of_itemPart (Bool.not_eq_true _ ▸ hitem) hpath h

theorem clear_of_importPart (h : m.importPart r span leaf = .ok part) : m.Clear r leaf := by
  rw [importPart] at h
  split at h
  · rename_i hpath
    exact clear_of_escape hpath
  · rename_i path hpath
    split at h
    · rename_i hwildcard
      exact clear_of_wildcardPart hwildcard hpath h
    · exact clear_of_itemPart hpath h

/-- An import fails with the first module that it needs and that could not be parsed. -/
theorem importPart_eq_error_iff : m.importPart r span leaf = .error broken ↔
    m.Breaks r leaf broken := by
  refine ⟨breaks_of_importPart, fun h ↦ ?_⟩
  cases hpart : m.importPart r span leaf with
  | error broken' => rw [(breaks_of_importPart hpart).unique h]
  | ok part =>
    obtain ⟨rank, hneeds, hfailed, -⟩ := h
    exact absurd (clear_of_importPart hpart rank _ hneeds) hfailed.ne_none

/-- So an import goes through just if no module that it needs is broken. -/
theorem exists_importPart_iff : (∃ part, m.importPart r span leaf = .ok part) ↔
    m.Clear r leaf := by
  refine ⟨fun ⟨part, hpart⟩ ↦ clear_of_importPart hpart, fun h ↦ ?_⟩
  cases hpart : m.importPart r span leaf with
  | ok part => exact ⟨part, rfl⟩
  | error broken =>
    obtain ⟨rank, hneeds, hfailed, -⟩ := breaks_of_importPart hpart
    exact absurd (h rank _ hneeds) hfailed.ne_none

theorem warning_of_importPart (h : m.importPart r span leaf = .ok part) (w : Warning) :
    part.warning = some w ↔
      ∃ message, m.Complains r leaf message ∧ w = m.warning span.start message := by
  rw [importPart] at h
  split at h
  · rename_i hpath
    obtain rfl := Except.ok.inj h
    simp only [complains_iff_of_escape hpath, exists_eq_left]
    rw [Option.some_inj, eq_comm]
  · rename_i path hpath
    split at h
    · rename_i hwildcard
      exact warning_of_wildcardPart hwildcard hpath h w
    · rename_i hitem
      exact warning_of_itemPart (Bool.not_eq_true _ ▸ hitem) hpath h w

/-- Making the import map fails where the first import does that needs something broken. -/
theorem importMap_eq_error_iff : m.importMap r = .error broken ↔
    ∃ front leaf back, m.importLeaves = front ++ leaf :: back ∧
      (∀ leaf' ∈ front, m.Clear r leaf'.2) ∧ m.Breaks r leaf.2 broken := by
  rw [importMap, Except.bind_eq_error, or_iff_left fun ⟨_, _, hok⟩ ↦ nomatch hok]
  rw [Except.mapM_eq_error_iff]
  simp only [exists_importPart_iff, importPart_eq_error_iff]

/-- All imports go through if the import map is made. -/
theorem clear_of_importMap {result : ImportMap × List Warning} (h : m.importMap r = .ok result)
    {site : Span × ImportLeaf} (hsite : site ∈ m.importLeaves) : m.Clear r site.2 := by
  obtain ⟨parts, hparts, -⟩ := Except.bind_eq_ok.1 h
  obtain ⟨part, -, hpart⟩ := exists_of_mem_forall₂ (Except.forall₂_of_mapM hparts).flip hsite
  exact clear_of_importPart hpart

/-- The warnings are those about the imports, in their order. -/
theorem warnings_of_importMap {imports : ImportMap} {warnings : List Warning}
    (h : m.importMap r = .ok (imports, warnings)) :
    ∃ notes : List (Option Warning), warnings = notes.filterMap id ∧
      List.Forall₂ (fun leaf note ↦ ∀ w, note = some w ↔
        ∃ message, m.Complains r leaf.2 message ∧ w = m.warning leaf.1.start message)
        m.importLeaves notes := by
  obtain ⟨parts, hparts, heq⟩ := Except.bind_eq_ok.1 h
  obtain ⟨-, rfl⟩ := Prod.mk.inj (Except.ok.inj heq)
  refine ⟨parts.map ImportMap.Part.warning, ?_, ?_⟩
  · rw [List.filterMap_map]
    rfl
  · rw [List.forall₂_map_right_iff]
    exact (Except.forall₂_of_mapM hparts).imp fun leaf part hpart ↦ warning_of_importPart hpart

/-- The import map of a module cannot be made if and only if an import needs a module that could not
be parsed, and the failure is the first one in the order of imports and of what each of them needs.
If it is made, then each import has given the warning about it, if there is one, and nothing else
has. -/
theorem importMap_surfaces (m : Module) (r : Registry) :
    ((∃ broken, m.importMap r = .error broken) ↔
      ∃ leaf ∈ m.importLeaves, ∃ rank path,
        m.Needs r leaf.2 rank path ∧ (r.failure? path).isSome) ∧
    (∀ broken, m.importMap r = .error broken ↔
      ∃ front leaf back, m.importLeaves = front ++ leaf :: back ∧
        (∀ leaf' ∈ front, m.Clear r leaf'.2) ∧ m.Breaks r leaf.2 broken) ∧
    ∀ imports warnings, m.importMap r = .ok (imports, warnings) →
      ∃ notes : List (Option Warning), warnings = notes.filterMap id ∧
        List.Forall₂ (fun leaf note ↦ ∀ w, note = some w ↔
          ∃ message, m.Complains r leaf.2 message ∧ w = m.warning leaf.1.start message)
          m.importLeaves notes := by
  refine ⟨⟨?_, ?_⟩, fun broken ↦ importMap_eq_error_iff,
    fun imports warnings h ↦ warnings_of_importMap h⟩
  · rintro ⟨broken, h⟩
    obtain ⟨front, leaf, back, hleaves, -, rank, hneeds, hfailed, -⟩ := importMap_eq_error_iff.1 h
    exact ⟨leaf, hleaves ▸ by simp, rank, _, hneeds, Option.isSome_of_eq_some hfailed⟩
  · rintro ⟨leaf, hleaf, rank, path, hneeds, hfailed⟩
    -- a map that is made has met no module that failed
    cases h : m.importMap r with
    | error broken => exact ⟨broken, rfl⟩
    | ok result =>
      rw [clear_of_importMap h hleaf rank path hneeds] at hfailed
      cases hfailed

end Module

namespace Registry

/-- A module that imports a function by its path and a generator by its name only, and one that
imports what is not there. The generator is one of a module that could not be parsed. -/
def breaking : Registry :=
  ofSources .default
    [("main", "import lib/f;\nimport g;\n".toList), ("lost", "import lib/h;\n".toList),
      ("lib", "fn f() \x7b\x7d\n".toList), ("bad", "fn (".toList)]
    [⟨["bad"], "g", [], fun name _ ↦ ("fn " ++ name ++ "() \x7b\x7d").toList⟩]

/-- The bare name is found in the broken module. What is not there is warned about. -/
theorem importMap_surfaces_breaking :
    (∃ main broken, breaking.module? ["main"] = some main ∧
      main.importMap breaking = .error broken ∧ broken.module = ["bad"] ∧
      ∃ leaf ∈ main.importLeaves, main.Breaks breaking leaf.2 broken) ∧
    ∃ lost imports warning, breaking.module? ["lost"] = some lost ∧
      lost.importMap breaking = .ok (imports, [warning]) ∧
      ∃ leaf ∈ lost.importLeaves, ∃ message, lost.Complains breaking leaf.2 message ∧
        warning = lost.warning leaf.1.start message := by
  have hmain : (do
      let main ← breaking.module? ["main"]
      match main.importMap breaking with
      | .error broken => some broken.module
      | .ok _ => none) = some ["bad"] := by
    decide +kernel
  have hlost : (do
      let lost ← breaking.module? ["lost"]
      let (_, warnings) ← (lost.importMap breaking).toOption
      return (lost.importLeaves.length, warnings.length)) = some (1, 1) := by
    decide +kernel
  generalize breaking = r at hmain hlost ⊢
  constructor
  · obtain ⟨main, hmodule, hmain⟩ := Option.bind_eq_some_iff.1 hmain
    split at hmain
    · rename_i broken hbroken
      obtain ⟨front, leaf, back, hleaves, -, hbreaks⟩ :=
        ((Module.importMap_surfaces main r).2.1 broken).1 hbroken
      exact ⟨main, broken, hmodule, hbroken, Option.some.inj hmain, leaf,
        hleaves ▸ by simp, hbreaks⟩
    · cases hmain
  · obtain ⟨lost, hmodule, hlost⟩ := Option.bind_eq_some_iff.1 hlost
    obtain ⟨⟨imports, warnings⟩, himports, hlost⟩ := Option.bind_eq_some_iff.1 hlost
    obtain ⟨hleaves, hwarnings⟩ := Prod.mk.inj (Option.some.inj hlost)
    obtain ⟨leaf, hleaf⟩ := List.length_eq_one_iff.1 hleaves
    obtain ⟨warning, rfl⟩ := List.length_eq_one_iff.1 hwarnings
    have himports := Except.eq_ok_of_toOption himports
    obtain ⟨notes, hnotes, hall⟩ := (Module.importMap_surfaces lost r).2.2 _ _ himports
    rw [hleaf, List.forall₂_cons_left_iff] at hall
    obtain ⟨note, rest, hnote, hrest, rfl⟩ := hall
    obtain rfl := List.forall₂_nil_left_iff.1 hrest
    have hsome : note = some warning := by
      cases note with
      | none => cases hnotes
      | some w => rw [(List.cons.inj hnotes).1]
    obtain ⟨message, hcomplains, heq⟩ := (hnote warning).1 hsome
    exact ⟨lost, imports, warning, hmodule, himports, leaf, hleaf ▸ List.mem_singleton_self leaf,
      message, hcomplains, heq⟩

end Registry

end ShaderLink
