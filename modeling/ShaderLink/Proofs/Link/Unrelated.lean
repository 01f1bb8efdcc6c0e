import ShaderLink.Proofs.Link.Lockstep

/-!
# Unrelated modules

A module is unrelated to a registry if there is none of its path, no import leads to this path or
directly below it, and no import is a single word, which would be looked for in all modules. Adding
such a module changes nothing that imports mean. Still it is not without influence, because its
local names are taken from the start like those of all other modules.

An instance that has such a name gets another one when the module is added, unless it is a
declaration of the root. This is the only influence: linking gives the same instances the same names
exactly if no instance has a local name of the module, and then it gives the same result.
-/

namespace ShaderLink

namespace Registry

/-- There is no module of the path, and no import of a module leads there or is a single word. -/
structure Unrelated (r : Registry) (path : ModulePath) : Prop where
  new : r.module? path = none
  elsewhere : ∀ m ∈ r.modules, ∀ leaf ∈ m.importLeaves, ∀ target,
    ModulePath.resolve? m.path leaf.2.path = some target →
      target ≠ path ∧ ∀ name, target ≠ path ++ [name]
  wordless : ∀ m ∈ r.modules, ∀ leaf ∈ m.importLeaves, leaf.2.path.length ≠ 1

instance (r : Registry) (path : ModulePath) : Decidable (r.Unrelated path) :=
  decidable_of_iff ((r.module? path).isNone ∧ ∀ m ∈ r.modules, ∀ leaf ∈ m.importLeaves,
      (∀ target ∈ ModulePath.resolve? m.path leaf.2.path,
        target ≠ path ∧ ∀ name ∈ target.getLast?, target ≠ path ++ [name]) ∧
      leaf.2.path.length ≠ 1) <| by
    constructor
    · rintro ⟨hnew, h⟩
      refine ⟨Option.isNone_iff_eq_none.1 hnew, fun m hm leaf hleaf target htarget ↦ ?_,
        fun m hm leaf hleaf ↦ (h m hm leaf hleaf).2⟩
      obtain ⟨hne, hbelow⟩ := (h m hm leaf hleaf).1 target htarget
      refine ⟨hne, fun name heq ↦ hbelow name ?_ heq⟩
      rw [heq, List.getLast?_concat]
      rfl
    · intro h
      refine ⟨Option.isNone_iff_eq_none.2 h.new, fun m hm leaf hleaf ↦
        ⟨fun target htarget ↦ ?_, h.wordless m hm leaf hleaf⟩⟩
      obtain ⟨hne, hbelow⟩ := h.elsewhere m hm leaf hleaf target htarget
      exact ⟨hne, fun name _ ↦ hbelow name⟩

/-- No instance that is reached from a root has a local name of the module, apart from declarations
of the root. -/
def Spares (r : Registry) (options : LinkOptions) (path : ModulePath) (m : Module) : Prop :=
  ∀ root, r.root path = .ok root → ∀ n l, (⟨r, options, root⟩ : LinkJob).After n l →
    LinkJob.Avoids ⟨r, options, root⟩ m.scopes.localNames l

variable {r : Registry} {m : Module} {path : ModulePath}

/-- Elsewhere a registry has the same when a module is added. -/
theorem sameAt_insert (hr : r.Coherent) (h : path ≠ m.path) : r.SameAt (r.insert m).2 path where
  module? := by rw [hr.module?_insert, if_neg h]
  failure? := by rw [failure?_insert, if_neg h]
  generator? := fun _ ↦ rfl

/-- The modules after a module of a new path was added. -/
theorem mem_modules_insert (hr : r.Coherent) (hnew : r.module? m.path = none) {m' : Module} :
    m' ∈ (r.insert m).2.modules ↔ m' ∈ r.modules ∨ m' = m := by
  have hfound : (r.insert m).2.module? m'.path = some m' ↔ m'.path = m'.path ∧
      m' ∈ (r.insert m).2.modules := (hr.insert m).module?_eq_some_iff
  rw [hr.module?_insert] at hfound
  by_cases hpath : m'.path = m.path
  · rw [if_pos hpath] at hfound
    have hold : m' ∉ r.modules := fun hmem ↦ by
      have hget := hr.module?_eq_some_iff.2 ⟨rfl, hmem⟩
      rw [hpath, hnew] at hget
      cases hget
    have hfound : some m = some m' ↔ m' ∈ (r.insert m).2.modules := by simpa using hfound
    rw [← hfound]
    simp [hold, eq_comm]
  · rw [if_neg hpath, hr.module?_eq_some_iff] at hfound
    have hne : m' ≠ m := fun heq ↦ hpath (by rw [heq])
    simpa [hne] using hfound.symm

/-- A registry serves for the same roots when an unrelated module is added. Its local names are
taken. -/
theorem serves_insert (hr : r.Coherent) (h : r.Unrelated m.path) (options : LinkOptions)
    (root : Module) : LinkJob.Serves ⟨r, options, root⟩ ⟨(r.insert m).2, options, root⟩
      m.scopes.localNames := by
  refine ⟨rfl, rfl, fun path m' hm' ↦ ?_, fun module name g hg ↦ hg, fun path m' hm' ↦ ?_,
    fun name ↦ ?_⟩
  · have hne : path ≠ m.path := by
      rintro rfl
      rw [h.new] at hm'
      cases hm'
    exact (sameAt_insert hr hne).module?.trans hm'
  · have hmem := mem_modules hm'
    refine Module.view_importMap (fun leaf hleaf target htarget ↦ ?_) (fun leaf hleaf hword ↦
      absurd hword (h.wordless m' hmem leaf hleaf)) hr (hr.insert m)
    obtain ⟨hne, hbelow⟩ := h.elsewhere m' hmem leaf hleaf target htarget
    refine ⟨sameAt_insert hr hne, sameAt_insert hr fun hfront ↦ ?_⟩
    -- behind a module's path there is one name only if the path leads directly below it
    cases hlast : target.getLast? with
    | none =>
      rw [List.getLast?_eq_none_iff.1 hlast] at hfront hne
      exact hne hfront
    | some name => exact hbelow name (hfront ▸ (List.dropLast_append_getLast? name hlast).symm)
  · simp only [LinkJob.start, List.mem_append, List.mem_flatMap, mem_modules_insert hr h.new,
      or_and_right, exists_or, exists_eq_left, or_assoc]

/-- Adding an unrelated module changes the names of instances exactly if an instance that is no
declaration of the root has a local name of the module. If none has, linking gives the same
result. -/
theorem link_insert (hr : r.Built) (hm : m.Parsed) (h : r.Unrelated m.path) (hne : path ≠ m.path)
    (options : LinkOptions) :
    (r.Spares options path m ↔ ∀ root, r.root path = .ok root →
      ∀ n l, (⟨r, options, root⟩ : LinkJob).After n l →
        ∃ l', (⟨(r.insert m).2, options, root⟩ : LinkJob).After n l' ∧
          ∀ key, l'.name? key = l.name? key) ∧
      (r.Spares options path m → ∀ bound,
        (r.insert m).2.link options path bound = r.link options path bound) := by
  have hr' : (r.insert m).2.Built := hr.insert hm
  have hserves := serves_insert hr.coherent h options
  have hsame := root_of_sameAt (sameAt_insert hr.coherent hne)
  have hsound (root : Module) (hroot : r.root path = .ok root) :
      LinkJob.Sound ⟨r, options, root⟩ ∧ LinkJob.Sound ⟨(r.insert m).2, options, root⟩ :=
    ⟨LinkJob.sound_of_root hr hroot, LinkJob.sound_of_root hr' (hsame.trans hroot)⟩
  refine ⟨⟨fun hspares root hroot n l hafter ↦ ?_, fun hnames root hroot n l hafter ↦ ?_⟩,
    fun hspares bound ↦ ?_⟩
  · obtain ⟨l', hafter', hl⟩ := hafter.lockstep (hserves root) (hsound root hroot).1
      fun k l _ ↦ hspares root hroot k l
    refine ⟨l', hafter', fun key ↦ ?_⟩
    rw [Linkage.name?, hl.instances]
    rfl
  · -- in the other registry only a declaration of the root can have a local name of the module
    intro key name hname hextra
    obtain ⟨l', hafter', hkeys⟩ := hnames root hroot n l hafter
    have hvalid := (hafter'.visited (hsound root hroot).2).1.valid
    have hfound : (r.insert m).2.module? m.path = some m := by
      rw [hr.coherent.module?_insert, if_pos rfl]
    have hstart := hvalid.start_name?_of_mem_localNames hfound ((hkeys key).trans hname) hextra
    exact hstart
  · cases hroot : r.root path with
    | error e =>
      rw [Registry.link, Registry.link, hsame, hroot]
      rfl
    | ok root =>
      exact LinkJob.link_lockstep (hserves root) hr hr' hroot (hsame.trans hroot)
        (hspares root hroot) bound

/-- A root that calls a function of another module. -/
def calling : Registry :=
  ofSources .default
    [("main", "import lib/foo;\nfn main() \x7b foo(); \x7d\n".toList),
      ("lib", "fn foo() \x7b\x7d\n".toList)]
    []

/-- A module with another local name makes no difference for it. -/
theorem link_insert_calling : ∃ m, m.Parsed ∧ calling.Unrelated m.path ∧ ["main"] ≠ m.path ∧
    m.scopes.localNames = ["bar"] ∧ calling.Spares ⟨.empty, false⟩ ["main"] m ∧
    ∀ bound, (calling.insert m).2.link ⟨.empty, false⟩ ["main"] bound =
      calling.link ⟨.empty, false⟩ ["main"] bound := by
  have heval : (do
      let m ← (Module.parse .default "other" "fn g() \x7b let bar = 1; \x7d\n".toList).toOption
      let root ← (calling.root ["main"]).toOption
      let l ← ((⟨calling, ⟨.empty, false⟩, root⟩ : LinkJob).close 10).toOption
      return (m.path, decide (calling.Unrelated m.path), m.scopes.localNames,
        l.instances.values.map Instance.name)) =
      some (["other"], true, ["bar"], ["main", "foo"]) := by
    decide +kernel
  obtain ⟨m, hparse, heval⟩ := Option.bind_eq_some_iff.1 heval
  obtain ⟨root, hroot, heval⟩ := Option.bind_eq_some_iff.1 heval
  obtain ⟨l, hclose, heval⟩ := Option.bind_eq_some_iff.1 heval
  obtain ⟨hpath, heval⟩ := Prod.mk.inj (Option.some.inj heval)
  obtain ⟨hunrelated, heval⟩ := Prod.mk.inj heval
  obtain ⟨hlocal, hnames⟩ := Prod.mk.inj heval
  have hparsed : m.Parsed := ⟨_, _, _, Except.eq_ok_of_toOption hparse⟩
  have hunrelated := of_decide_eq_true hunrelated
  have hroot := Except.eq_ok_of_toOption hroot
  have hclose := Except.eq_ok_of_toOption hclose
  have hbuilt : calling.Built := (built_ofSources _ _ _).1
  -- nothing below depends on what the registry is
  generalize calling = r at hunrelated hroot hclose hbuilt ⊢
  have hne : ["main"] ≠ m.path := by
    rw [hpath]
    decide
  have hspares : r.Spares ⟨.empty, false⟩ ["main"] m := by
    intro root' hroot'
    obtain rfl := Except.ok.inj (hroot.symm.trans hroot')
    refine fun n l' ↦ LinkJob.avoids_of_close (LinkJob.sound_of_root hbuilt hroot) hclose ?_
    intro key name hname hextra
    obtain ⟨i, hi, rfl⟩ := Option.map_eq_some_iff.1 hname
    have hname : i.name ∈ l.instances.values.map Instance.name :=
      List.mem_map_of_mem (OrderedMap.mem_values_of_get? hi)
    rw [hnames] at hname
    rw [hlocal, List.mem_singleton] at hextra
    rw [hextra] at hname
    exact absurd hname (by decide)
  exact ⟨m, hparsed, hunrelated, hne, hlocal, hspares,
    (link_insert hbuilt hparsed hunrelated hne _).2 hspares⟩

/-- A module with the local name `foo` makes one, and a root that is only there when the module has
been added can only be linked then. -/
theorem link_insert_foo : ∃ m linked linked', m.Parsed ∧ calling.Unrelated m.path ∧
    calling.link ⟨.empty, false⟩ ["main"] 10 = .ok linked ∧
    (calling.insert m).2.link ⟨.empty, false⟩ ["main"] 10 = .ok linked' ∧
    linked.map.text = "fn main() \x7b foo(); \x7d\n\nfn foo() \x7b\x7d".toList ∧
    linked'.map.text = "fn main() \x7b foo0(); \x7d\n\nfn foo0() \x7b\x7d".toList ∧
    (∀ linked, calling.link ⟨.empty, false⟩ m.path 10 ≠ .ok linked) ∧
    ∃ linked, (calling.insert m).2.link ⟨.empty, false⟩ m.path 10 = .ok linked := by
  have heval : (do
      let m ← (Module.parse .default "other" "fn g() \x7b let foo = 1; \x7d\n".toList).toOption
      let linked ← (calling.link ⟨.empty, false⟩ ["main"] 10).toOption
      let linked' ← ((calling.insert m).2.link ⟨.empty, false⟩ ["main"] 10).toOption
      let other ← ((calling.insert m).2.link ⟨.empty, false⟩ m.path 10).toOption
      return (decide (calling.Unrelated m.path), linked.map.text, linked'.map.text,
        (calling.link ⟨.empty, false⟩ m.path 10).toOption.isNone, other.warnings.length)) =
      some (true, "fn main() \x7b foo(); \x7d\n\nfn foo() \x7b\x7d".toList,
        "fn main() \x7b foo0(); \x7d\n\nfn foo0() \x7b\x7d".toList, true, 0) := by
    decide +kernel
  obtain ⟨m, hparse, heval⟩ := Option.bind_eq_some_iff.1 heval
  obtain ⟨linked, hlinked, heval⟩ := Option.bind_eq_some_iff.1 heval
  obtain ⟨linked', hlinked', heval⟩ := Option.bind_eq_some_iff.1 heval
  obtain ⟨other, hother, heval⟩ := Option.bind_eq_some_iff.1 heval
  obtain ⟨hunrelated, heval⟩ := Prod.mk.inj (Option.some.inj heval)
  obtain ⟨htext, heval⟩ := Prod.mk.inj heval
  obtain ⟨htext', heval⟩ := Prod.mk.inj heval
  obtain ⟨hnone, -⟩ := Prod.mk.inj heval
  refine ⟨m, linked, linked', ⟨_, _, _, Except.eq_ok_of_toOption hparse⟩,
    of_decide_eq_true hunrelated, Except.eq_ok_of_toOption hlinked,
    Except.eq_ok_of_toOption hlinked', htext, htext', fun found hfound ↦ ?_, other,
    Except.eq_ok_of_toOption hother⟩
  rw [hfound] at hnone
  cases hnone

end Registry

end ShaderLink
