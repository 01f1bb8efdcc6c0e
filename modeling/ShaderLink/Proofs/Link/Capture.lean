import ShaderLink.Proofs.Link.Coherence
import ShaderLink.Proofs.Module.Scopes

/-!
# Captured references

In the linked text a reference stands with the name of its instance. It is **captured** if a local
declaration of this name can be seen from it, for then it means the local declaration. New names
avoid all local names, and a bound reference is bound because no local declaration of its name can
be seen. But a declaration of the root keeps its name, and a reference that an import leads back to
it is given this name whatever stands around it. This is the only way in which a reference can be
captured.
-/

namespace ShaderLink

namespace Module

variable {m : Module}

/-- The local declaration of a name that can be seen from a reference. -/
def localAt? (m : Module) (reference : Reference) (name : String) : Option IdentId :=
  m.scopes.idents[reference.ident]?.bind fun ident ↦
    (m.scopes.lookup name reference.ident ident.scope).filter fun id ↦ !m.scopes.isGlobal id

theorem mem_localNames_of_localAt? {reference : Reference} {name : String}
    (h : (m.localAt? reference name).isSome) : name ∈ m.scopes.localNames := by
  obtain ⟨id, hid⟩ := Option.isSome_iff_exists.1 h
  obtain ⟨ident, -, hfilter⟩ := Option.bind_eq_some_iff.1 hid
  obtain ⟨hlookup, hlocal⟩ := Option.filter_eq_some_iff.1 hfilter
  exact (ScopeTree.declares_of_lookup hlookup).mem_localNames (by simpa using hlocal)

/-- From a reference bound to a declaration at module level, no local declaration of its name can
be seen. -/
theorem Scoped.localAt?_eq_none (h : m.Scoped) {reference : Reference} {binding : IdentId}
    (hbinding : m.binding? reference = some binding) (hglobal : m.scopes.isGlobal binding = true)
    {d : Decl} (hd : .decl d ∈ m.elements) (hident : d.ident = binding) :
    m.localAt? reference d.name = none := by
  obtain ⟨ident, hget, hbound⟩ := Option.bind_eq_some_iff.1 hbinding
  rw [localAt?, hget, Option.bind_some, ← h.name_eq hget hbound hd hident,
    h.bound reference.ident ident binding hget hbound, Option.filter_some, hglobal]
  rfl

end Module

namespace LinkJob

variable {job : LinkJob} {l : Linkage} {key : InstanceKey} {name : String} {m : Module} {d : Decl}
  {path : ModulePath} {bound : Nat}

/-- The local names of a module that is found are taken from the start. -/
theorem localNames_subset_taken {path : ModulePath} (hm : job.registry.module? path = some m) :
    m.scopes.localNames ⊆ job.start.taken := by
  intro name hname
  exact List.mem_append_right _ (List.mem_flatMap.2 ⟨m, Registry.mem_modules hm, hname⟩)

/-- Only a declaration of the root can have a local name. -/
theorem Valid.start_name?_of_mem_localNames (h : job.Valid l) {path : ModulePath}
    (hm : job.registry.module? path = some m) (hname : l.name? key = some name)
    (hlocal : name ∈ m.scopes.localNames) : job.start.name? key = some name := by
  rcases h.wellNamed.named key name hname with hstart | hfresh
  · exact hstart
  · exact absurd (localNames_subset_taken hm hlocal) hfresh.new

/-- From a reference that means a declaration because it is bound to it, no local declaration of its
name can be seen. -/
theorem localAt?_eq_none_of_boundKey? (h : m.Scoped) {reference : Reference} {binding : IdentId}
    (hbinding : m.binding? reference = some binding) {args args' : Args} {module : ModulePath}
    {index : Nat} (hkey : boundKey? m args binding = some ⟨.decl module index, args'⟩) :
    module = m.path ∧ ∀ d, m.decl? index = some d → m.localAt? reference d.name = none := by
  rw [boundKey?] at hkey
  split at hkey
  · rename_i hglobal
    obtain ⟨⟨index', d'⟩, hfind, heq⟩ := Option.map_eq_some_iff.1 hkey
    obtain ⟨hpath, rfl⟩ := Target.decl.inj (InstanceKey.mk.inj heq).1
    refine ⟨hpath.symm, fun d hd ↦ ?_⟩
    have hd' := Module.mem_decls_iff.1 (List.mem_of_find?_eq_some hfind)
    obtain rfl := Option.some.inj (hd.symm.trans hd')
    have hident : d.ident = binding := by simpa using List.find?_some hfind
    exact h.localAt?_eq_none hbinding hglobal
      (List.mem_of_getElem? (Module.mem_elements_of_decl? hd)) hident
  · cases hkey

/-- A reference in an instance is captured exactly if an import leads it back to a declaration of
the root and a local declaration of that declaration's name can be seen from it. -/
theorem captured_iff (hr : job.registry.Built) (hroot : job.registry.root path = .ok job.root)
    (hclose : job.close bound = .ok l) {module : ModulePath} {index : Nat} {args : Args}
    {i : Instance} (hmem : (⟨.decl module index, args⟩, i) ∈ l.instances.toList)
    (hdecl : job.decl? module index = some (m, d)) {reference : Reference}
    (hreference : reference ∈ m.references d)
    (hkey : job.referenceKey? l m args reference = some key) :
    ∃ name, l.name? key = some name ∧ ((m.localAt? reference name).isSome ↔
      ∃ index' d', (index', d') ∈ job.root.decls ∧ key = ⟨.decl job.root.path index', []⟩ ∧
        m.binding? reference = none ∧ (m.localAt? reference d'.name).isSome) := by
  have hjob := sound_of_root hr hroot
  have h := closed_of_close hjob hclose
  have hm := (decl?_eq_some hdecl).1
  obtain ⟨options, file, source, hparse⟩ := hjob.built.parsed hm
  have hreached := (h.settled _ i hmem).reached module index m d rfl hdecl
  obtain ⟨name, hname⟩ :=
    Linkage.mem_keys_iff_name?.1 (hreached reference hreference key hkey)
  refine ⟨name, hname, fun hlocal ↦ ?_, ?_⟩
  · have hstart := h.valid.start_name?_of_mem_localNames hm hname
      (Module.mem_localNames_of_localAt? hlocal)
    obtain ⟨⟨index', d'⟩, hd', rfl, rfl⟩ := start_name?_mem hstart
    refine ⟨index', d', hd', rfl, ?_, hlocal⟩
    cases hbinding : m.binding? reference with
    | none => rfl
    | some binding =>
      -- a bound reference means a declaration of its own module, which then is the root
      rw [referenceKey?, hbinding] at hkey
      obtain ⟨hpath, hnone⟩ :=
        localAt?_eq_none_of_boundKey? (Module.scoped_of_parse hparse) hbinding hkey
      have hmodule := hjob.module?_path hm
      rw [← hpath, hjob.root] at hmodule
      obtain rfl := Option.some.inj hmodule
      rw [hnone d' (Module.mem_decls_iff.1 hd')] at hlocal
      cases hlocal
  · -- a declaration of the root has kept its name
    rintro ⟨index', d', hd', rfl, -, hlocal⟩
    have hroot := h.grows.names _ _ (start_name?_of_mem hd')
    rwa [Option.some.inj (hname.symm.trans hroot)]

end LinkJob

namespace Registry

/-- A root with a declaration that another module imports, calls by another name, and calls where it
has a local declaration of the first name. -/
def callingBack : Registry :=
  ofSources .default
    [("main", "import lib/f;\nfn foo() \x7b\x7d\nfn main() \x7b f(); \x7d\n".toList),
      ("lib", "import main/foo as bar;\nfn f() \x7b let foo = 1; bar(); \x7d\n".toList)]
    []

theorem captured_callingBack : ∃ root l, callingBack.root ["main"] = .ok root ∧
    (⟨callingBack, ⟨.empty, false⟩, root⟩ : LinkJob).close 10 = .ok l ∧
    ∃ m d i reference key name, (⟨.decl ["lib"] 1, []⟩, i) ∈ l.instances.toList ∧
      (⟨callingBack, ⟨.empty, false⟩, root⟩ : LinkJob).decl? ["lib"] 1 = some (m, d) ∧
      reference ∈ m.references d ∧
      (⟨callingBack, ⟨.empty, false⟩, root⟩ : LinkJob).referenceKey? l m [] reference = some key ∧
      l.name? key = some name ∧ (m.localAt? reference name).isSome := by
  have heval : (do
      let root ← (callingBack.root ["main"]).toOption
      let job : LinkJob := ⟨callingBack, ⟨.empty, false⟩, root⟩
      let l ← (job.close 10).toOption
      let i ← l.instances.get? ⟨.decl ["lib"] 1, []⟩
      let (m, d) ← job.decl? ["lib"] 1
      let reference ← (m.references d).head?
      let declared ← root.decl? 1
      return (root.path, job.referenceKey? l m [] reference, m.binding? reference,
        (m.localAt? reference declared.name).isSome)) =
      some (["main"], some ⟨.decl ["main"] 1, []⟩, none, true) := by
    decide +kernel
  obtain ⟨root, hroot, heval⟩ := Option.bind_eq_some_iff.1 heval
  obtain ⟨l, hclose, heval⟩ := Option.bind_eq_some_iff.1 heval
  obtain ⟨i, hi, heval⟩ := Option.bind_eq_some_iff.1 heval
  obtain ⟨⟨m, d⟩, hdecl, heval⟩ := Option.bind_eq_some_iff.1 heval
  obtain ⟨reference, hhead, heval⟩ := Option.bind_eq_some_iff.1 heval
  obtain ⟨declared, hdeclared, heval⟩ := Option.bind_eq_some_iff.1 heval
  obtain ⟨hpath, heval⟩ := Prod.mk.inj (Option.some.inj heval)
  obtain ⟨hkey, heval⟩ := Prod.mk.inj heval
  obtain ⟨hbinding, hlocal⟩ := Prod.mk.inj heval
  have hroot := Except.eq_ok_of_toOption hroot
  have hclose := Except.eq_ok_of_toOption hclose
  have hmem := OrderedMap.get?_eq_some_iff.1 hi
  have hreference := List.mem_of_head? hhead
  have hbuilt : callingBack.Built := (built_ofSources _ _ _).1
  -- nothing below depends on what the registry is
  generalize callingBack = r at hroot hclose hdecl hkey hbuilt ⊢
  obtain ⟨name, hname, hcaptured⟩ := @LinkJob.captured_iff ⟨r, ⟨.empty, false⟩, root⟩ l _ m d
    ["main"] 10 hbuilt hroot hclose ["lib"] 1 [] i hmem hdecl reference hreference hkey
  have htarget : (⟨.decl ["main"] 1, []⟩ : InstanceKey) = ⟨.decl root.path 1, []⟩ := by rw [hpath]
  have hback : (m.localAt? reference name).isSome :=
    hcaptured.2 ⟨1, declared, Module.mem_decls_iff.2 hdeclared, htarget, hbinding, hlocal⟩
  exact ⟨root, l, hroot, hclose, m, d, i, reference, _, name, hmem, hdecl, hreference, hkey, hname,
    hback⟩

end Registry

end ShaderLink
