import ShaderLink.Proofs.Link.Capture

/-!
# External references

A reference that is not bound, names no parameter and is not imported is **external**: it means
something that the language defines, and it stays as it is written. Its name is not kept free. In
the linked text it is the name of a declaration of the root if that is called so, and of any other
instance if it is the first name that was free for it (`LinkJob.FirstFree`). Names of local
declarations and of declarations of the root are never free, so an external name is safe from other
instances if it is one of these, or if no instance comes from a target of that name or of what the
name has in front of a number.
-/

namespace ShaderLink

namespace LinkJob

/-- The reference is one word, bound to nothing, no parameter and not imported. -/
structure External (job : LinkJob) (m : Module) (args : Args) (reference : Reference)
    (name : String) : Prop where
  path_eq : reference.path = [name]
  unbound : m.binding? reference = none
  no_param : ∀ a ∈ args, a.1 ≠ name
  not_found : ∀ target path given, job.resolution m [name] ≠ .found target path given

/-- The name is the first that was free for the instance, and no other instance has it. -/
structure FirstFree (job : LinkJob) (l : Linkage) (key : InstanceKey) (name : String) : Prop
    extends job.Fresh l key name where
  alone : ∀ key', l.name? key' = some name → key' = key

variable {job : LinkJob} {l : Linkage} {key : InstanceKey} {name name' : String} {m : Module}
  {d : Decl} {args : Args} {reference : Reference} {path : ModulePath} {bound : Nat}

/-! ### External references stay -/

theorem External.referenceKey?_eq_none (h : job.External m args reference name) :
    job.referenceKey? l m args reference = none := by
  have hargs : (args.any fun a ↦ [a.1] == reference.path) = false := by
    rw [List.any_eq_false]
    intro a ha heq
    rw [h.path_eq] at heq
    exact h.no_param a ha (by simpa using heq)
  rw [referenceKey?, h.unbound, hargs, h.path_eq]
  cases hresolution : job.resolution m [name] with
  | found target path given => exact absurd hresolution (h.not_found target path given)
  | unresolved => rfl
  | ambiguous candidates => rfl

/-- No splice for the declaration touches a reference that means no instance. -/
theorem span_ne_of_mem_declRenames (hm : m.InOrder) (hd : .decl d ∈ m.elements)
    (hreference : reference ∈ m.references d)
    (hkey : job.referenceKey? l m args reference = none) {s : Splice}
    (hs : s ∈ job.declRenames l m d args name) : s.span ≠ reference.span := by
  have hnodup := hm.nodup_names hd
  intro heq
  rcases List.mem_append.1 hs with hown | hs
  · -- the name of the declaration is no reference
    split at hown
    · cases hown
    · obtain rfl := List.mem_singleton.1 hown
      refine (List.nodup_cons.1 hnodup).1 ?_
      rw [show d.nameSpan = reference.span from heq]
      exact List.mem_map_of_mem hreference
  · obtain ⟨reference', hreference', hrename⟩ := List.mem_filterMap.1 hs
    obtain rfl : reference' = reference :=
      List.inj_on_of_nodup_map (List.nodup_cons.1 hnodup).2 hreference' hreference
        ((span_of_renameIn? hrename).symm.trans heq)
    rw [renameIn?, hkey] at hrename
    cases hrename

/-! ### Names are the first free ones -/

theorem FirstFree.not_occupied (h : job.FirstFree l key name) : ¬ job.Occupied l key name := by
  rintro (htaken | ⟨key', hne, hname⟩)
  · exact h.new htaken
  · exact hne (h.alone key' hname)

/-- There is only one name that is the first free one. -/
theorem FirstFree.eq (h : job.FirstFree l key name) (h' : job.FirstFree l key name') :
    name = name' := by
  have hfree := h.not_occupied
  have hfree' := h'.not_occupied
  rcases h.first with rfl | ⟨n, rfl, hbase, hbelow⟩
  · rcases h'.first with rfl | ⟨n', -, hbase', -⟩
    · rfl
    · exact absurd hbase' hfree
  · rcases h'.first with rfl | ⟨n', rfl, -, hbelow'⟩
    · exact absurd hbase hfree'
    · -- the name with the smaller number would be occupied
      rcases Nat.lt_trichotomy n n' with hlt | rfl | hlt
      · exact absurd (hbelow' n hlt) hfree
      · rfl
      · exact absurd (hbelow n' hlt) hfree'

/-- An instance that is no declaration of the root has the first name that was free for it. -/
theorem WellNamed.firstFree (h : job.WellNamed l) (hstart : key ∉ job.start.instances.keys)
    (hname : l.name? key = some name) : job.FirstFree l key name := by
  have hnew (name : String) : job.start.name? key ≠ some name :=
    fun hname ↦ hstart (Linkage.mem_keys_iff_name?.2 ⟨name, hname⟩)
  refine ⟨(h.named key name hname).resolve_left (hnew name), fun key' hname' ↦ ?_⟩
  rcases h.distinct key' key name hname' hname with heq | ⟨-, hname⟩
  · exact heq
  · exact absurd hname (hnew name)

theorem Closed.name?_eq_some_iff (h : job.Closed l) (hkey : key ∈ l.instances.keys) :
    l.name? key = some name ↔ job.start.name? key = some name ∨
      key ∉ job.start.instances.keys ∧ job.FirstFree l key name := by
  obtain ⟨name', hname'⟩ := Linkage.mem_keys_iff_name?.1 hkey
  by_cases hstart : key ∈ job.start.instances.keys
  · obtain ⟨kept, hkept⟩ := Linkage.mem_keys_iff_name?.1 hstart
    rw [h.grows.names key kept hkept, hkept]
    simp [hstart]
  · have hfirst := h.valid.wellNamed.firstFree hstart hname'
    rw [hname']
    constructor
    · intro heq
      obtain rfl := Option.some.inj heq
      exact .inr ⟨hstart, hfirst⟩
    · rintro (hkept | ⟨-, hfree⟩)
      · exact absurd (Linkage.mem_keys_iff_name?.2 ⟨name, hkept⟩) hstart
      · rw [hfirst.eq hfree]

/-- An external reference in an instance stays as it is written. Exactly the declarations of the
root that are called so and the instances for which its name is the first free one have its name. -/
theorem shadowed_iff (hr : job.registry.Built) (hroot : job.registry.root path = .ok job.root)
    (hclose : job.close bound = .ok l) {module : ModulePath} {index : Nat} {i : Instance}
    (hmem : (⟨.decl module index, args⟩, i) ∈ l.instances.toList)
    (hdecl : job.decl? module index = some (m, d)) (hreference : reference ∈ m.references d)
    (hexternal : job.External m args reference name) :
    (∀ s ∈ i.renames, s.span ≠ reference.span) ∧
      ∀ key ∈ l.instances.keys, l.name? key = some name ↔ job.start.name? key = some name ∨
        key ∉ job.start.instances.keys ∧ job.FirstFree l key name := by
  have hjob := sound_of_root hr hroot
  have h := closed_of_close hjob hclose
  obtain ⟨hm, hd⟩ := decl?_eq_some hdecl
  obtain ⟨options, file, source, hparse⟩ := hr.parsed hm
  refine ⟨fun s hs ↦ ?_, fun key hkey ↦ h.name?_eq_some_iff hkey⟩
  rw [(h.settled _ i hmem).renames_decl rfl hdecl] at hs
  exact span_ne_of_mem_declRenames (Module.elementsInOrder_of_parse hparse)
    (List.mem_of_getElem? (Module.mem_elements_of_decl? hd)) hreference
    hexternal.referenceKey?_eq_none hs

end LinkJob

namespace Registry

/-- A root that uses a builtin and imports a declaration of the same name under another one. -/
def shadowing : Registry :=
  ofSources .default
    [("main", "import lib/max as most;\nfn f() \x7b most(); max(); \x7d\n".toList),
      ("lib", "fn max() \x7b\x7d\n".toList)]
    []

/-- The declaration of the root refers to the builtin. -/
theorem exists_shadowing : ∃ root l m d i reference, shadowing.root ["main"] = .ok root ∧
    (⟨shadowing, ⟨.empty, false⟩, root⟩ : LinkJob).close 10 = .ok l ∧
    (⟨.decl ["main"] 1, []⟩, i) ∈ l.instances.toList ∧
    (⟨shadowing, ⟨.empty, false⟩, root⟩ : LinkJob).decl? ["main"] 1 = some (m, d) ∧
    reference ∈ m.references d ∧
    (⟨shadowing, ⟨.empty, false⟩, root⟩ : LinkJob).External m [] reference "max" ∧
    (⟨shadowing, ⟨.empty, false⟩, root⟩ : LinkJob).start.name? ⟨.decl ["lib"] 0, []⟩ = none ∧
    l.name? ⟨.decl ["lib"] 0, []⟩ = some "max" := by
  have heval : (do
      let root ← (shadowing.root ["main"]).toOption
      let job : LinkJob := ⟨shadowing, ⟨.empty, false⟩, root⟩
      let l ← (job.close 10).toOption
      let i ← l.instances.get? ⟨.decl ["main"] 1, []⟩
      let (m, d) ← job.decl? ["main"] 1
      let reference ← (m.references d)[1]?
      return (reference.path, m.binding? reference, job.resolution m ["max"],
        job.start.name? ⟨.decl ["lib"] 0, []⟩, l.name? ⟨.decl ["lib"] 0, []⟩)) =
      some (["max"], none, .unresolved, none, some "max") := by
    decide +kernel
  obtain ⟨root, hroot, heval⟩ := Option.bind_eq_some_iff.1 heval
  obtain ⟨l, hclose, heval⟩ := Option.bind_eq_some_iff.1 heval
  obtain ⟨i, hi, heval⟩ := Option.bind_eq_some_iff.1 heval
  obtain ⟨⟨m, d⟩, hdecl, heval⟩ := Option.bind_eq_some_iff.1 heval
  obtain ⟨reference, hget, heval⟩ := Option.bind_eq_some_iff.1 heval
  obtain ⟨hpath, heval⟩ := Prod.mk.inj (Option.some.inj heval)
  obtain ⟨hbinding, heval⟩ := Prod.mk.inj heval
  obtain ⟨hresolution, hnames⟩ := Prod.mk.inj heval
  obtain ⟨hstart, hname⟩ := Prod.mk.inj hnames
  refine ⟨root, l, m, d, i, reference, Except.eq_ok_of_toOption hroot,
    Except.eq_ok_of_toOption hclose, OrderedMap.get?_eq_some_iff.1 hi, hdecl,
    List.mem_of_getElem? hget, ⟨hpath, hbinding, by simp, ?_⟩, hstart, hname⟩
  intro target path given hfound
  exact nomatch hresolution.symm.trans hfound

/-- An external reference is shadowed by a declaration of another module. -/
theorem external_shadowed : ∃ root l m d i reference module index args,
    shadowing.root ["main"] = .ok root ∧
    (⟨shadowing, ⟨.empty, false⟩, root⟩ : LinkJob).close 10 = .ok l ∧
    (∃ linked, shadowing.link ⟨.empty, false⟩ ["main"] 10 = .ok linked ∧
      linked.map.text = "fn f() \x7b max(); max(); \x7d\n\nfn max() \x7b\x7d".toList) ∧
    (⟨.decl ["main"] 1, []⟩, i) ∈ l.instances.toList ∧
    (⟨shadowing, ⟨.empty, false⟩, root⟩ : LinkJob).decl? ["main"] 1 = some (m, d) ∧
    reference ∈ m.references d ∧
    (⟨shadowing, ⟨.empty, false⟩, root⟩ : LinkJob).External m [] reference "max" ∧
    module ≠ ["main"] ∧ l.name? ⟨.decl module index, args⟩ = some "max" := by
  have heval : (shadowing.link ⟨.empty, false⟩ ["main"] 10).toOption.map
      (fun linked ↦ linked.map.text) =
        some "fn f() \x7b max(); max(); \x7d\n\nfn max() \x7b\x7d".toList := by
    decide +kernel
  obtain ⟨linked, hlink, htext⟩ := Option.map_eq_some_iff.1 heval
  obtain ⟨root, l, m, d, i, reference, hroot, hclose, hmem, hdecl, hreference, hexternal, -,
    hname⟩ := exists_shadowing
  exact ⟨root, l, m, d, i, reference, ["lib"], 0, [], hroot, hclose,
    ⟨linked, Except.eq_ok_of_toOption hlink, htext⟩, hmem, hdecl, hreference, hexternal, by decide,
    hname⟩

theorem shadowed_shadowing : ∃ root l m d i reference, shadowing.root ["main"] = .ok root ∧
    (⟨shadowing, ⟨.empty, false⟩, root⟩ : LinkJob).close 10 = .ok l ∧
    (⟨.decl ["main"] 1, []⟩, i) ∈ l.instances.toList ∧
    (⟨shadowing, ⟨.empty, false⟩, root⟩ : LinkJob).decl? ["main"] 1 = some (m, d) ∧
    reference ∈ m.references d ∧
    (⟨shadowing, ⟨.empty, false⟩, root⟩ : LinkJob).External m [] reference "max" ∧
    (∀ s ∈ i.renames, s.span ≠ reference.span) ∧
    (⟨shadowing, ⟨.empty, false⟩, root⟩ : LinkJob).FirstFree l ⟨.decl ["lib"] 0, []⟩ "max" := by
  obtain ⟨root, l, m, d, i, reference, hroot, hclose, hmem, hdecl, hreference, hexternal, hstart,
    hname⟩ := exists_shadowing
  have hbuilt : shadowing.Built := (built_ofSources _ _ _).1
  -- nothing below depends on what the registry is
  generalize shadowing = r at hroot hclose hdecl hexternal hstart hbuilt ⊢
  obtain ⟨hstays, hshadowed⟩ := @LinkJob.shadowed_iff ⟨r, ⟨.empty, false⟩, root⟩ l "max" m d []
    reference ["main"] 10 hbuilt hroot hclose ["main"] 1 i hmem hdecl hreference hexternal
  have hkey : ⟨.decl ["lib"] 0, []⟩ ∈ l.instances.keys := Linkage.mem_keys_iff_name?.2 ⟨_, hname⟩
  rcases (hshadowed _ hkey).1 hname with hkept | ⟨-, hfree⟩
  · rw [hstart] at hkept
    cases hkept
  · exact ⟨root, l, m, d, i, reference, hroot, hclose, hmem, hdecl, hreference, hexternal, hstays,
      hfree⟩

end Registry

end ShaderLink
