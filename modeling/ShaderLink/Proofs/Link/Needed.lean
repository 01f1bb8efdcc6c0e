import ShaderLink.Proofs.Link.Coherence
import ShaderLink.Proofs.Link.Reaches

/-!
# Exactly what is needed is linked

An instance is **needed** if it is a declaration of the root, if a reference or an argument in a
needed instance means it, or if whole modules are asked for and it is a declaration of a module that
contributes (`LinkJob.Needed`). When linking comes to an end, the instances are those needed: each
visit adds what the instance visited needs, and in the end all instances have been visited. Each
instance is there once. Those that are declarations of the root without parameters stay in the text
of the root, and every other one makes one piece of the linked text, in the order of the instances.
-/

namespace ShaderLink

namespace LinkJob

variable (job : LinkJob)

/-- The instance is needed, judging by the names in a linkage. -/
inductive Needed (l : Linkage) : InstanceKey → Prop
  | root {d : Nat × Decl} (hd : d ∈ job.root.decls) : Needed l ⟨.decl job.root.path d.1, []⟩
  | reference {module : ModulePath} {index : Nat} {args : Args} {m : Module} {d : Decl}
    {reference : Reference} {key : InstanceKey} (h : Needed l ⟨.decl module index, args⟩)
    (hdecl : job.decl? module index = some (m, d)) (hreference : reference ∈ m.references d)
    (hkey : job.referenceKey? l m args reference = some key) : Needed l key
  | argument {module : ModulePath} {index : Nat} {args : Args} {m : Module} {d : Decl}
    {reference : Reference} {key : InstanceKey} (h : Needed l ⟨.decl module index, args⟩)
    (hdecl : job.decl? module index = some (m, d)) (hreference : reference ∈ m.references d)
    (hkey : key ∈ job.argumentKeys m args reference) : Needed l key
  | whole {module : ModulePath} {index : Nat} {args : Args} {m : Module} {d : Nat × Decl}
    (hwhole : job.options.wholeFile = true) (h : Needed l ⟨.decl module index, args⟩)
    (hne : module ≠ job.root.path) (hm : job.registry.module? module = some m) (hd : d ∈ m.decls) :
    Needed l ⟨.decl module d.1, []⟩

variable {job} {l l' : Linkage} {key key' k : InstanceKey} {n bound : Nat} {path : ModulePath}

/-! ### What visits bring -/

theorem mem_keys_start_iff :
    key ∈ job.start.instances.keys ↔ ∃ d ∈ job.root.decls, key = ⟨.decl job.root.path d.1, []⟩ := by
  rw [Linkage.mem_keys_iff_name?]
  constructor
  · rintro ⟨name, hname⟩
    obtain ⟨d, hd, hkey, -⟩ := start_name?_mem hname
    exact ⟨d, hd, hkey⟩
  · rintro ⟨d, hd, rfl⟩
    exact ⟨_, start_name?_of_mem hd⟩

theorem complete_start (job : LinkJob) : job.Complete job.start where
  root := List.mem_singleton_self _
  whole := fun _ _ hmem hne ↦ absurd (List.mem_singleton.1 hmem) hne

/-- The instances after some visits are those of the start and what the visits brought. -/
theorem After.mem_keys_iff (h : job.After n l) (hjob : job.Sound) :
    job.Complete l ∧ ∀ l', l.Grows l' → ∀ key, key ∈ l.instances.keys ↔
      (∃ d ∈ job.root.decls, key = ⟨.decl job.root.path d.1, []⟩) ∨
        ∃ visited ∈ l.instances.keys.take n, ∃ k ∈ job.visitedKeys l' visited,
          job.Brings k key := by
  induction h with
  | start hrun =>
    obtain ⟨hcomplete, -, hkeys⟩ :=
      reaches_importMapOf job.root _ _ _ hrun (valid_start job) (complete_start job)
    refine ⟨hcomplete, fun l' hgrows key ↦ (hkeys l' hgrows key).trans ?_⟩
    rw [mem_keys_start_iff]
    simp
  | @visit n l l₁ visited i u h hget hrun ih =>
    obtain ⟨hcomplete, hkeys⟩ := ih
    obtain ⟨hcomplete', hgrows, hvisit⟩ :=
      reaches_visit hjob visited i.name l u l₁ hrun (h.visited hjob).1.valid hcomplete
    refine ⟨hcomplete', fun l' hgrows' key ↦ ?_⟩
    -- one more of the instances in front has been visited
    have htake : l₁.instances.keys.take (n + 1) = l.instances.keys.take n ++ [visited] := by
      have hplace : l.instances.keys[n]? = some visited := by
        rw [OrderedMap.keys, List.getElem?_map, hget]
        rfl
      obtain ⟨added, hadded⟩ := hgrows.keys
      have hlt := (List.getElem?_eq_some_iff.1 hplace).1
      rw [← hadded, List.take_append_of_le_length hlt, List.take_add_one, hplace]
      rfl
    rw [hvisit l' hgrows' key, hkeys l' (hgrows.trans hgrows') key, htake]
    simp only [List.mem_append, List.mem_singleton, or_and_right, exists_or, exists_eq_left,
      or_assoc]

/-! ### Needed instances -/

/-- What comes with a needed instance is needed. -/
theorem Needed.brings (h : job.Needed l k) (hbrings : job.Brings k key) : job.Needed l key := by
  cases hbrings with
  | self => exact h
  | whole hwhole htarget hne hm hd =>
    obtain ⟨target, args⟩ := k
    subst htarget
    exact .whole hwhole h hne hm hd

/-- What the visit of a needed instance reaches is needed. -/
theorem Needed.visited (h : job.Needed l key) (hk : k ∈ job.visitedKeys l key) :
    job.Needed l k := by
  obtain ⟨target, args⟩ := key
  rw [visitedKeys] at hk
  split at hk
  · cases hk
  · rename_i module index htarget
    split at hk
    · cases hk
    · rename_i m d hdecl
      subst htarget
      obtain ⟨reference, hreference, hk⟩ := List.mem_flatMap.1 hk
      rcases List.mem_append.1 hk with hk | hk
      · exact .argument h hdecl hreference hk
      · exact .reference h hdecl hreference (Option.mem_toList.1 hk)

/-- Only what is needed comes into a linkage. -/
theorem After.needed (h : job.After n l) (hjob : job.Sound) (hgrows : l.Grows l')
    (hkey : key ∈ l.instances.keys) : job.Needed l' key := by
  induction h generalizing key with
  | start hrun =>
    have hkeys := ((After.start hrun).mem_keys_iff hjob).2 l' hgrows key
    rw [List.take_zero] at hkeys
    obtain ⟨d, hd, rfl⟩ := (hkeys.1 hkey).resolve_right (by simp)
    exact .root hd
  | visit h hget hrun ih =>
    have hcomplete := (h.mem_keys_iff hjob).1
    obtain ⟨-, hgrows₁, hvisit⟩ :=
      reaches_visit hjob _ _ _ _ _ hrun (h.visited hjob).1.valid hcomplete
    rcases (hvisit l' hgrows key).1 hkey with hkey | ⟨k, hk, hbrings⟩
    · exact ih (hgrows₁.trans hgrows) hkey
    · have hvisited := ih (hgrows₁.trans hgrows)
        (List.mem_map_of_mem (List.mem_of_getElem? hget))
      exact (hvisited.visited hk).brings hbrings

/-- When linking comes to an end, the instances are those needed. -/
theorem mem_keys_iff_needed (hjob : job.Sound) (hclose : job.close bound = .ok l) :
    key ∈ l.instances.keys ↔ job.Needed l key := by
  obtain ⟨n, h, -, hsize⟩ := after_of_close hclose
  obtain ⟨hcomplete, hkeys⟩ := h.mem_keys_iff hjob
  have hcovered := (h.visited hjob).1.valid.covered
  have hall : l.instances.keys.take n = l.instances.keys :=
    List.take_of_length_le (by rwa [OrderedMap.keys, List.length_map])
  have hclosed {visited k : InstanceKey} (hvisited : visited ∈ l.instances.keys)
      (hk : k ∈ job.visitedKeys l visited) : k ∈ l.instances.keys :=
    (hkeys l (.refl l) k).2 (.inr ⟨visited, by rwa [hall], k, hk, .self⟩)
  have hreaches {module : ModulePath} {index : Nat} {args : Args} {m : Module} {d : Decl}
      {reference : Reference} (hmem : ⟨.decl module index, args⟩ ∈ l.instances.keys)
      (hdecl : job.decl? module index = some (m, d)) (hreference : reference ∈ m.references d)
      {k : InstanceKey} (hk : k ∈ job.linkedKeys l m args reference) : k ∈ l.instances.keys := by
    refine hclosed hmem ?_
    rw [visitedKeys]
    dsimp only
    rw [hdecl]
    exact List.mem_flatMap.2 ⟨reference, hreference, hk⟩
  refine ⟨h.needed hjob (.refl l), fun hneeded ↦ ?_⟩
  induction hneeded with
  | root hd => exact (hkeys l (.refl l) _).2 (.inl ⟨_, hd, rfl⟩)
  | reference _ hdecl hreference hkey ih =>
    exact hreaches ih hdecl hreference (List.mem_append_right _ (Option.mem_toList.2 hkey))
  | argument _ hdecl hreference hkey ih =>
    exact hreaches ih hdecl hreference (List.mem_append_left _ hkey)
  | whole hwhole _ hne hm hd ih =>
    exact hcomplete.whole hwhole _ (hcovered _ ih _ _ rfl) hne _ hm _ hd

/-! ### Targets -/

/-- What a reference or an argument resolves to is in the registry. -/
theorem has_of_resolution (hr : job.registry.Built) {m : Module}
    {reference exportPath : List String} {target : Target} {given : Option (List String)}
    (h : job.resolution m reference = .found target exportPath given) :
    job.registry.Has target := by
  rw [resolution] at h
  split at h
  · rename_i imports warnings hmap
    exact (Module.leads_of_importMap hr hmap (ImportMap.get?_of_resolve h)).has
  · cases h

theorem has_of_referenceKey? (hr : job.registry.Built) {m : Module} {args : Args}
    {reference : Reference} (hm : job.registry.module? m.path = some m)
    (h : job.referenceKey? l m args reference = some key) : job.registry.Has key.target := by
  rw [referenceKey?] at h
  split at h
  · rw [boundKey?] at h
    split at h
    · obtain ⟨d, hfind, rfl⟩ := Option.map_eq_some_iff.1 h
      exact ⟨m, d.2, hm, Module.mem_decls_iff.1 (List.mem_of_find?_eq_some hfind)⟩
    · cases h
  · split at h
    · cases h
    · split at h
      · rename_i hfound
        obtain rfl := Option.some.inj h
        exact has_of_resolution hr hfound
      · cases h

theorem has_of_mem_argumentKeys (hr : job.registry.Built) {m : Module} {args : Args}
    {reference : Reference} (hm : job.registry.module? m.path = some m)
    (h : key ∈ job.argumentKeys m args reference) : job.registry.Has key.target := by
  have harg {arg : String} (h : job.linkedArg? m args arg = some key) :
      job.registry.Has key.target := by
    rw [linkedArg?] at h
    split at h
    · cases h
    · rw [argKey?] at h
      split at h
      · rename_i d hfind
        obtain rfl := Option.some.inj h
        exact ⟨m, d.2, hm, Module.mem_decls_iff.1 (List.mem_of_find?_eq_some hfind)⟩
      · split at h
        · rename_i hfound
          obtain rfl := Option.some.inj h
          exact has_of_resolution hr hfound
        · cases h
  rw [argumentKeys] at h
  split at h
  · cases h
  · split at h
    · cases h
    · split at h
      · obtain ⟨arg, -, hkey⟩ := List.mem_filterMap.1 h
        exact harg hkey
      · cases h

/-- Only what is in the registry is needed. -/
theorem Needed.has (h : job.Needed l key) (hjob : job.Sound) : job.registry.Has key.target := by
  cases h with
  | root hd => exact ⟨job.root, _, hjob.root, Module.mem_decls_iff.1 hd⟩
  | reference _ hdecl _ hkey =>
    exact has_of_referenceKey? hjob.built (hjob.module?_path (decl?_eq_some hdecl).1) hkey
  | argument _ hdecl _ hkey =>
    exact has_of_mem_argumentKeys hjob.built (hjob.module?_path (decl?_eq_some hdecl).1) hkey
  | whole _ _ _ hm hd => exact ⟨_, _, hm, Module.mem_decls_iff.1 hd⟩

/-! ### The linked text -/

theorem keys_start (job : LinkJob) : job.start.instances.keys =
    job.root.decls.map fun d ↦ ⟨.decl job.root.path d.1, []⟩ := by
  rw [start, OrderedMap.keys, OrderedMap.toList_ofList, List.map_map]
  · rfl
  · rw [List.map_map]
    refine List.pairwise_map.2 ((List.pairwise_map.1 job.root.nodup_decls).imp fun hne heq ↦ ?_)
    exact hne (Target.decl.inj (InstanceKey.mk.inj heq).1).2

theorem isOwn_decl (job : LinkJob) (index : Nat) :
    job.isOwn ⟨.decl job.root.path index, []⟩ = true := by
  simp [isOwn]

/-- The instances that stay in the text of the root are its declarations. -/
theorem filter_isOwn (hjob : job.Sound) (hgrows : job.start.Grows l)
    (hhas : ∀ key ∈ l.instances.keys, job.registry.Has key.target) :
    l.instances.keys.filter job.isOwn =
      job.root.decls.map fun d ↦ ⟨.decl job.root.path d.1, []⟩ := by
  obtain ⟨added, hadded⟩ := hgrows.keys
  have hnodup := l.instances.nodup_keys
  have hown : ∀ key ∈ job.start.instances.keys, job.isOwn key = true := by
    rw [keys_start]
    intro key hkey
    obtain ⟨d, -, rfl⟩ := List.mem_map.1 hkey
    exact job.isOwn_decl d.1
  -- a declaration of the root that was added would be there twice
  have hother : ∀ key ∈ added, ¬ job.isOwn key = true := by
    intro key hkey hown
    obtain ⟨index, rfl⟩ := exists_index_of_isOwn hown
    obtain ⟨m, d, hm, hd⟩ := hhas _ (hadded ▸ List.mem_append_right _ hkey)
    obtain rfl := Option.some.inj (hjob.root.symm.trans hm)
    change l.instances.keys.Nodup at hnodup
    rw [← hadded] at hnodup
    refine (List.nodup_append.1 hnodup).2.2 _ ?_ _ hkey rfl
    exact mem_keys_start_iff.2 ⟨(index, d), Module.mem_decls_iff.2 hd, rfl⟩
  rw [← hadded, List.filter_append, List.filter_eq_self.2 hown, List.filter_eq_nil_iff.2 hother,
    List.append_nil, keys_start]

/-- Each instance of something in the registry that is no part of the root's own text has a text. -/
theorem isSome_pieceTraced? (conditions : ModulePath → String → Bool)
    {e : (InstanceKey × Instance) × Nat} (hhas : job.registry.Has e.1.1.target) :
    (job.pieceTraced? conditions e).isSome = !job.isOwn e.1.1 := by
  obtain ⟨⟨⟨target, args⟩, i⟩, place⟩ := e
  rw [pieceTraced?]
  cases hown : job.isOwn ⟨target, args⟩ with
  | true => rfl
  | false =>
    cases target with
    | decl module index =>
      obtain ⟨m, d, hm, hd⟩ := hhas
      simp [decl?, hm, hd]
    | generator module name =>
      obtain ⟨g, hg⟩ := Option.isSome_iff_exists.1 hhas
      have hg : job.registry.generator? module name = some g := hg
      simp [generated?, hg]

/-- Linking that succeeds has closed a linkage whose instances are those needed, each once. Those of
the root's own text are the declarations of the root, which nothing is deleted from, and each other
instance makes one piece of the text behind that of the root. -/
theorem needed_of_link (hr : job.registry.Built) (hroot : job.registry.root path = .ok job.root)
    {linked : Linked} (hlink : job.registry.link job.options path bound = .ok linked) :
    ∃ l, job.close bound = .ok l ∧ (∀ key, key ∈ l.instances.keys ↔ job.Needed l key) ∧
      l.instances.keys.Nodup ∧
      l.instances.keys.filter job.isOwn =
        job.root.decls.map (fun d ↦ ⟨.decl job.root.path d.1, []⟩) ∧
      (∀ d ∈ job.root.decls, ∀ s ∈ job.root.deletions, d.2.span.Apart s.span) ∧
      ∀ conditions, job.registry.ParsedUnder conditions → ∃ pieces,
        List.Forall₂ (fun e piece ↦ job.pieceTraced? conditions e = some piece)
          (l.instances.toList.zipIdx.filter fun e ↦ !job.isOwn e.1.1) pieces ∧
        linked.map.text = (Traced.assemble
          ((job.foreignDirectives l).map fun d ↦ (moduleTraced conditions d.1).excerpt d.2 [] [])
          (job.rootTraced conditions l) pieces).text := by
  have hjob := sound_of_root hr hroot
  obtain ⟨root, l, hroot', hclose, houtput⟩ := Registry.exists_of_link hlink
  obtain rfl : job.root = root := Except.ok.inj (hroot.symm.trans hroot')
  have hclosed : job.Closed l := closed_of_close hjob hclose
  have hneeded (key : InstanceKey) : key ∈ l.instances.keys ↔ job.Needed l key :=
    mem_keys_iff_needed hjob hclose
  have hhas : ∀ key ∈ l.instances.keys, job.registry.Has key.target :=
    fun key hkey ↦ ((hneeded key).1 hkey).has hjob
  refine ⟨l, hclose, hneeded, l.instances.nodup_keys, filter_isOwn hjob hclosed.grows hhas,
    fun d hd s hs ↦ ?_, fun conditions hconditions ↦ ?_⟩
  · -- an element that is deleted is no declaration, and different elements lie apart
    obtain ⟨options, file, source, hparse⟩ := hr.parsed hjob.root
    obtain ⟨place, e, he, hlinkage, hspan⟩ := Module.exists_of_mem_deletions hs
    have hd := Module.mem_elements_of_decl? (Module.mem_decls_iff.1 hd)
    have horder : job.root.InOrder := Module.elementsInOrder_of_parse hparse
    refine horder.apart_outer hd he ?_ rfl hspan
    rintro rfl
    obtain rfl := Option.some.inj (hd.symm.trans he)
    cases hlinkage
  · obtain ⟨linked', houtput', -, htraces, -⟩ := hclosed.exists_output hjob hconditions
    obtain rfl : linked' = linked := Except.ok.inj (houtput'.symm.trans houtput)
    refine ⟨_, forall₂_filterMap fun e he ↦ isSome_pieceTraced? conditions ?_, htraces.text⟩
    exact hhas _ (List.mem_map_of_mem (List.fst_mem_of_mem_zipIdx he))

end LinkJob

namespace Registry

/-- What the root that imports the same name from everywhere needs when whole modules are asked
for. -/
theorem needed_clashing : ∃ root l linked, clashing.root ["main"] = .ok root ∧
    (⟨clashing, ⟨.empty, true⟩, root⟩ : LinkJob).close 10 = .ok l ∧
    clashing.link ⟨.empty, true⟩ ["main"] 10 = .ok linked ∧
    ∀ key, (⟨clashing, ⟨.empty, true⟩, root⟩ : LinkJob).Needed l key ↔
      key ∈ [⟨.decl ["main"] 3, []⟩, ⟨.decl ["a"] 1, []⟩, ⟨.decl ["b"] 1, [("T", "f32")]⟩,
        ⟨.decl ["b"] 1, []⟩, ⟨.generator ["gen"] "foo", []⟩] := by
  have heval : (do
      let root ← (clashing.root ["main"]).toOption
      let l ← ((⟨clashing, ⟨.empty, true⟩, root⟩ : LinkJob).close 10).toOption
      let linked ← (clashing.link ⟨.empty, true⟩ ["main"] 10).toOption
      return (l.instances.keys, linked.warnings.length)) =
      some ([⟨.decl ["main"] 3, []⟩, ⟨.decl ["a"] 1, []⟩, ⟨.decl ["b"] 1, [("T", "f32")]⟩,
        ⟨.decl ["b"] 1, []⟩, ⟨.generator ["gen"] "foo", []⟩], 0) := by
    decide +kernel
  obtain ⟨root, hroot, heval⟩ := Option.bind_eq_some_iff.1 heval
  obtain ⟨l, hclose, heval⟩ := Option.bind_eq_some_iff.1 heval
  obtain ⟨linked, hlink, heval⟩ := Option.bind_eq_some_iff.1 heval
  obtain ⟨hkeys, -⟩ := Prod.mk.inj (Option.some.inj heval)
  have hroot := Except.eq_ok_of_toOption hroot
  have hclose := Except.eq_ok_of_toOption hclose
  have hlink := Except.eq_ok_of_toOption hlink
  have hbuilt : clashing.Built := (built_ofSources _ _ _).1
  -- nothing below depends on what the registry is
  generalize clashing = r at hroot hclose hlink hbuilt ⊢
  obtain ⟨l', hclose', hneeded, -⟩ :=
    @LinkJob.needed_of_link ⟨r, ⟨.empty, true⟩, root⟩ 10 ["main"] hbuilt hroot linked hlink
  obtain rfl := Except.ok.inj (hclose.symm.trans hclose')
  rw [← hkeys]
  exact ⟨root, l, linked, hroot, hclose, hlink, fun key ↦ (hneeded key).symm⟩

end Registry

end ShaderLink
