import ShaderLink.Proofs.Link.Needed
import ShaderLink.Proofs.Link.Steps
import ShaderLink.Proofs.Module.Spelling

/-!
# Linking a module that needs nothing

A module with no element that only directs the linking is **self-contained**. It imports nothing, so
no reference in it means anything outside of it, whatever else is in the registry. If it is the
root, the instances are its declarations and stay so, one visit for each of them is enough, and no
visit asks for any splice, because all declarations keep their names and references to them already
stand in the text as these names.
-/

namespace ShaderLink

/-- The module has no path of its own, imports nothing and marks nothing as exported. -/
def Module.SelfContained (m : Module) : Prop :=
  ∀ e ∈ m.elements, e.isLinkage = false

namespace Module.SelfContained

variable {m : Module}

instance (m : Module) : Decidable m.SelfContained :=
  inferInstanceAs (Decidable (∀ e ∈ m.elements, e.isLinkage = false))

/-- A module that needs no other imports nothing, -/
theorem importLeaves_eq (h : m.SelfContained) : m.importLeaves = [] := by
  refine List.flatMap_eq_nil_iff.2 fun e he ↦ ?_
  have hplain := h e he
  cases e with
  | importing tree dialect span => cases hplain
  | _ => rfl

theorem importMap_eq (h : m.SelfContained) (r : Registry) :
    m.importMap r = .ok (⟨[], .ofList []⟩, []) := by
  rw [importMap, h.importLeaves_eq]
  rfl

/-- and nothing is deleted from it. -/
theorem deletions_eq (h : m.SelfContained) : m.deletions = [] := by
  rw [deletions, List.filter_eq_nil_iff.2, List.map_nil]
  intro e he hlinkage
  rw [h e he] at hlinkage
  cases hlinkage

end Module.SelfContained

namespace LinkJob

variable {job : LinkJob} {l l' : Linkage} {key : InstanceKey} {m : Module} {n bound : Nat}

/-! ### Modules that contribute -/

/-- The modules that contribute are the root and those with instances. -/
def Contributing (job : LinkJob) (l : Linkage) : Prop :=
  ∀ module ∈ l.modules, module = job.root.path ∨
    ∃ index args, ⟨.decl module index, args⟩ ∈ l.instances.keys

theorem stepClosed_contributing (job : LinkJob) :
    job.StepClosed fun l l' ↦ job.Contributing l → job.Contributing l' where
  refl _ := id
  trans h h' := h' ∘ h
  reach key l h := by
    obtain ⟨name, l', hreach⟩ : ∃ name l', job.reach key l = (name, l') := ⟨_, _, rfl⟩
    have hnotes := (job.reach_notes key l).2
    rw [hreach] at hnotes ⊢
    obtain ⟨hextends, hname⟩ := job.extends_reach hreach
    intro module hmodule
    rcases hnotes module hmodule with hmodule | ⟨index, htarget⟩
    · refine (h module hmodule).imp_right ?_
      rintro ⟨index, args, hkey⟩
      exact ⟨index, args, hextends.grows.keys.subset hkey⟩
    · refine .inr ⟨index, key.args, Linkage.mem_keys_iff_name?.2 ⟨name, ?_⟩⟩
      rw [← htarget]
      exact hname
  note _ _ _ := id
  settle key renames l h := by
    intro module hmodule
    rw [OrderedMap.keys_modify]
    exact h module hmodule

/-- At every visit, the modules that contribute are the root and those with instances. -/
theorem After.contributing (h : job.After n l) : job.Contributing l := by
  have hR := job.stepClosed_contributing
  induction h with
  | start hrun =>
    refine hR.importMapOf job.root _ _ _ hrun fun module hmodule ↦ .inl ?_
    exact List.mem_singleton.1 hmodule
  | visit _ _ hrun ih => exact hR.visit _ _ _ _ _ hrun ih

/-! ### Nothing is reached -/

/-- Nothing is found for its references. -/
theorem resolution_eq_unresolved (h : m.SelfContained) (path : List String) :
    job.resolution m path = .unresolved := by
  rw [resolution, h.importMap_eq]
  rfl

theorem not_blocked_of_selfContained (h : m.SelfContained) (e : LinkError) : ¬ job.Blocked m e :=
  not_blocked (h.importMap_eq job.registry) (Nat.zero_le 1) e

/-- What a reference in a self-contained module means is a declaration that it is bound to. -/
theorem exists_of_referenceKey? (h : m.SelfContained) {args : Args} {reference : Reference}
    (hkey : job.referenceKey? l m args reference = some key) :
    ∃ binding d, m.binding? reference = some binding ∧ d ∈ m.decls ∧ d.2.ident = binding ∧
      key = ⟨.decl m.path d.1, args⟩ := by
  rw [referenceKey?] at hkey
  split at hkey
  · rename_i binding hbinding
    rw [boundKey?] at hkey
    split at hkey
    · obtain ⟨d, hfind, rfl⟩ := Option.map_eq_some_iff.1 hkey
      exact ⟨binding, d, hbinding, List.mem_of_find?_eq_some hfind,
        by simpa using List.find?_some hfind, rfl⟩
    · cases hkey
  · split at hkey
    · cases hkey
    · rw [resolution_eq_unresolved h] at hkey
      cases hkey

theorem argumentKeys_eq_nil (h : m.SelfContained) (args : Args) (reference : Reference) :
    job.argumentKeys m args reference = [] := by
  rw [argumentKeys]
  split
  · rfl
  · split
    · rfl
    · rw [resolution_eq_unresolved h]

/-- A self-contained root needs nothing but its own declarations. -/
theorem Needed.exists_decl (h : job.Needed l key) (hjob : job.Sound)
    (hself : job.root.SelfContained) :
    ∃ d ∈ job.root.decls, key = ⟨.decl job.root.path d.1, []⟩ := by
  -- whatever is in an instance is in the root
  have hroot {module : ModulePath} {index : Nat} {args : Args} {m : Module} {d : Decl}
      (hdecl : job.decl? module index = some (m, d))
      (hkey : ∃ d ∈ job.root.decls,
        (⟨.decl module index, args⟩ : InstanceKey) = ⟨.decl job.root.path d.1, []⟩) :
      m = job.root ∧ args = [] := by
    obtain ⟨d', -, heq⟩ := hkey
    obtain ⟨htarget, rfl⟩ := InstanceKey.mk.inj heq
    obtain ⟨rfl, -⟩ := Target.decl.inj htarget
    exact ⟨Option.some.inj ((decl?_eq_some hdecl).1.symm.trans hjob.root), rfl⟩
  induction h with
  | root hd => exact ⟨_, hd, rfl⟩
  | reference _ hdecl _ hkey ih =>
    obtain ⟨rfl, rfl⟩ := hroot hdecl ih
    obtain ⟨binding, d, -, hd, -, rfl⟩ := exists_of_referenceKey? hself hkey
    exact ⟨d, hd, rfl⟩
  | argument _ hdecl _ hkey ih =>
    obtain ⟨rfl, rfl⟩ := hroot hdecl ih
    rw [argumentKeys_eq_nil hself] at hkey
    cases hkey
  | whole _ _ hne _ _ ih =>
    obtain ⟨d, -, heq⟩ := ih
    exact absurd (Target.decl.inj (InstanceKey.mk.inj heq).1).1 hne

/-- All instances are declarations of the root. -/
theorem After.exists_decl (h : job.After n l) (hjob : job.Sound) (hself : job.root.SelfContained)
    (hkey : key ∈ l.instances.keys) :
    ∃ d ∈ job.root.decls, key = ⟨.decl job.root.path d.1, []⟩ :=
  (h.needed hjob (.refl l) hkey).exists_decl hjob hself

/-- The instances are those of the start. -/
theorem After.keys_eq (h : job.After n l) (hjob : job.Sound) (hself : job.root.SelfContained) :
    l.instances.keys = job.root.decls.map fun d ↦ ⟨.decl job.root.path d.1, []⟩ := by
  have hall : l.instances.keys.filter job.isOwn = l.instances.keys := by
    refine List.filter_eq_self.2 fun key hkey ↦ ?_
    obtain ⟨d, -, rfl⟩ := h.exists_decl hjob hself hkey
    exact job.isOwn_decl d.1
  rw [← hall]
  refine filter_isOwn hjob (h.visited hjob).2 fun key hkey ↦ ?_
  exact (h.needed hjob (.refl l) hkey).has hjob

/-- There are no other instances than its own declarations. -/
theorem After.size_eq (h : job.After n l) (hjob : job.Sound) (hself : job.root.SelfContained) :
    l.instances.size = job.root.decls.length := by
  have hlength := congrArg List.length (h.keys_eq hjob hself)
  rwa [OrderedMap.keys, List.length_map, List.length_map] at hlength

/-- No visit fails. -/
theorem exists_after (hjob : job.Sound) (hself : job.root.SelfContained)
    (hn : n ≤ job.root.decls.length) : ∃ l, job.After n l := by
  induction n with
  | zero =>
    cases hrun : (job.importMapOf job.root).run job.start with
    | ok r => exact ⟨r.2, .start hrun⟩
    | error e =>
      have hblocked := failsBy_importMapOf job.root job.start e (valid_start job) hrun
      exact absurd hblocked (not_blocked_of_selfContained hself e)
  | succ n ih =>
    obtain ⟨l, h⟩ := ih (Nat.le_of_succ_le hn)
    have hlt : n < l.instances.toList.length := by
      rw [← OrderedMap.size, h.size_eq hjob hself]
      exact hn
    obtain ⟨⟨key, i⟩, hget⟩ : ∃ found, l.instances.toList[n]? = some found :=
      ⟨_, List.getElem?_eq_getElem hlt⟩
    cases hrun : (job.visit key i.name).run l with
    | ok r => exact ⟨r.2, .visit h hget hrun⟩
    | error e =>
      obtain ⟨module, index, m, d, htarget, hdecl, hblocked⟩ :=
        exists_blocked_of_visit hjob (h.visited hjob).1.valid hrun
      -- the module of the instance is the root
      have hkey : key ∈ l.instances.keys :=
        List.mem_map_of_mem (List.mem_of_getElem? hget)
      obtain ⟨d', -, rfl⟩ := h.exists_decl hjob hself hkey
      obtain ⟨rfl, -⟩ := Target.decl.inj htarget
      obtain rfl := Option.some.inj ((decl?_eq_some hdecl).1.symm.trans hjob.root)
      exact absurd hblocked (not_blocked_of_selfContained hself e)

/-- One visit for each declaration of the root is enough. -/
theorem exists_close (hjob : job.Sound) (hself : job.root.SelfContained)
    (hbound : job.root.decls.length ≤ bound) :
    ∃ l, job.After job.root.decls.length l ∧ job.close bound = .ok l := by
  obtain ⟨l, h⟩ := exists_after hjob hself le_rfl
  exact ⟨l, h, (h.stops (h.size_eq hjob hself).le).close_eq bound hbound⟩

/-! ### Nothing is renamed -/

/-- A reference already stands in the text as the name of what it means. -/
theorem renameIn?_eq_none (hjob : job.Sound) (hself : job.root.SelfContained)
    (hgrows : job.start.Grows l) {reference : Reference}
    (hreference : .reference reference ∈ job.root.elements) :
    job.renameIn? l job.root [] reference = none := by
  rw [renameIn?]
  cases hkey : job.referenceKey? l job.root [] reference with
  | none => rfl
  | some key =>
    obtain ⟨binding, ⟨index, d⟩, hbinding, hd, hident, rfl⟩ := exists_of_referenceKey? hself hkey
    obtain ⟨ident, hget, hbound⟩ := Option.bind_eq_some_iff.1 hbinding
    obtain ⟨options, file, source, hparse⟩ := hjob.built.parsed hjob.root
    have hmem : .decl d ∈ job.root.elements :=
      List.mem_of_getElem? (Module.mem_elements_of_decl? (Module.mem_decls_iff.1 hd))
    have hslice := Module.slice?_of_bound hparse hreference hget hbound hmem hident
    rw [Option.bind_some, hgrows.names _ _ (start_name?_of_mem hd), Option.bind_some, if_pos hslice]

/-- No instance has splices. -/
theorem Closed.renames_eq_nil (h : job.Closed l) (hjob : job.Sound)
    (hself : job.root.SelfContained) {i : Instance} {d : Nat × Decl} (hd : d ∈ job.root.decls)
    (hmem : (⟨.decl job.root.path d.1, []⟩, i) ∈ l.instances.toList) : i.renames = [] := by
  have hdecl : job.decl? job.root.path d.1 = some (job.root, d.2) := by
    simp [decl?, hjob.root, Module.mem_decls_iff.1 hd]
  have hname : i.name = d.2.name := by
    have hstart := h.grows.names _ _ (start_name?_of_mem hd)
    exact Option.some.inj ((Linkage.name?_of_mem hmem).symm.trans hstart)
  rw [(h.settled _ i hmem).renames_decl rfl hdecl, declRenames, if_pos hname, List.nil_append]
  refine List.filterMap_eq_nil_iff.2 fun reference hreference ↦ ?_
  obtain ⟨e, he, hr⟩ := List.mem_filterMap.1 hreference
  refine renameIn?_eq_none hjob hself h.grows ?_
  cases e with
  | reference r =>
    obtain rfl := Option.some.inj hr
    exact List.mem_of_mem_drop (List.mem_of_mem_take he)
  | _ => cases hr

end LinkJob

end ShaderLink
