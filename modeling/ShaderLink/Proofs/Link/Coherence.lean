import ShaderLink.Link.Basic
import ShaderLink.Proofs.Link.Provenance

/-!
# Linking is coherent

Once the declarations needed come to an end, linking succeeds: no splice that it asks for cuts a
character or overlaps another, every map can be merged with the one before it, and the entries of
the linked text cover it exactly. So none of the faults that putting texts together could have ever
comes up, whatever the modules, generators and options are.
-/

namespace ShaderLink

namespace Registry

variable {r : Registry} {path : ModulePath} {root : Module}

theorem module?_of_root (h : r.root path = .ok root) : r.module? path = some root := by
  rw [Registry.root] at h
  split at h
  · rename_i m hm
    rw [hm, Except.ok.inj h]
  · cases h
  · cases h

/-- Linking that succeeds has closed a linkage and put its text together. -/
theorem exists_of_link {options : LinkOptions} {bound : Nat} {linked : Linked}
    (h : r.link options path bound = .ok linked) :
    ∃ root l, r.root path = .ok root ∧ (⟨r, options, root⟩ : LinkJob).close bound = .ok l ∧
      (⟨r, options, root⟩ : LinkJob).output l = .ok linked := by
  obtain ⟨root, hroot, hrest⟩ := Except.bind_eq_ok.1 h
  obtain ⟨l, hclose, houtput⟩ := Except.bind_eq_ok.1 hrest
  refine ⟨root, l, hroot, hclose, ?_⟩
  cases hout : (⟨r, options, root⟩ : LinkJob).output l with
  | ok linked' =>
    rw [hout] at houtput
    rw [Except.ok.inj houtput]
  | error e =>
    rw [hout] at houtput
    cases houtput

end Registry

namespace LinkJob

variable {job : LinkJob} {path : ModulePath} {bound : Nat} {l : Linkage}

/-- A link that starts from a module of the registry is sound. -/
theorem sound_of_root (hr : job.registry.Built) (hroot : job.registry.root path = .ok job.root) :
    job.Sound := by
  have hm := Registry.module?_of_root hroot
  exact ⟨hr, by rwa [hr.path_eq hm]⟩

/-- Linking is closing the linkage and putting its text together. -/
theorem link_eq (hroot : job.registry.root path = .ok job.root) (bound : Nat) :
    job.registry.link job.options path bound =
      job.close bound >>= fun l ↦ (job.output l).mapError .fault := by
  rw [Registry.link, hroot]
  rfl

/-- The linked text is put together once the work list is closed. -/
theorem link_of_close (hroot : job.registry.root path = .ok job.root)
    (hclose : job.close bound = .ok l) :
    job.registry.link job.options path bound = (job.output l).mapError .fault := by
  rw [link_eq hroot, hclose]
  rfl

/-- Whenever the visits come to an end, linking succeeds. The splices of the root and of every
instance suit their texts, and the entries of the linked text follow one another from its start to
its end. -/
theorem link_coherent (hr : job.registry.Built) (hroot : job.registry.root path = .ok job.root)
    (hclose : job.close bound = .ok l) :
    Splice.Suit job.root.text job.root.text.span
        (job.root.deletions ++ (job.ownRenames l).flatMap Prod.snd) ∧
      (∀ module index args i m d, (⟨.decl module index, args⟩, i) ∈ l.instances.toList →
        job.decl? module index = some (m, d) → Splice.Suit m.text d.span i.renames) ∧
      ∃ linked, job.registry.link job.options path bound = .ok linked ∧
        linked.map.coverage = .ok () ∧ Tiles 0 linked.map.entries linked.map.text.size ∧
        ∀ e ∈ linked.map.entries, 0 < e.target.size := by
  have hjob := sound_of_root hr hroot
  have hclosed := closed_of_close hjob hclose
  obtain ⟨conditions, hconditions⟩ := hr.exists_parsedUnder
  obtain ⟨linked, hlinked, hexact, -, -⟩ := hclosed.exists_output hjob hconditions
  refine ⟨hclosed.suit_root hjob, fun module index args i m d hmem hdecl ↦
    hclosed.suit_renames hjob hmem rfl hdecl, linked, ?_, hexact.tiled.coverage, hexact.tiled,
    hexact.size_pos⟩
  rw [link_of_close hroot hclose, hlinked]
  rfl

end LinkJob

namespace Registry

/-- A root that imports the same name from two modules and from a generator. One of the modules has
a directive, the other a parameter and lines that are left out. -/
def clashing : Registry :=
  ofSources .default
    [("main", ("import a/foo as fa;\nimport b/foo(f32) as fb;\nimport gen/foo as fg;\n" ++
        "const sum = fa + fb + fg;\n").toList),
      ("a", "enable f16;\nconst foo = 1;\n".toList),
      ("b", "#if DEBUG\nconst foo = 0;\n#endif\n#export(T)\nconst foo = T(2);\n".toList)]
    [⟨["gen"], "foo", [], fun name _ ↦ ("const " ++ name ++ " = 3;").toList⟩]

/-- Here is a name that three modules declare, and what is linked from them. -/
theorem clashing_link : ∃ linked, clashing.link ⟨.empty, false⟩ ["main"] 10 = .ok linked ∧
    linked.map.text = ("enable f16;\nconst sum = foo + foo0 + foo1;\n\nconst foo = 1;\n\n" ++
      "const foo0 = f32(2);\n\nconst foo1 = 3;").toList := by
  have heval : (clashing.link ⟨.empty, false⟩ ["main"] 10).toOption.map
      (fun linked ↦ linked.map.text) =
        some ("enable f16;\nconst sum = foo + foo0 + foo1;\n\nconst foo = 1;\n\n" ++
          "const foo0 = f32(2);\n\nconst foo1 = 3;").toList := by
    decide +kernel
  obtain ⟨linked, hlink, htext⟩ := Option.map_eq_some_iff.1 heval
  exact ⟨linked, Except.eq_ok_of_toOption hlink, htext⟩

theorem link_coherent_clashing : ∃ root l linked, clashing.root ["main"] = .ok root ∧
    (⟨clashing, ⟨.empty, false⟩, root⟩ : LinkJob).close 10 = .ok l ∧
    clashing.link ⟨.empty, false⟩ ["main"] 10 = .ok linked ∧ linked.map.coverage = .ok () ∧
    0 < linked.map.text.size := by
  obtain ⟨linked, hlink, htext⟩ := clashing_link
  obtain ⟨root, l, hroot, hclose, -⟩ := exists_of_link hlink
  have hbuilt : clashing.Built := (built_ofSources _ _ _).1
  obtain ⟨-, -, linked', hlink', hcoverage, -, -⟩ :=
    @LinkJob.link_coherent ⟨clashing, ⟨.empty, false⟩, root⟩ ["main"] 10 l hbuilt hroot hclose
  obtain rfl := Except.ok.inj (hlink.symm.trans hlink')
  exact ⟨root, l, linked, hroot, hclose, hlink, hcoverage, by rw [htext]; decide +kernel⟩

end Registry

end ShaderLink
