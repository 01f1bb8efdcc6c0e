import ShaderLink.Proofs.Link.Locate
import ShaderLink.Proofs.Link.SelfContained

/-!
# A self-contained root is linked to itself

If the root is self-contained, its linked text is the text that was parsed, and each byte of it is
located where the module's own map says it comes from (`LinkJob.round_trip`). What the linkage means
is already the text of the module with its origins (`LinkJob.traced_eq`): nothing is cut or renamed,
no other module contributes a directive, and no instance makes a piece of its own.
-/

namespace ShaderLink

namespace Traced

variable {tr : Traced}

/-- Without splices everything stays. -/
theorem splice_nil (tr : Traced) : tr.splice tr.text.span [] = tr := by
  show tr.slice (Span.between 0 (0 + tr.text.size)) = tr
  rw [Nat.zero_add]
  exact tr.slice_span

/-- Without directives and pieces there is only the text of the root. -/
theorem assemble_nil (tr : Traced) : assemble [] tr [] = tr :=
  Traced.ext rfl rfl

end Traced

namespace LinkJob

variable {job : LinkJob} {conditions : ModulePath → String → Bool} {l : Linkage} {n bound : Nat}
  {path : ModulePath}

/-! ### The parts of the text -/

/-- All instances are part of the root's own text. -/
theorem After.isOwn (h : job.After n l) (hjob : job.Sound) (hself : job.root.SelfContained)
    {e : InstanceKey × Instance} (he : e ∈ l.instances.toList) : job.isOwn e.1 = true := by
  obtain ⟨d, -, hkey⟩ := h.exists_decl hjob hself (List.mem_map_of_mem he)
  rw [hkey]
  exact job.isOwn_decl d.1

/-- Only the root contributes. -/
theorem After.eq_root (h : job.After n l) (hjob : job.Sound) (hself : job.root.SelfContained)
    {m : Module} (hm : m ∈ job.contributors l) : m = job.root := by
  obtain ⟨module, hmodule, hfound⟩ := List.mem_filterMap.1 hm
  suffices hpath : module = job.root.path by
    rw [hpath] at hfound
    exact Option.some.inj (hfound.symm.trans hjob.root)
  rcases h.contributing module hmodule with hpath | ⟨index, args, hkey⟩
  · exact hpath
  · obtain ⟨d, -, hdecl⟩ := h.exists_decl hjob hself hkey
    exact (Target.decl.inj (InstanceKey.mk.inj hdecl).1).1

/-- Nothing is spliced in the text of the root. -/
theorem rootTraced_eq (h : job.After n l) (hclosed : job.Closed l) (hjob : job.Sound)
    (hself : job.root.SelfContained) (hconditions : job.registry.ParsedUnder conditions) :
    job.rootTraced conditions l = moduleTraced conditions job.root := by
  have hrenames : (job.ownRenames l).flatMap Prod.snd = [] := by
    refine List.flatMap_eq_nil_iff.2 fun r hr ↦ ?_
    obtain ⟨⟨key, i⟩, he, rfl⟩ := List.mem_map.1 hr
    obtain ⟨hmem, -⟩ := List.mem_filter.1 he
    obtain ⟨d, hd, rfl⟩ := h.exists_decl hjob hself (List.mem_map_of_mem hmem)
    exact hclosed.renames_eq_nil hjob hself hd hmem
  rw [rootTraced, hself.deletions_eq, hrenames, List.append_nil,
    (moduleSound hjob hconditions hjob.root).text_eq]
  exact Traced.splice_nil _

/-- No other module contributes a directive. -/
theorem After.foreignDirectives_eq (h : job.After n l) (hjob : job.Sound)
    (hself : job.root.SelfContained) : job.foreignDirectives l = [] := by
  have hothers : (job.contributors l).filter (fun m ↦ m.path != job.root.path) = [] := by
    refine List.filter_eq_nil_iff.2 fun m hm ↦ ?_
    rw [h.eq_root hjob hself hm, bne_self_eq_false]
    exact Bool.false_ne_true
  rw [foreignDirectives, hothers]
  rfl

/-- The linkage of a self-contained root means the text of the root. -/
theorem traced_eq (h : job.After n l) (hclosed : job.Closed l) (hjob : job.Sound)
    (hself : job.root.SelfContained) (hconditions : job.registry.ParsedUnder conditions) :
    job.traced conditions l = moduleTraced conditions job.root := by
  have hpieces : l.instances.toList.zipIdx.filterMap (job.pieceTraced? conditions) = [] := by
    refine List.filterMap_eq_nil_iff.2 fun e he ↦ ?_
    rw [pieceTraced?, if_pos (h.isOwn hjob hself (List.fst_mem_of_mem_zipIdx he))]
  rw [traced, h.foreignDirectives_eq hjob hself, hpieces, List.map_nil,
    rootTraced_eq h hclosed hjob hself hconditions]
  exact Traced.assemble_nil _

/-- The only text that the linked text comes from is that of the root. -/
theorem After.eq_file (h : job.After n l) (hjob : job.Sound) (hself : job.root.SelfContained)
    {file : SourceText} (hfile : file ∈ job.files l) : file = job.root.file := by
  rcases List.mem_append.1 hfile with hfile | hfile
  · obtain ⟨m, hm, rfl⟩ := List.mem_map.1 hfile
    rw [h.eq_root hjob hself hm]
  · -- a generated text is that of a generator, which is no part of the root
    obtain ⟨⟨⟨key, i⟩, place⟩, he, hgenerated⟩ := List.mem_filterMap.1 hfile
    obtain ⟨index, rfl⟩ :=
      exists_index_of_isOwn (h.isOwn hjob hself (List.fst_mem_of_mem_zipIdx he))
    cases hgenerated

/-- Looking up the id of the root finds its source. -/
theorem After.get?_files (h : job.After n l) (hclosed : job.Closed l) (hjob : job.Sound)
    (hself : job.root.SelfContained) :
    (OrderedMap.ofList ((job.files l).map fun file ↦ (file.id, file.text))).get?
      job.root.sourceId = some job.root.source := by
  refine OrderedMap.get?_ofList_of_unique ?_ fun t ht ↦ ?_
  · exact List.mem_map_of_mem (file_mem_files (hclosed.root_mem_contributors hjob))
  · obtain ⟨file, hfile, heq⟩ := List.mem_map.1 ht
    rw [h.eq_file hjob hself hfile] at heq
    exact (Prod.mk.inj heq).2.symm

/-! ### The round trip -/

/-- Every byte of a module comes from its source, and the map of the module says from where. -/
theorem exists_origin? (hjob : job.Sound) (hconditions : job.registry.ParsedUnder conditions)
    {p : Nat} (hp : p < job.root.text.size) :
    ∃ n, (moduleTraced conditions job.root).origins[p]? = some (.copied job.root.file n) ∧
      job.root.map.origin? p = some ⟨job.root.sourceId, n⟩ := by
  have hsound := moduleSound hjob hconditions hjob.root
  have hlt : p < (moduleTraced conditions job.root).origins.length := by
    rwa [Traced.length_origins, ← hsound.text_eq]
  have hget := List.getElem?_eq_getElem hlt
  obtain ⟨n, hn⟩ := Conditional.copied_traced _ _ _ (List.mem_of_getElem? hget)
  rw [hn] at hget
  exact ⟨n, hget, hsound.traces.origin?_of_copied hsound.exact.tiled hget⟩

/-- A self-contained root is linked to its own text. -/
theorem exists_link (hr : job.registry.Built) (hroot : job.registry.root path = .ok job.root)
    (hself : job.root.SelfContained) (hconditions : job.registry.ParsedUnder conditions)
    (hbound : job.root.decls.length ≤ bound) :
    ∃ l linked, job.After job.root.decls.length l ∧ job.Closed l ∧
      job.registry.link job.options path bound = .ok linked ∧ linked.map.Exact ∧
      linked.map.Traces (moduleTraced conditions job.root) ∧
      linked.map.text = job.root.text ∧
      linked.sources = .ofList ((job.files l).map fun file ↦ (file.id, file.text)) := by
  have hjob := sound_of_root hr hroot
  obtain ⟨l, hafter, hclose⟩ := exists_close hjob hself hbound
  have hclosed := closed_of_close hjob hclose
  obtain ⟨linked, houtput, hexact, htraces, hsources⟩ := hclosed.exists_output hjob hconditions
  rw [traced_eq hafter hclosed hjob hself hconditions] at htraces
  refine ⟨l, linked, hafter, hclosed, ?_, hexact, htraces, ?_, hsources⟩
  · rw [link_of_close hroot hclose, houtput]
    rfl
  · rw [htraces.text, (moduleSound hjob hconditions hjob.root).text_eq]

/-- A self-contained root is linked with one visit for each of its declarations, whatever else is in
the registry and whatever the options are. The linked text is the text that was parsed, and every
byte of it is located in the source of the root at the offset that the module's own map gives. -/
theorem round_trip (hr : job.registry.Built) (hroot : job.registry.root path = .ok job.root)
    (hself : job.root.SelfContained) (hbound : job.root.decls.length ≤ bound) :
    ∃ linked, job.registry.link job.options path bound = .ok linked ∧
      linked.map.text = job.root.text ∧
      ∀ p < linked.map.text.size, ∃ n,
        job.root.map.origin? p = some ⟨job.root.sourceId, n⟩ ∧
        linked.locate? p =
          some ⟨job.root.sourceId, n, Text.position job.root.source n⟩ := by
  have hjob := sound_of_root hr hroot
  obtain ⟨conditions, hconditions⟩ := hr.exists_parsedUnder
  obtain ⟨l, linked, hafter, hclosed, hlink, hexact, htraces, htext, hsources⟩ :=
    exists_link hr hroot hself hconditions hbound
  refine ⟨linked, hlink, htext, fun p hp ↦ ?_⟩
  rw [htext] at hp
  -- the bytes of the root are copied from its file, and only they are there
  obtain ⟨n, hcopied, horigin⟩ := exists_origin? hjob hconditions hp
  refine ⟨n, horigin, Linked.locate?_eq_some ?_ ?_⟩
  · exact htraces.origin?_of_copied hexact.tiled hcopied
  · rw [hsources]
    exact hafter.get?_files hclosed hjob hself

end LinkJob

namespace Registry

/-- A root with conditional lines, two declarations of one name, a local of that name, and
references that nothing is imported for, although there is a module that imports from the root and
would be included completely. -/
def standalone : Registry :=
  ofSources .default
    [("main", ("#if DEBUG\nconst level = 2;\n#endif\nconst a = 1;\nconst a = 2;\n" ++
        "fn f(x: i32) \x7b let a = sin(x.y); g(a, b::c, lib::g, s.a); \x7d\n" ++
        "fn h() \x7b f(a); \x7d\n").toList),
      ("lib", "import main/f;\nenable f16;\n#export\nfn g() \x7b f(1); \x7d\n".toList)]
    [⟨["gen"], "g", [], fun name _ ↦ ("const " ++ name ++ " = 3;").toList⟩]

/-- The first byte of the linked text stands behind the lines that are left out. -/
theorem round_trip_standalone : ∃ root linked, standalone.root ["main"] = .ok root ∧
    root.SelfContained ∧ root.decls.length = 4 ∧
    standalone.link ⟨.empty, true⟩ ["main"] 4 = .ok linked ∧ linked.map.text = root.text ∧
    linked.locate? 0 = some ⟨root.sourceId, 34, ⟨4, 1⟩⟩ := by
  obtain ⟨root, hroot, hself, hlength, hsize, horigin, hposition⟩ :
      ∃ root ∈ (standalone.root ["main"]).toOption, root.SelfContained ∧ root.decls.length = 4 ∧
        0 < root.text.size ∧ root.map.origin? 0 = some ⟨root.sourceId, 34⟩ ∧
        Text.position root.source 34 = ⟨4, 1⟩ := by
    decide +kernel
  have hroot := Except.eq_ok_of_toOption hroot
  have hbuilt : standalone.Built := (built_ofSources _ _ _).1
  generalize standalone = r at hroot hbuilt ⊢
  obtain ⟨linked, hlink, htext, hlocate⟩ :=
    @LinkJob.round_trip ⟨r, ⟨.empty, true⟩, root⟩ 4 ["main"] hbuilt hroot hself hlength.le
  rw [htext] at hlocate
  obtain ⟨n, hn, hlocated⟩ := hlocate 0 hsize
  obtain rfl : 34 = n := (Place.mk.inj (Option.some.inj (horigin.symm.trans hn))).2
  refine ⟨root, linked, hroot, hself, hlength, hlink, htext, ?_⟩
  rw [hlocated, hposition]

end Registry

end ShaderLink
