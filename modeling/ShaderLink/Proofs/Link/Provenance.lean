import ShaderLink.Proofs.Link.Closed
import ShaderLink.Proofs.Provenance.Assembly
import ShaderLink.Proofs.Provenance.Excerpt

/-!
# The linked text and its provenance

What a closed linkage means as a text whose bytes know their origins is said here without any map
(`LinkJob.traced`): directives, the text of the root without what directs the linking, and the other
instances, each cut from the text that conditional lines leave of its module, renamed, and with its
parameters replaced. Putting the linked text together always succeeds, and its map traces this text
(`LinkJob.Closed.exists_output`).
-/

namespace ShaderLink

namespace LinkJob

variable (job : LinkJob) (conditions : ModulePath → String → Bool)

/-! ### Texts -/

/-- The text of a module that conditional lines leave. -/
def moduleTraced (m : Module) : Traced :=
  m.traced (conditions m.path)

/-- The instances that are part of the root's own text, as places with splices. -/
def ownRenames (l : Linkage) : List (Nat × List Splice) :=
  (l.instances.toList.filter fun e ↦ job.isOwn e.1).map fun e ↦
    (match e.1.target with
      | .decl _ index => index
      | .generator .. => 0, e.2.renames)

/-- The text of the root, without what directs the linking and with its references renamed. -/
def rootTraced (l : Linkage) : Traced :=
  (moduleTraced conditions job.root).splice job.root.text.span
    (job.root.deletions ++ (job.ownRenames l).flatMap Prod.snd)

/-- The directives that other modules contribute. -/
def foreignDirectives (l : Linkage) : List (Module × Span) :=
  newDirectives (job.root.directives.map Prod.snd)
    (((job.contributors l).filter fun m ↦ m.path != job.root.path).flatMap fun m ↦
      m.directives.map fun d ↦ (m, d))

/-- The text that the generator of an instance makes, if the instance at the place has one. -/
def generated? (e : (InstanceKey × Instance) × Nat) : Option SourceText :=
  match e.1.1.target with
  | .decl .. => none
  | .generator module name => (job.registry.generator? module name).map fun g ↦
    ⟨⟨"generator:" ++ module.render ++ "/" ++ name ++ "#" ++ toString e.2⟩,
      g.generate e.1.2.name (.ofList e.1.1.args)⟩

/-- The text of the instance at a place, unless it is part of the root's own text. -/
def pieceTraced? (e : (InstanceKey × Instance) × Nat) : Option Traced :=
  if job.isOwn e.1.1 then none
  else
    match e.1.1.target with
    | .decl module index => (job.decl? module index).map fun d ↦
      (moduleTraced conditions d.1).excerpt d.2.span e.1.2.renames e.1.1.args
    | .generator .. => (job.generated? e).map fun file ↦ .copy file 0 file.text

/-- The linked text of a closed linkage. -/
def traced (l : Linkage) : Traced :=
  .assemble ((job.foreignDirectives l).map fun d ↦ (moduleTraced conditions d.1).excerpt d.2 [] [])
    (job.rootTraced conditions l)
    (l.instances.toList.zipIdx.filterMap (job.pieceTraced? conditions))

/-- The texts that generators make. -/
def generatedTexts (l : Linkage) : List SourceText :=
  l.instances.toList.zipIdx.filterMap job.generated?

/-- The texts that a linked text comes from: those of modules and those of generators. -/
def files (l : Linkage) : List SourceText :=
  (job.contributors l).map Module.file ++ job.generatedTexts l

variable {job conditions} {l : Linkage} {key : InstanceKey} {i : Instance} {m : Module} {d : Decl}

/-! ### What splices suit -/

/-- Every module of the registry is sound. -/
theorem moduleSound (hjob : job.Sound) (hconditions : job.registry.ParsedUnder conditions)
    {path : ModulePath} (hm : job.registry.module? path = some m) :
    m.Sound (moduleTraced conditions m) := by
  obtain ⟨steps, file, source, hparse⟩ := hconditions path m hm
  rw [moduleTraced, hjob.built.path_eq hm]
  exact Module.sound_of_parse hparse

/-- The splices of an instance suit its declaration. -/
theorem Closed.suit_renames (h : job.Closed l) (hjob : job.Sound)
    (hmem : (key, i) ∈ l.instances.toList) {module : ModulePath} {index : Nat}
    (htarget : key.target = .decl module index) (hdecl : job.decl? module index = some (m, d)) :
    Splice.Suit m.text d.span i.renames := by
  obtain ⟨hm, hd⟩ := decl?_eq_some hdecl
  obtain ⟨conditions, hconditions⟩ := hjob.built.exists_parsedUnder
  have hsound := moduleSound hjob hconditions hm
  rw [(h.settled key i hmem).renames_decl htarget hdecl]
  exact hsound.inOrder.suit_renames (List.mem_of_getElem? (Module.mem_elements_of_decl? hd))
    (renames_declRenames l m d key.args i.name)

/-- An instance that is part of the root's own text is a declaration of the root without
parameters. -/
theorem exists_index_of_isOwn (h : job.isOwn key = true) :
    ∃ index, key = ⟨.decl job.root.path index, []⟩ := by
  obtain ⟨target, args⟩ := key
  simp only [isOwn, Bool.and_eq_true, List.isEmpty_iff] at h
  obtain ⟨rfl, htarget⟩ := h
  cases target with
  | decl module index => exact ⟨index, by rw [eq_of_beq htarget]⟩
  | generator module name => cases htarget

/-- The splices of the root's own instances belong to declarations at different places. -/
theorem Closed.renamesAt (h : job.Closed l) (hjob : job.Sound) :
    job.root.RenamesAt (job.ownRenames l) := by
  constructor
  · rw [ownRenames, List.map_map]
    have hkeys : (l.instances.toList.filter fun e ↦ job.isOwn e.1).Pairwise
        fun e e' ↦ e.1 ≠ e'.1 :=
      (List.pairwise_map.1 l.instances.nodup_keys).sublist List.filter_sublist
    refine List.pairwise_map.2 (hkeys.imp_of_mem fun {e e'} he he' hne hplace ↦ hne ?_)
    obtain ⟨index, hkey⟩ := exists_index_of_isOwn (List.mem_filter.1 he).2
    obtain ⟨index', hkey'⟩ := exists_index_of_isOwn (List.mem_filter.1 he').2
    simp only [Function.comp_apply, hkey, hkey'] at hplace
    rw [hkey, hkey', hplace]
  · intro r hr hne
    obtain ⟨⟨key, i⟩, hmem, rfl⟩ := List.mem_map.1 hr
    obtain ⟨hmem, hown⟩ := List.mem_filter.1 hmem
    obtain ⟨index, rfl⟩ := exists_index_of_isOwn hown
    have hsettled := h.settled _ i hmem
    obtain ⟨module, index', m, d, htarget, hdecl⟩ := hsettled.exists_decl hne
    obtain ⟨rfl, rfl⟩ := Target.decl.inj htarget
    obtain ⟨hm, hd⟩ := decl?_eq_some hdecl
    obtain rfl := Option.some.inj (hjob.root.symm.trans hm)
    refine ⟨d, hd, ?_⟩
    dsimp only
    rw [hsettled.renames_decl rfl hdecl]
    exact renames_declRenames l job.root d [] i.name

/-- What is spliced in the text of the root suits it. -/
theorem Closed.suit_root (h : job.Closed l) (hjob : job.Sound) :
    Splice.Suit job.root.text job.root.text.span
      (job.root.deletions ++ (job.ownRenames l).flatMap Prod.snd) := by
  obtain ⟨conditions, hconditions⟩ := hjob.built.exists_parsedUnder
  exact (moduleSound hjob hconditions hjob.root).inOrder.suit_root (h.renamesAt hjob)

/-! ### Directives -/

theorem exists_of_mem_newDirectives {known : List Text} {ds : List (Module × Span × Text)}
    {e : Module × Span} (h : e ∈ newDirectives known ds) : ∃ t, (e.1, e.2, t) ∈ ds := by
  induction ds generalizing known with
  | nil => exact absurd h List.not_mem_nil
  | cons first ds ih =>
    obtain ⟨m, span, t⟩ := first
    rw [newDirectives] at h
    split at h
    · obtain ⟨t', ht'⟩ := ih h
      exact ⟨t', List.mem_cons_of_mem _ ht'⟩
    · rcases List.mem_cons.1 h with rfl | h
      · exact ⟨t, List.mem_cons_self⟩
      · obtain ⟨t', ht'⟩ := ih h
        exact ⟨t', List.mem_cons_of_mem _ ht'⟩

/-- A directive is an element of its module that declares nothing. -/
theorem text_mem_of_mem_directives {span : Span} {t : Text} (h : (span, t) ∈ m.directives) :
    .text span ∈ m.elements := by
  obtain ⟨e, he, hd⟩ := List.mem_filterMap.1 h
  cases e with
  | text span' =>
    obtain ⟨t', -, hrest⟩ := Option.bind_eq_some_iff.1 hd
    dsimp only at hrest
    split at hrest
    · obtain ⟨rfl, -⟩ := Prod.mk.inj (Option.some.inj hrest)
      exact he
    · cases hrest
  | _ => cases hd

/-- Directives of other modules are elements of modules that contribute. -/
theorem exists_of_mem_foreignDirectives {e : Module × Span} (h : e ∈ job.foreignDirectives l) :
    e.1 ∈ job.contributors l ∧ .text e.2 ∈ e.1.elements := by
  obtain ⟨t, ht⟩ := exists_of_mem_newDirectives h
  obtain ⟨m, hm, hd⟩ := List.mem_flatMap.1 ht
  obtain ⟨d, hd, heq⟩ := List.mem_map.1 hd
  obtain ⟨rfl, rfl⟩ := Prod.mk.inj heq
  exact ⟨(List.mem_filter.1 hm).1, text_mem_of_mem_directives hd⟩

/-- Modules contribute only if the registry has them. -/
theorem exists_path_of_mem_contributors (h : m ∈ job.contributors l) :
    ∃ path, job.registry.module? path = some m := by
  obtain ⟨path, -, hm⟩ := List.mem_filterMap.1 h
  exact ⟨path, hm⟩

/-- Cutting a directive out of its module suits the module. -/
theorem suit_directive (hjob : job.Sound) {e : Module × Span} (h : e ∈ job.foreignDirectives l) :
    Splice.Suit e.1.text e.2 [] := by
  obtain ⟨hm, htext⟩ := exists_of_mem_foreignDirectives h
  obtain ⟨path, hm⟩ := exists_path_of_mem_contributors hm
  obtain ⟨conditions, hconditions⟩ := hjob.built.exists_parsedUnder
  have hfits := (moduleSound hjob hconditions hm).inOrder.fits_outer htext rfl
  exact ⟨hfits.start, hfits.stop, by simp, by simp, .nil⟩

/-! ### Putting the text together -/

/-- The directives that are taken over come from the modules that state them. -/
theorem exists_directivesText (hjob : job.Sound)
    (hconditions : job.registry.ParsedUnder conditions) (l : Linkage) :
    ∃ ms, job.directivesText l = .ok ms ∧ List.Forall₂ SourceMap.Leads ms
      ((job.foreignDirectives l).map fun d ↦
        (moduleTraced conditions d.1).excerpt d.2 [] []) := by
  obtain ⟨ms, hms, hall⟩ := Except.exists_mapM (fun d ↦ d.1.excerpt d.2 [] [])
    (job.foreignDirectives l)
    (R := fun d m ↦ m.Leads ((moduleTraced conditions d.1).excerpt d.2 [] [])) fun d hd ↦ by
      obtain ⟨path, hm⟩ := exists_path_of_mem_contributors (exists_of_mem_foreignDirectives hd).1
      obtain ⟨map, hmap, hexact, htraces⟩ :=
        (moduleSound hjob hconditions hm).exists_excerpt (suit_directive hjob hd) []
      exact ⟨map, hmap, hexact.tiled, htraces⟩
  exact ⟨ms, hms, List.forall₂_map_right_iff.2 hall.flip⟩

/-- The text of the root is made, and it leads where its trace says. -/
theorem Closed.exists_rootText (h : job.Closed l) (hjob : job.Sound)
    (hconditions : job.registry.ParsedUnder conditions) :
    ∃ m, job.rootText l = .ok m ∧ m.Leads (job.rootTraced conditions l) := by
  have hsound := moduleSound hjob hconditions hjob.root
  have hsuit := h.suit_root hjob
  rw [hsound.text_eq] at hsuit
  obtain ⟨outer, m, houter, hm, hexact, htraces⟩ := SourceMap.exists_merge_applyAll hsound.exact
    hsound.traces hsound.inFile hsuit none rfl
  rw [ownRenames, List.flatMap_map] at houter
  refine ⟨m, ?_, hexact.tiled, ?_⟩
  · rw [rootText]
    exact Except.bind_eq_ok.2 ⟨outer, houter, hm⟩
  · rwa [rootTraced, hsound.text_eq]

/-- The piece for an instance leads into its text, and if the text is generated it is kept. -/
def PieceLeads (job : LinkJob) (conditions : ModulePath → String → Bool)
    (e : (InstanceKey × Instance) × Nat) : Option Piece → Prop
  | none => job.pieceTraced? conditions e = none ∧ job.generated? e = none
  | some p => ∃ tr, job.pieceTraced? conditions e = some tr ∧ p.map.Leads tr ∧
    p.generated = (job.generated? e).map fun file ↦ (file.id, file.text)

theorem Closed.exists_declPiece (h : job.Closed l) (hjob : job.Sound)
    (hconditions : job.registry.ParsedUnder conditions) {module : ModulePath} {index place : Nat}
    {args : Args} (hmem : (⟨.decl module index, args⟩, i) ∈ l.instances.toList)
    (hown : job.isOwn ⟨.decl module index, args⟩ = false) :
    ∃ p?, job.piece ((⟨.decl module index, args⟩, i), place) = .ok p? ∧
      job.PieceLeads conditions ((⟨.decl module index, args⟩, i), place) p? := by
  cases hdecl : job.decl? module index with
  | none =>
    exact ⟨none, by simp [piece, hown, hdecl]; rfl, by simp [pieceTraced?, hown, hdecl], rfl⟩
  | some found =>
    obtain ⟨m, d⟩ := found
    obtain ⟨map, hmap, hexact, htraces⟩ :=
      (moduleSound hjob hconditions (decl?_eq_some hdecl).1).exists_excerpt
        (h.suit_renames hjob hmem rfl hdecl) args
    refine ⟨some ⟨map, none⟩, ?_, _, by simp [pieceTraced?, hown, hdecl],
      ⟨hexact.tiled, htraces⟩, rfl⟩
    simp [piece, hown, hdecl, hmap, Bind.bind, Except.bind]
    rfl

/-- So does the text of a generated instance, -/
theorem exists_generatedPiece {module : ModulePath} {name : String} {args : Args} {place : Nat}
    (hown : job.isOwn ⟨.generator module name, args⟩ = false) :
    ∃ p?, job.piece ((⟨.generator module name, args⟩, i), place) = .ok p? ∧
      job.PieceLeads conditions ((⟨.generator module name, args⟩, i), place) p? := by
  cases hgenerator : job.registry.generator? module name with
  | none =>
    exact ⟨none, by simp [piece, hown, hgenerator]; rfl,
      by simp [pieceTraced?, generated?, hown, hgenerator], by simp [generated?, hgenerator]⟩
  | some g =>
    -- the piece is the whole generated text, which is its own source
    let file : SourceText :=
      ⟨⟨"generator:" ++ module.render ++ "/" ++ name ++ "#" ++ toString place⟩,
        g.generate i.name (.ofList args)⟩
    have hfile : job.generated? ((⟨.generator module name, args⟩, i), place) = some file := by
      simp only [generated?, hgenerator]
      rfl
    refine ⟨some ⟨.identity file.id file.id file.text, some (file.id, file.text)⟩, ?_,
      .copy file 0 file.text, ?_, SourceMap.leads_identity file, ?_⟩
    · simp only [piece, hown, hgenerator]
      rfl
    · simp only [pieceTraced?, hown, hfile]
      rfl
    · rw [hfile]
      rfl

/-- and every other piece. -/
theorem Closed.exists_piece (h : job.Closed l) (hjob : job.Sound)
    (hconditions : job.registry.ParsedUnder conditions) {e : (InstanceKey × Instance) × Nat}
    (hmem : e.1 ∈ l.instances.toList) :
    ∃ p?, job.piece e = .ok p? ∧ job.PieceLeads conditions e p? := by
  obtain ⟨⟨⟨target, args⟩, i⟩, place⟩ := e
  cases hown : job.isOwn ⟨target, args⟩ with
  | true =>
    refine ⟨none, by simp [piece, hown]; rfl, by simp [pieceTraced?, hown], ?_⟩
    obtain ⟨index, hkey⟩ := exists_index_of_isOwn hown
    rw [hkey]
    rfl
  | false =>
    cases target with
    | decl module index => exact h.exists_declPiece hjob hconditions hmem hown
    | generator module name => exact exists_generatedPiece hown

theorem forall₂_of_pieceLeads {es : List ((InstanceKey × Instance) × Nat)}
    {ps : List (Option Piece)} (h : List.Forall₂ (job.PieceLeads conditions) es ps) :
    List.Forall₂ (fun p tr ↦ SourceMap.Leads p.map tr) (ps.filterMap id)
        (es.filterMap (job.pieceTraced? conditions)) ∧
      (ps.filterMap id).filterMap Piece.generated =
        (es.filterMap job.generated?).map fun file ↦ (file.id, file.text) := by
  induction h with
  | nil => exact ⟨.nil, rfl⟩
  | @cons e p? es ps hfirst _ ih =>
    cases p? with
    | none =>
      obtain ⟨htraced, hgenerated⟩ := hfirst
      rwa [List.filterMap_cons, List.filterMap_cons, List.filterMap_cons, htraced, hgenerated]
    | some p =>
      obtain ⟨tr, htraced, hleads, hgenerated⟩ := hfirst
      have hpieces : (some p :: ps).filterMap id = p :: ps.filterMap id := rfl
      rw [hpieces, List.filterMap_cons, htraced, List.filterMap_cons, List.filterMap_cons,
        hgenerated]
      refine ⟨.cons hleads ih.1, ?_⟩
      cases job.generated? e with
      | none => exact ih.2
      | some file => exact congrArg (_ :: ·) ih.2

/-- The text of a closed linkage can be put together. Its entries are exact and trace the text that
the linkage means, and its sources are the texts that this comes from. -/
theorem Closed.exists_output (h : job.Closed l) (hjob : job.Sound)
    (hconditions : job.registry.ParsedUnder conditions) :
    ∃ linked, job.output l = .ok linked ∧ linked.map.Exact ∧
      linked.map.Traces (job.traced conditions l) ∧
      linked.sources = .ofList ((job.files l).map fun file ↦ (file.id, file.text)) := by
  obtain ⟨directives, hdirectives, hleadsDirectives⟩ := exists_directivesText hjob hconditions l
  obtain ⟨root, hroot, hleadsRoot⟩ := h.exists_rootText hjob hconditions
  obtain ⟨ps, hps, hall⟩ := Except.exists_mapM job.piece l.instances.toList.zipIdx
    fun e he ↦ h.exists_piece hjob hconditions (List.fst_mem_of_mem_zipIdx he)
  obtain ⟨hpieces, hgenerated⟩ := forall₂_of_pieceLeads hall
  obtain ⟨hexact, htraces⟩ := SourceMap.traces_assemble hleadsDirectives hleadsRoot hpieces
  refine ⟨⟨Linked.assemble directives root (ps.filterMap id),
    (job.contributors l).flatMap Module.warnings ++ l.warnings,
    .ofList ((job.contributors l).map (fun m ↦ (m.sourceId, m.source)) ++
      (ps.filterMap id).filterMap Piece.generated)⟩, ?_, hexact, htraces, ?_⟩
  · rw [output]
    refine Except.bind_eq_ok.2 ⟨directives, hdirectives, ?_⟩
    refine Except.bind_eq_ok.2 ⟨root, hroot, ?_⟩
    refine Except.bind_eq_ok.2 ⟨ps, hps, ?_⟩
    dsimp only
    rw [hexact.tiled.coverage]
    rfl
  · dsimp only
    rw [hgenerated, files, generatedTexts, List.map_append, List.map_map]
    rfl

end LinkJob

end ShaderLink
