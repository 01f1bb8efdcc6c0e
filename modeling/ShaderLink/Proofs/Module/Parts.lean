import ShaderLink.Proofs.Grammar.Parts
import ShaderLink.Proofs.Module.Chain

/-!
# What linking leaves of the text of a module

The text of a module that is parsed without a warning consists of parts (`Module.exists_parts`). Of
the text of a root, linking cuts out all parts that direct the linking, and it puts names in the
place of names, so that nothing but declarations and statements is left (`Module.isListing_splice`).
The same holds of what is taken out of other modules: declarations with names put in
(`Decl.Chain.lists_splice`), and statements as they stand (`Module.lists_slice`).
-/

namespace ShaderLink

open Lexeme

/-! ### Segments of parts -/

theorem Segment.exists_of_new? {offset : Nat} {ss : List Segment} {s : Segment} {w : Text}
    (hs : s ∈ ss) (hw : s.new? = some w) : ∃ sp ∈ splices offset ss, sp.text = w := by
  induction ss generalizing offset with
  | nil => exact absurd hs List.not_mem_nil
  | cons first ss ih =>
    rw [splices]
    rcases List.mem_cons.1 hs with rfl | hs
    · rw [hw]
      exact ⟨_, List.mem_cons_self, rfl⟩
    · obtain ⟨sp, hsp, hw⟩ := @ih (offset + first.old.size) hs
      cases first.new? with
      | none => exact ⟨sp, hsp, hw⟩
      | some new => exact ⟨sp, List.mem_cons_of_mem _ hsp, hw⟩

/-- With names in the place of names, a unit is listed. -/
theorem Lexeme.IsUnit.exists_segments {gs : List Group} (h : IsUnit gs) {offset : Nat}
    {splices : List Splice} (hspans : (splices.map Splice.span).Sublist (namedSpans offset gs))
    (hnames : ∀ s ∈ splices, s.text.IsName) :
    ∃ ss, Segment.join ss = join (gs.flatMap Group.lexemes) ∧
      Segment.splices offset ss = splices ∧ Text.Lists (ss.flatMap Segment.shown) := by
  obtain ⟨ps, hps, rfl⟩ := exists_patches hspans fun s hs ↦ (hnames s hs).1
  refine ⟨ps.map Patch.segment, ?_, rfl, ?_⟩
  · rw [join_segments, ← hps, List.flatMap_map]
  · rw [shown_segments]
    refine h.lists hps fun p hp w hw ↦ ?_
    obtain ⟨sp, hsp, rfl⟩ :=
      Segment.exists_of_new? (List.mem_map_of_mem hp) (show p.segment.new? = some w from hw)
    exact (hnames sp hsp).2

/-- The span of a splice, and whether it is cut out. -/
def Splice.place (s : Splice) : Span × Bool :=
  (s.span, s.text.isEmpty)

namespace Part

variable {p : Part} {ps : List Part} {offset : Nat} {splices : List Splice} {place : Span × Bool}

theorem bounds_of_mem_places (hp : p.Valid) (h : place ∈ p.places offset) :
    0 < place.1.size ∧ offset ≤ place.1.start ∧ place.1.stop ≤ offset + p.text.size := by
  cases p with
  | gap s => exact absurd h List.not_mem_nil
  | linkage s =>
    obtain rfl := List.mem_singleton.1 h
    exact ⟨Nat.pos_of_ne_zero fun hzero ↦ hp (Text.size_eq_zero_iff.1 hzero), Nat.le_refl _,
      Nat.le_refl _⟩
  | code gs =>
    obtain ⟨s, hs, rfl⟩ := List.mem_map.1 h
    obtain ⟨hpos, hstop⟩ := size_pos_of_mem_namedSpans hp.along.heads hs
    exact ⟨hpos, (pairwise_namedSpans offset gs).1 s hs, hstop⟩

/-- The places in parts stand one behind the other. -/
theorem pairwise_placesFrom (hps : ∀ p ∈ ps, p.Valid) :
    (∀ place ∈ placesFrom offset ps, offset ≤ place.1.start) ∧
      (placesFrom offset ps).Pairwise fun a b ↦ a.1.start < b.1.start := by
  induction ps generalizing offset with
  | nil => exact ⟨List.forall_mem_nil _, .nil⟩
  | cons p ps ih =>
    obtain ⟨hp, hps⟩ := List.forall_mem_cons.1 hps
    obtain ⟨hstart, hpairwise⟩ := @ih (offset + p.text.size) hps
    have hbounds (a) (ha : a ∈ p.places offset) := bounds_of_mem_places hp ha
    refine ⟨List.forall_mem_append.2 ⟨fun a ha ↦ (hbounds a ha).2.1, fun a ha ↦
      (Nat.le_add_right _ _).trans (hstart a ha)⟩, List.pairwise_append.2 ⟨?_, hpairwise,
        fun a ha b hb ↦ ?_⟩⟩
    · cases p with
      | gap s => exact .nil
      | linkage s => exact List.pairwise_singleton _ _
      | code gs =>
        refine List.pairwise_map.2 ((pairwise_namedSpans offset gs).2.imp_of_mem ?_)
        intro s s' hs hs' hle
        have hpos := (size_pos_of_mem_namedSpans hp.along.heads hs).1
        simp only [Span.stop] at hle
        dsimp only
        omega
    · obtain ⟨hpos, -, hstop⟩ := hbounds a ha
      have := hstart b hb
      simp only [Span.stop] at hstop
      omega

/-- Splices for different places in parts are in the order of these. -/
theorem sublist_placesFrom {t : Text} {bounds : Span} (hps : ∀ p ∈ ps, p.Valid)
    (hsuit : Splice.Suit t bounds splices)
    (hplaces : ∀ s ∈ splices, s.place ∈ placesFrom offset ps) :
    ((sortBy Splice.before splices).map Splice.place).Sublist (placesFrom offset ps) := by
  have hperm := sortBy_perm Splice.before splices
  have hanti : Std.Antisymm fun a b : Span × Bool ↦ a.1.start < b.1.start :=
    ⟨fun a b hlt hlt' ↦ absurd hlt (Nat.lt_asymm hlt')⟩
  have hpairwise : ((sortBy Splice.before splices).map Splice.place).Pairwise
      fun a b ↦ a.1.start < b.1.start := by
    refine List.pairwise_map.2 ((List.pairwise_map.1 hsuit.ascending.ordered).imp_of_mem ?_)
    intro s s' hs _ hle
    exact (hsuit.fits s (hperm.mem_iff.1 hs)).start_lt_stop.trans_le hle
  have hnodup : ((sortBy Splice.before splices).map Splice.place).Nodup := by
    refine hpairwise.imp fun {a b} hlt heq ↦ ?_
    rw [heq] at hlt
    exact Nat.lt_irrefl _ hlt
  refine List.sublist_of_subperm_of_pairwise (List.subperm_of_subset hnodup fun a ha ↦ ?_)
    hpairwise (pairwise_placesFrom hps).2
  obtain ⟨s, hs, rfl⟩ := List.mem_map.1 ha
  exact hplaces s (hperm.mem_iff.1 hs)

/-- With nothing in the place of what directs the linking and names in the place of names, a part is
listed. -/
theorem Valid.exists_segments (hp : p.Valid)
    (hsub : (splices.map Splice.place).Sublist (p.places offset))
    (hcuts : ∀ s, (s, true) ∈ p.places offset → (s, true) ∈ splices.map Splice.place)
    (hnames : ∀ s ∈ splices, s.text ≠ [] → s.text.IsName) :
    ∃ ss, Segment.join ss = p.text ∧ Segment.splices offset ss = splices ∧
      Text.Lists (ss.flatMap Segment.shown) := by
  cases p with
  | gap s =>
    obtain rfl := List.map_eq_nil_iff.1 (List.sublist_nil.1 hsub)
    exact ⟨[⟨s, none⟩], List.append_nil s, rfl, by simpa [Segment.shown] using Text.IsGap.lists hp⟩
  | linkage s =>
    have hmem := hcuts _ (List.mem_singleton_self _)
    rcases List.sublist_singleton.1 hsub with hnil | hsingle
    · rw [hnil] at hmem
      exact absurd hmem List.not_mem_nil
    · obtain ⟨⟨span, t⟩, rfl, hplace⟩ := List.map_eq_singleton_iff.1 hsingle
      obtain ⟨rfl, ht⟩ := Prod.mk.inj hplace
      obtain rfl : t = [] := List.isEmpty_iff.1 ht
      exact ⟨[⟨s, some []⟩], List.append_nil s, rfl, Text.lists_nil⟩
  | code gs =>
    have hspans := hsub.map Prod.fst
    rw [places, List.map_map, List.map_map] at hspans
    refine IsUnit.exists_segments hp ?_ fun s hs ↦ hnames s hs ?_
    · simpa [Function.comp_def, Splice.place] using hspans
    · obtain ⟨span, -, hspan⟩ := List.mem_map.1 (hsub.subset (List.mem_map_of_mem hs))
      intro hnil
      have hflag := (Prod.mk.inj hspan).2
      rw [hnil] at hflag
      cases hflag

/-- The same holds of parts one behind the other. -/
theorem exists_segments (hps : ∀ p ∈ ps, p.Valid)
    (hsub : (splices.map Splice.place).Sublist (placesFrom offset ps))
    (hcuts : ∀ s, (s, true) ∈ placesFrom offset ps → (s, true) ∈ splices.map Splice.place)
    (hnames : ∀ s ∈ splices, s.text ≠ [] → s.text.IsName) :
    ∃ ss, Segment.join ss = join ps ∧ Segment.splices offset ss = splices ∧
      Text.Lists (ss.flatMap Segment.shown) := by
  induction ps generalizing offset splices with
  | nil =>
    obtain rfl := List.map_eq_nil_iff.1 (List.sublist_nil.1 hsub)
    exact ⟨[], rfl, rfl, Text.lists_nil⟩
  | cons p ps ih =>
    obtain ⟨hp, hps⟩ := List.forall_mem_cons.1 hps
    obtain ⟨places₁, places₂, hplaces, hsub₁, hsub₂⟩ := List.sublist_append_iff.1 hsub
    obtain ⟨splices₁, splices₂, rfl, rfl, rfl⟩ := List.map_eq_append_iff.1 hplaces
    obtain ⟨hnames₁, hnames₂⟩ := List.forall_mem_append.1 hnames
    have hbehind := (@pairwise_placesFrom ps (offset + p.text.size) hps).1
    -- a place is in the part or behind it, never both
    have hapart {a : Span × Bool} (ha : a ∈ p.places offset)
        (ha' : a ∈ placesFrom (offset + p.text.size) ps) : False := by
      obtain ⟨hpos, -, hstop⟩ := bounds_of_mem_places hp ha
      have hstart := hbehind a ha'
      simp only [Span.stop] at hstop
      omega
    rw [List.map_append] at hcuts
    obtain ⟨ss₁, hjoin₁, rfl, hlists₁⟩ := hp.exists_segments hsub₁ (fun s hs ↦
      (List.mem_append.1 (hcuts s (List.mem_append_left _ hs))).resolve_right fun hs' ↦
        hapart hs (hsub₂.subset hs')) hnames₁
    obtain ⟨ss₂, hjoin₂, rfl, hlists₂⟩ := ih hps hsub₂ (fun s hs ↦
      (List.mem_append.1 (hcuts s (List.mem_append_right _ hs))).resolve_left fun hs' ↦
        hapart (hsub₁.subset hs') hs) hnames₂
    refine ⟨ss₁ ++ ss₂, ?_, ?_, ?_⟩
    · rw [Segment.join_append, hjoin₁, hjoin₂, join_cons]
    · rw [Segment.splices_append, hjoin₁]
    · rw [List.flatMap_append]
      exact hlists₁.append hlists₂

end Part

/-! ### Elements of items -/

namespace BodyAssembly

/-- Nothing inside a declaration directs the linking. -/
theorem filter_isLinkage_children (scopes : ScopeTree) (events : List Event) :
    (ofEvents scopes events).children.filter Element.isLinkage = [] := by
  refine List.filter_eq_nil_iff.2 fun e he hlinkage ↦ ?_
  have hnone := List.filterMap_eq_nil_iff.1 (children_ofEvents scopes events).2 e he
  rw [Element.outer?_of_isLinkage hlinkage] at hnone
  cases hnone

end BodyAssembly

namespace Assembly

variable {a : Assembly} {exportsAll : Bool} {items : List Item}

theorem spans_item (exportsAll : Bool) (a : Assembly) (i : Item) :
    ((a.item exportsAll i).elements.filter Element.isLinkage).map Element.span =
      (a.elements.filter Element.isLinkage).map Element.span ++ i.cuts := by
  cases i with
  | decl d =>
    have hnone := BodyAssembly.filter_isLinkage_children a.scopes d.events
    rw [item, decl, List.filter_append, List.map_append, List.filter_append,
      List.filter_cons_of_neg (by simp [Element.isLinkage]), hnone, Item.cuts, List.append_nil]
    cases d.exportSpan <;> rfl
  | stray token => exact (List.append_nil _).symm
  | _ =>
    rw [item, List.filter_append, List.map_append]
    rfl

/-- The elements that direct the linking are what is cut out of the items. -/
theorem spans_foldl (exportsAll : Bool) (items : List Item) (a : Assembly) :
    ((items.foldl (item exportsAll) a).elements.filter Element.isLinkage).map Element.span =
      (a.elements.filter Element.isLinkage).map Element.span ++ items.flatMap Item.cuts := by
  induction items generalizing a with
  | nil => exact (List.append_nil _).symm
  | cons i items ih =>
    rw [List.foldl_cons, ih, spans_item, List.flatMap_cons, List.append_assoc]

/-- The problem with a mark is that no declaration follows. -/
theorem eq_of_mem_unusedExport {pending : Option (List String × Span)} {p : Span × String}
    (hp : p ∈ unusedExport pending) : p.2 = "#export is not followed by a declaration" := by
  obtain ⟨mark, -, rfl⟩ := List.mem_map.1 hp
  rfl

/-- Problems that have been found stay, and all others are marks that no declaration follows. -/
theorem problems_foldl (exportsAll : Bool) (items : List Item) (a : Assembly) :
    ∃ added, (items.foldl (item exportsAll) a).problems = a.problems ++ added ∧
      ∀ p ∈ added, p.2 = "#export is not followed by a declaration" := by
  induction items generalizing a with
  | nil => exact ⟨[], (List.append_nil _).symm, List.forall_mem_nil _⟩
  | cons i items ih =>
    obtain ⟨first, hfirst, hmarks⟩ : ∃ added, (a.item exportsAll i).problems = a.problems ++ added ∧
        ∀ p ∈ added, p.2 = "#export is not followed by a declaration" := by
      cases i with
      | exporting params span => exact ⟨_, rfl, fun p ↦ eq_of_mem_unusedExport⟩
      | _ => exact ⟨[], (List.append_nil _).symm, List.forall_mem_nil _⟩
    obtain ⟨rest, hrest, hmarks'⟩ := ih (a.item exportsAll i)
    exact ⟨first ++ rest, by rw [List.foldl_cons, hrest, hfirst, List.append_assoc],
      List.forall_mem_append.2 ⟨hmarks, hmarks'⟩⟩

/-- What is kept of an item is an element that does not direct the linking. -/
theorem exists_unit_item (a : Assembly) (exportsAll : Bool) {i : Item} {s : Span}
    (hs : s ∈ i.units) :
    ∃ e ∈ (a.item exportsAll i).elements, e.isLinkage = false ∧ e.outer? = some s := by
  cases i with
  | decl d =>
    obtain rfl := List.mem_singleton.1 hs
    exact ⟨_, List.mem_append_right _ (List.mem_append_right _ List.mem_cons_self), rfl, rfl⟩
  | text span =>
    obtain rfl := List.mem_singleton.1 hs
    exact ⟨_, List.mem_append_right _ (List.mem_singleton_self _), rfl, rfl⟩
  | _ => exact absurd hs List.not_mem_nil

theorem exists_unit_foldl {s : Span} (hs : s ∈ items.flatMap Item.units) :
    ∃ e ∈ (items.foldl (item exportsAll) a).elements, e.isLinkage = false ∧
      e.outer? = some s := by
  induction items generalizing a with
  | nil => exact absurd hs List.not_mem_nil
  | cons i items ih =>
    rw [List.flatMap_cons] at hs
    rcases List.mem_append.1 hs with hs | hs
    · obtain ⟨e, he, hlinkage, hspan⟩ := exists_unit_item a exportsAll hs
      obtain ⟨added, hadded⟩ := elements_foldl exportsAll items (a.item exportsAll i)
      refine ⟨e, ?_, hlinkage, hspan⟩
      rw [List.foldl_cons, hadded]
      exact List.mem_append_left _ he
    · exact ih hs

/-- A statement that is kept has come of an item. -/
theorem text_mem_of_foldl {span : Span}
    (h : .text span ∈ (items.foldl (item exportsAll) a).elements) (hnew : .text span ∉ a.elements) :
    .text span ∈ items := by
  induction items generalizing a with
  | nil => exact absurd h hnew
  | cons i items ih =>
    by_cases hfirst : .text span ∈ (a.item exportsAll i).elements
    · cases i with
      | text span' =>
        have h := List.mem_singleton.1 ((List.mem_append.1 hfirst).resolve_left hnew)
        rw [Element.text.inj h]
        exact List.mem_cons_self
      | decl d =>
        have h := (List.mem_append.1 hfirst).resolve_left hnew
        rcases List.mem_append.1 h with h | h
        · simp at h
        · rcases List.mem_cons.1 h with heq | h
          · cases heq
          · have hnone := List.filterMap_eq_nil_iff.1
              (BodyAssembly.children_ofEvents a.scopes d.events).2 _ h
            cases hnone
      | stray token => exact absurd hfirst hnew
      | _ => exact absurd ((List.mem_append.1 hfirst).resolve_left hnew) (by simp)
    · exact List.mem_cons_of_mem i (ih h hfirst)

end Assembly

namespace Module

/-- In no declaration and no statement of the module a number stands directly in front of an
identifier. -/
def NumbersApart (m : Module) : Prop :=
  ∀ e ∈ m.elements, e.isLinkage = false → ∀ s ∈ e.outer?, m.text.NumbersApart s

instance (m : Module) : Decidable m.NumbersApart :=
  inferInstanceAs (Decidable (∀ e ∈ m.elements, e.isLinkage = false → ∀ s ∈ e.outer?,
    m.text.NumbersApart s))

variable {options : ParseOptions} {file : String} {source : Text} {m : Module} {d : Decl}

/-- The elements that direct the linking are what is cut out of the items. -/
theorem spans_ofItems (file : String) (source : Text) (processed : Conditional.Processed)
    (items : List Item) :
    ((ofItems file source processed items).elements.filter Element.isLinkage).map Element.span =
      items.flatMap Item.cuts :=
  Assembly.spans_foldl _ items _

/-- The text of a module that is parsed without a warning is divided into parts, up to a gap or a
comment at its end. -/
theorem exists_parts (h : parse options file source = .ok m) (hwarnings : m.warnings = [])
    (hapart : m.NumbersApart) :
    ∃ ps c' names, (Cursor.start m.text).DividesBy ps (m.deletions.map Splice.span) names c' ∧
      c'.Ends ∧ ∀ d, .decl d ∈ m.elements →
        ∀ s ∈ d.nameSpan :: (m.references d).map Reference.span, s ∈ names := by
  obtain ⟨items, c', e, hrun, rfl⟩ := exists_items h
  obtain ⟨hrepeats, hfinished⟩ := Parser.repeats_of_items hrun
  have hstray : ∀ token, .stray token ∉ items := fun token htoken ↦ by
    have hproblems := List.map_eq_nil_iff.1 (List.append_eq_nil_iff.1 hwarnings).2
    obtain ⟨added, hadded, -⟩ := Assembly.problems_foldl (!items.any Item.marksExport) items
      ⟨none, [], Assembly.globalScope items, Assembly.strayProblems items, none, 0⟩
    have hnil := (List.append_eq_nil_iff.1 hproblems).1
    rw [hadded] at hnil
    have hnone := List.filterMap_eq_nil_iff.1 (List.append_eq_nil_iff.1 hnil).1 _ htoken
    cases hnone
  obtain ⟨hin', ps, hdivides⟩ := hrepeats.divides (.start _) (Nat.lt_succ_self _) hstray
    fun s hs ↦ by
      obtain ⟨e, he, hlinkage, hspan⟩ := Assembly.exists_unit_foldl hs
      exact hapart e he hlinkage s hspan
  have hspans : (ofItems file source (Conditional.process options.conditions ⟨file⟩ source)
      items).deletions.map Splice.span = items.flatMap Item.cuts := by
    rw [deletions, List.map_map]
    exact spans_ofItems file source _ items
  refine ⟨ps, c', _, hspans ▸ hdivides, hfinished.ends (hin'.length_lt (Nat.lt_succ_self _)),
    fun d hd s hs ↦ ?_⟩
  obtain ⟨i, hi, hof⟩ := Assembly.exists_of_foldl hd List.not_mem_nil
  refine List.mem_flatMap.2 ⟨_, hi, ?_⟩
  rw [Item.names, ← hof.nameSpan, ← hof.children]
  rcases List.mem_cons.1 hs with rfl | hs
  · exact List.mem_cons_self
  · exact List.mem_cons_of_mem _ ((sublist_references _ d).subset hs)

/-- What is left of the text of a module that is parsed without a warning, when what directs the
linking is cut out and names are put in the place of names, is nothing but declarations and
statements. -/
theorem isListing_splice (h : parse options file source = .ok m) (hwarnings : m.warnings = [])
    (hapart : m.NumbersApart) {tr : Traced} (htext : m.text = tr.text) {renames : List Splice}
    (hsuit : Splice.Suit m.text m.text.span (m.deletions ++ renames))
    (hnames : ∀ s ∈ renames, s.text.IsName ∧ ∃ d, .decl d ∈ m.elements ∧
      s.span ∈ d.nameSpan :: (m.references d).map Reference.span) :
    (tr.splice m.text.span (m.deletions ++ renames)).text.IsListing := by
  obtain ⟨ps, c', names, ⟨hrest, -, hvalid, hcuts, hplaces⟩, hends, hdecls⟩ :=
    exists_parts h hwarnings hapart
  have hmem {s : Splice} : s ∈ sortBy Splice.before (m.deletions ++ renames) ↔
      s ∈ m.deletions ∨ s ∈ renames := by
    rw [(sortBy_perm Splice.before _).mem_iff, List.mem_append]
  have hdeleted {s : Splice} (hs : s ∈ m.deletions) : s.place = (s.span, true) := by
    obtain ⟨e, -, rfl⟩ := List.mem_map.1 hs
    rfl
  have hplaced : ∀ s ∈ m.deletions ++ renames, s.place ∈ Part.placesFrom 0 ps := by
    refine List.forall_mem_append.2 ⟨fun s hs ↦ ?_, fun s hs ↦ ?_⟩
    · rw [hdeleted hs]
      exact (hcuts _).2 (List.mem_map_of_mem hs)
    · obtain ⟨hname, d, hd, hspan⟩ := hnames s hs
      rw [Splice.place, hname.isEmpty_eq_false]
      exact hplaces _ (hdecls d hd _ hspan)
  obtain ⟨ss, hjoin, hsplices, hlists⟩ := Part.exists_segments hvalid
    (Part.sublist_placesFrom hvalid hsuit hplaced)
    (fun s hs ↦ by
      obtain ⟨sp, hsp, rfl⟩ := List.mem_map.1 ((hcuts s).1 hs)
      exact List.mem_map.2 ⟨sp, hmem.2 (.inl hsp), hdeleted hsp⟩)
    (fun s hs hne ↦ by
      rcases hmem.1 hs with hs | hs
      · obtain ⟨e, -, rfl⟩ := List.mem_map.1 hs
        exact absurd rfl hne
      · exact (hnames s hs).1)
  -- behind the parts stands what the text ends with, which no splice is in
  obtain ⟨s, w, hbehind, hgap, hw⟩ := hends.exists_gap
  have hjoined : Segment.join (ss ++ [⟨s ++ w, none⟩]) = m.text := by
    rw [Segment.join_append, hjoin, Segment.join_cons, Segment.join_nil, List.append_nil, ← hbehind]
    exact hrest.symm
  have hall : tr.text = [] ++ Segment.join (ss ++ [⟨s ++ w, none⟩]) ++ [] := by
    rw [hjoined, ← htext]
    simp
  have hspliced : sortBy Splice.before (m.deletions ++ renames) =
      Segment.splices 0 (ss ++ [⟨s ++ w, none⟩]) := by
    rw [Segment.splices_append, hsplices]
    exact (List.append_nil _).symm
  have hshown := congrArg Traced.text (Traced.splice_of_segments hall hspliced)
  rw [Traced.text_patched hall, hjoined] at hshown
  rw [show m.text.span = ⟨Text.size [], m.text.size⟩ from rfl, hshown, List.flatMap_append]
  exact hlists.append_isListing ⟨s, w, List.append_nil _, hgap.lists, hw⟩

/-- A statement that is kept can be taken out of the text. -/
theorem lists_slice (h : parse options file source = .ok m) (hapart : m.NumbersApart) {span : Span}
    (hspan : .text span ∈ m.elements) {t : Text} (ht : m.text.slice? span = some t) : t.Lists := by
  obtain ⟨items, c', e, hrun, rfl⟩ := exists_items h
  have hi : .text span ∈ items := Assembly.text_mem_of_foldl hspan List.not_mem_nil
  obtain ⟨gs, hunit, hslice⟩ := (Parser.repeats_of_items hrun).1.exists_unit_of_text (.start _)
    (Nat.lt_succ_self _) hi (hapart _ hspan rfl span rfl)
  obtain rfl := Option.some.inj (hslice.symm.trans ht)
  exact hunit.lists_self

end Module

namespace Decl.Chain

variable {m : Module} {d : Decl} {front back : Text} {gs : List Group}

/-- A declaration can be taken out of the text, with names put in the place of its name and of
references. -/
theorem lists_splice (h : d.Chain m front gs back) (hapart : m.text.NumbersApart d.span)
    {splices : List Splice} (hsplices : d.Renames m splices)
    (hsuit : Splice.Suit m.text d.span splices) (hnames : ∀ s ∈ splices, s.text.IsName)
    {tr : Traced} (htext : m.text = tr.text) : (tr.splice d.span splices).text.Lists := by
  have hunit : IsUnit gs := ⟨h.loose hapart, h.last, fun ps hps hall ↦ .inl (h.mem ps hps hall)⟩
  obtain ⟨ss, hjoin, hsegments, hlists⟩ :=
    hunit.exists_segments (h.sublist_namedSpans hsplices hsuit) fun s hs ↦
      hnames s ((sortBy_perm Splice.before splices).mem_iff.1 hs)
  have hsplit : tr.text = front ++ Segment.join ss ++ back := by rw [← htext, h.text, hjoin]
  have hshown := congrArg Traced.text (Traced.splice_of_segments hsplit hsegments.symm)
  rw [Traced.text_patched hsplit, hjoin, ← h.span] at hshown
  rwa [hshown]

end Decl.Chain

end ShaderLink
