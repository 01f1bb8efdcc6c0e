import ShaderLink.Proofs.Grammar.ItemSound
import ShaderLink.Proofs.Grammar.Listing

/-!
# The text of a module in parts

Between two cursors that items are read between, a text is cut into **parts**: gaps, what only
directs the linking, and declarations and statements (`Cursor.Divides`). Some spans in it are
places: those of what directs the linking, which can be cut out, and those of names, which can be
replaced. If there are no stray tokens, nothing else is in the text (`Parser.Repeats.divides`).
-/

namespace ShaderLink

open Lexeme

/-! ### Parts -/

/-- A part of the text of a module. -/
inductive Part where
  | gap (s : Text)
  /-- What only directs the linking. -/
  | linkage (s : Text)
  /-- A declaration or a statement. -/
  | code (gs : List Group)

namespace Part

/-- The text of a part. -/
def text : Part → Text
  | gap s => s
  | linkage s => s
  | code gs => join (gs.flatMap Group.lexemes)

/-- The part is what it is said to be. -/
def Valid : Part → Prop
  | gap s => s.IsGap
  | linkage s => s ≠ []
  | code gs => IsUnit gs

/-- The places in a part that something may be put in, if it starts at an offset. The flag says
whether the place is cut out or named. -/
def places (offset : Nat) : Part → List (Span × Bool)
  | gap _ => []
  | linkage s => [(⟨offset, s.size⟩, true)]
  | code gs => (namedSpans offset gs).map fun s ↦ (s, false)

/-- The text of parts. -/
def join (ps : List Part) : Text :=
  ps.flatMap text

@[simp] theorem join_nil : join [] = [] := rfl

@[simp] theorem join_cons (p : Part) (ps : List Part) : join (p :: ps) = p.text ++ join ps := rfl

@[simp] theorem join_append (ps qs : List Part) : join (ps ++ qs) = join ps ++ join qs :=
  List.flatMap_append

/-- The places in parts from an offset on. -/
def placesFrom (offset : Nat) : List Part → List (Span × Bool)
  | [] => []
  | p :: ps => p.places offset ++ placesFrom (offset + p.text.size) ps

theorem placesFrom_append (offset : Nat) (ps qs : List Part) :
    placesFrom offset (ps ++ qs) =
      placesFrom offset ps ++ placesFrom (offset + (join ps).size) qs := by
  induction ps generalizing offset with
  | nil => rfl
  | cons p ps ih =>
    rw [List.cons_append, placesFrom, placesFrom, ih, join_cons, Text.size_append, Nat.add_assoc,
      List.append_assoc]

end Part

namespace Lexeme

/-- Named groups are not empty. -/
theorem size_pos_of_mem_namedSpans {gs : List Group} {rest : Text}
    (h : Along Heads (gs.flatMap Group.lexemes) rest) {offset : Nat} {s : Span}
    (hs : s ∈ namedSpans offset gs) :
    0 < s.size ∧ s.stop ≤ offset + (join (gs.flatMap Group.lexemes)).size := by
  induction gs generalizing offset with
  | nil => exact absurd hs List.not_mem_nil
  | cons g gs ih =>
    rw [List.flatMap_cons, along_append] at h
    rw [List.flatMap_cons, join_append, Text.size_append]
    rw [namedSpans] at hs
    rcases List.mem_append.1 hs with hs | hs
    · split at hs
      · rename_i hnamed
        obtain rfl := List.mem_singleton.1 hs
        obtain ⟨⟨x, hx, -⟩, -⟩ := g.words hnamed
        obtain ⟨xs, hxs⟩ := List.head?_eq_some_iff.1 hx
        rw [hxs] at h
        refine ⟨Nat.pos_of_ne_zero fun hzero ↦ ?_, ?_⟩
        · have hnil := Text.size_eq_zero_iff.1 hzero
          rw [hxs, join_cons, List.append_eq_nil_iff] at hnil
          exact h.1.1.ne_nil hnil.1
        · simp only [Span.stop]
          omega
      · exact absurd hs List.not_mem_nil
    · obtain ⟨hpos, hstop⟩ := ih h.2 hs
      exact ⟨hpos, by omega⟩

end Lexeme

/-- What is read as a declaration or statement is a unit, if numbers stand apart from identifiers
in it. -/
theorem isUnit_of_lexes {t : Text} {c c' : Cursor} {gs : List Group} (hin : c.In t)
    (hlexes : c.Lexes (gs.flatMap Group.lexemes) c')
    (htight : ∀ x ∈ (gs.flatMap Group.lexemes).getLast?, Lexicon.shader.ignores x.kind = false)
    (hmem : ∀ ps : List Patch, ps.map Patch.toGroup = gs → (∀ p ∈ ps, p.Unreserved) →
      significant (ps.flatMap Patch.result) ∈ declarations + statements)
    (hapart : t.NumbersApart (Span.between c.offset c'.offset)) : IsUnit gs := by
  obtain ⟨s, hs, hlast⟩ : ∃ s, IsClosing s ∧
      (gs.flatMap Group.lexemes).getLast? = some (symbol s) := by
    obtain ⟨s, hs, hlast⟩ := getLast?_of_mem_unit (Cursor.Covers.mem_of_coversBy hmem)
    exact ⟨s, hs, getLast?_of_significant htight hlast⟩
  obtain ⟨front, rfl, hfront⟩ := hin
  rw [hlexes.rest, hlexes.offset, Span.between, Nat.add_sub_cancel_left, ← hfront] at hapart
  refine ⟨Along.of_closing ⟨s, hs, hlast⟩ (along_loose hlexes.along hapart fun x hx ↦ ?_) [],
    ⟨s, hs, hlast⟩, hmem⟩
  rw [hlast] at hx
  rw [← Option.some.inj hx, symbol]
  simp

/-! ### Parts between cursors -/

/-- The parts stand between the cursors, with the given spans to be cut out and, among others, the
given spans of names. -/
structure Cursor.DividesBy (ps : List Part) (c : Cursor) (cuts names : List Span) (c' : Cursor) :
    Prop where
  rest : c.rest = Part.join ps ++ c'.rest
  offset : c'.offset = c.offset + (Part.join ps).size
  valid : ∀ p ∈ ps, p.Valid
  cuts : ∀ s, (s, true) ∈ Part.placesFrom c.offset ps ↔ s ∈ cuts
  names : ∀ s ∈ names, (s, false) ∈ Part.placesFrom c.offset ps

/-- The text between the cursors consists of parts. -/
def Cursor.Divides (c : Cursor) (cuts names : List Span) (c' : Cursor) : Prop :=
  ∃ ps, c.DividesBy ps cuts names c'

namespace Cursor.Divides

variable {c c₁ c' : Cursor} {cuts cuts' names names' : List Span} {t : Text}

theorem refl (c : Cursor) : c.Divides [] [] c :=
  ⟨[], rfl, rfl, List.forall_mem_nil _, fun s ↦ by simp [Part.placesFrom],
    List.forall_mem_nil _⟩

theorem trans (h : c.Divides cuts names c₁) (h' : c₁.Divides cuts' names' c') :
    c.Divides (cuts ++ cuts') (names ++ names') c' := by
  obtain ⟨ps, hrest, hoffset, hvalid, hcuts, hnames⟩ := h
  obtain ⟨qs, hrest', hoffset', hvalid', hcuts', hnames'⟩ := h'
  rw [hoffset] at hcuts' hnames'
  refine ⟨ps ++ qs, ?_, ?_, List.forall_mem_append.2 ⟨hvalid, hvalid'⟩, fun s ↦ ?_,
    List.forall_mem_append.2 ⟨fun s hs ↦ ?_, fun s hs ↦ ?_⟩⟩
  · rw [hrest, hrest', Part.join_append, List.append_assoc]
  · rw [hoffset', hoffset, Part.join_append, Text.size_append, Nat.add_assoc]
  · rw [Part.placesFrom_append, List.mem_append, List.mem_append, hcuts, hcuts']
  · rw [Part.placesFrom_append]
    exact List.mem_append_left _ (hnames s hs)
  · rw [Part.placesFrom_append]
    exact List.mem_append_right _ (hnames' s hs)

/-- Names may be left out. -/
theorem mono (h : c.Divides cuts names c') (hsub : names' ⊆ names) : c.Divides cuts names' c' := by
  obtain ⟨ps, hrest, hoffset, hvalid, hcuts, hnames⟩ := h
  exact ⟨ps, hrest, hoffset, hvalid, hcuts, fun s hs ↦ hnames s (hsub hs)⟩

/-- What is skipped in front of something is a gap. -/
theorem gap (h : c.Skips c₁) (hin : c.In t) (hin' : c'.In t) (hlt : c₁.offset < c'.offset) :
    c.Divides [] [] c₁ := by
  have hne : c₁.rest ≠ [] := by
    intro hnil
    have hle := hin'.isBoundary.le_size
    obtain ⟨front, rfl, hfront⟩ := hin.skips h
    rw [hnil, List.append_nil] at hle
    omega
  obtain ⟨s, w, hrest, hs, rfl | ⟨hend, -⟩, -⟩ := h.exists_gap
  · obtain ⟨front, rfl, hfront⟩ := hin.skips h
    obtain ⟨front', ht, hfront'⟩ := hin
    rw [hrest, List.nil_append, ← List.append_assoc] at ht
    obtain rfl := List.append_cancel_right ht
    refine ⟨[.gap s], by simpa [Part.text] using hrest, ?_, List.forall_mem_singleton.2 hs,
      fun s ↦ by simp [Part.placesFrom, Part.places], List.forall_mem_nil _⟩
    rw [← hfront, ← hfront', Text.size_append]
    simp [Part.text]
  · exact absurd hend hne

/-- A stretch that only directs the linking is cut out. -/
theorem linkage (hin : c.In t) (hin' : c'.In t) (hlt : c.offset < c'.offset) :
    c.Divides [Span.between c.offset c'.offset] [] c' := by
  obtain ⟨front, ht, hfront⟩ := hin
  obtain ⟨front', ht', hfront'⟩ := hin'
  rcases List.append_eq_append_iff.1 (ht.symm.trans ht') with ⟨w, rfl, hrest⟩ | ⟨w, rfl, -⟩
  · rw [Text.size_append, hfront] at hfront'
    have hspan : Span.between c.offset c'.offset = ⟨c.offset, Text.size w⟩ := by
      rw [← hfront', Span.between, Nat.add_sub_cancel_left]
    refine ⟨[.linkage w], by simpa [Part.text] using hrest, by simpa [Part.text] using hfront'.symm,
      List.forall_mem_singleton.2 ?_, fun s ↦ ?_, List.forall_mem_nil _⟩
    · rintro rfl
      rw [Text.size_nil] at hfront'
      omega
    · rw [hspan]
      simp [Part.placesFrom, Part.places]
  · rw [Text.size_append] at hfront
    omega

/-- What is read as declarations and statements is code. -/
theorem code {L : Language Lexeme} {spans : List Span} (hin : c.In t) (h : c.Covers L spans c')
    (hle : ∀ ts ∈ L, ts ∈ declarations + statements)
    (hapart : t.NumbersApart (Span.between c.offset c'.offset)) : c.Divides [] spans c' := by
  obtain ⟨gs, hlexes, htight, hspans, hmem⟩ := h
  refine ⟨[.code gs], ?_, ?_, List.forall_mem_singleton.2 ?_, fun s ↦ ?_, fun s hs ↦ ?_⟩
  · simpa [Part.text] using hlexes.rest
  · simpa [Part.text] using hlexes.offset
  · exact isUnit_of_lexes hin hlexes htight (fun ps hps hall ↦ hle _ (hmem ps hps hall)) hapart
  · simp [Part.placesFrom, Part.places]
  · simpa [Part.placesFrom, Part.places] using hspans.subset hs

end Cursor.Divides

/-! ### Items -/

namespace Item

/-- What is cut out of an item when it is linked. Behind the word `export` all up to the declaration
is cut out. -/
def cuts : Item → List Span
  | module _ span => [span]
  | importing _ _ span => [span]
  | exporting _ span => [span]
  | decl d => d.exportSpan.toList.map fun word ↦ Span.between word.start d.span.start
  | text _ => []
  | stray _ => []

/-- The name of what an item declares, and the elements inside it. -/
def names : Item → List Span
  | decl d => d.name.span :: childSpans d.events
  | _ => []

/-- The span of an item that is kept. -/
def units : Item → List Span
  | decl d => [d.span]
  | text span => [span]
  | _ => []

end Item

namespace Parser

variable {n : Nat} {t : Text} {c c₁ c' : Cursor} {i : Item} {is : List Item}

namespace Comes

/-- What is read as an item that directs the linking is divided into a gap and the item. -/
theorem divides_linkage (hskips : c.Skips c₁) (hin : c.In t)
    (hreads : c'.In t ∧ t.Ascending c.offset [Span.between c₁.offset c'.offset] c'.offset) :
    c.Divides [Span.between c₁.offset c'.offset] [] c' := by
  obtain ⟨hin', hascending⟩ := hreads
  have hlt : c₁.offset < c'.offset :=
    Nat.lt_of_sub_pos (hascending.fits _ (List.mem_singleton_self _)).size_pos
  exact (Cursor.Divides.gap hskips hin hin' hlt).trans
    (Cursor.Divides.linkage (hin.skips hskips) hin' hlt)

theorem divides_declItem (hin : c.In t) (hc : c.rest.length < n)
    (h : declItem.Comes n c (.accepted i c')) (hapart : ∀ s ∈ i.units, t.NumbersApart s) :
    c.Divides i.cuts i.names c' := by
  obtain ⟨d', -, ⟨hin', hascending⟩, -⟩ := h.yields.reads_declItem hin
  obtain ⟨d, c₁, c₂, rfl, hskips, ⟨hspan, -, -, -, front, back, hchildren, hcovers⟩, hcases⟩ :=
    covered_declItem hc h
  have hfits : t.Fits (Span.between c₂.offset c'.offset) :=
    hspan ▸ hascending.fits _ (List.mem_append_right _ (List.mem_singleton_self _))
  have hlt : c₂.offset < c'.offset := Nat.lt_of_sub_pos hfits.size_pos
  have hnames : d.name.span :: childSpans d.events ⊆ front ++ d.name.span :: back := by
    rw [hchildren]
    exact List.perm_middle.symm.subset
  have hcode (hin₂ : c₂.In t) : c₂.Divides [] (d.name.span :: childSpans d.events) c' :=
    (Cursor.Divides.code hin₂ hcovers (fun ts hts ↦ .inl hts)
      (hspan ▸ hapart d.span (List.mem_singleton_self _))).mono hnames
  rcases hcases with ⟨hexport, rfl⟩ | ⟨word, xs, hexport, hstart, hxs, hne⟩
  · rw [Item.cuts, hexport]
    exact (Cursor.Divides.gap hskips hin hin' hlt).trans (hcode (hin.skips hskips))
  · have hin₁ := hin.skips hskips
    have hin₂ := hin₁.lexes hxs
    have hlt₁ : c₁.offset < c₂.offset := hxs.offset_lt hne
    rw [Item.cuts, hexport, Option.toList_some, List.map_singleton, hspan, hstart]
    exact (Cursor.Divides.gap hskips hin hin₂ hlt₁).trans
      ((Cursor.Divides.linkage hin₁ hin₂ hlt₁).trans (hcode hin₂))

/-- The text of an item is divided into parts, if it is no stray token. -/
theorem divides_item (hin : c.In t) (hn : t.size < n) (h : item.Comes n c (.accepted i c'))
    (hstray : ∀ token, i ≠ .stray token) (hapart : ∀ s ∈ i.units, t.NumbersApart s) :
    c.Divides i.cuts i.names c' := by
  have hc := hin.length_lt hn
  obtain ⟨p, hp, h⟩ := h.firstOf
  simp only [List.mem_cons, List.not_mem_nil, or_false] at hp
  rcases hp with rfl | rfl | rfl | rfl | rfl | rfl
  · have hreads := (h.yields.reads_moduleItem (t := t)).1 hin
    obtain ⟨⟨path, span⟩, c₁, hspanned, hpure⟩ := Comes.bind h
    obtain ⟨rfl, rfl⟩ := hpure.pure
    obtain ⟨u, c₂, hskip, -, rfl⟩ := hspanned.spanned
    exact divides_linkage (hskip.skips hc) hin hreads
  · have hreads := (h.yields.reads_importItem (t := t)).1 hin
    obtain ⟨⟨⟨tree, dialect⟩, span⟩, c₁, hspanned, hpure⟩ := Comes.bind h
    obtain ⟨rfl, rfl⟩ := hpure.pure
    obtain ⟨u, c₂, hskip, -, rfl⟩ := hspanned.spanned
    exact divides_linkage (hskip.skips hc) hin hreads
  · have hreads := (h.yields.reads_exportItem (t := t)).1 hin
    obtain ⟨⟨params, span⟩, c₁, hspanned, hpure⟩ := Comes.bind h
    obtain ⟨rfl, rfl⟩ := hpure.pure
    obtain ⟨u, c₂, hskip, -, rfl⟩ := hspanned.spanned
    exact divides_linkage (hskip.skips hc) hin hreads
  · obtain ⟨hin', hascending⟩ := (h.yields.reads_textItem (t := t)).1 hin
    obtain ⟨c₁, hskips, rfl, hcovers⟩ := covers_textItem hc h
    have hlt : c₁.offset < c'.offset :=
      Nat.lt_of_sub_pos (hascending.fits _ (List.mem_singleton_self _)).size_pos
    exact (Cursor.Divides.gap hskips hin hin' hlt).trans
      (.code (hin.skips hskips) hcovers (fun ts hts ↦ .inr hts)
        (hapart _ (List.mem_singleton_self _)))
  · exact divides_declItem hin hc h hapart
  · obtain ⟨token, -, rfl⟩ := h.map
    exact absurd rfl (hstray token)

end Comes

/-- A statement that is kept is a unit. -/
theorem Comes.exists_unit_of_text (hin : c.In t) (hn : t.size < n) {span : Span}
    (h : item.Comes n c (.accepted (.text span) c')) (hapart : t.NumbersApart span) :
    ∃ gs, IsUnit gs ∧ t.slice? span = some (join (gs.flatMap Group.lexemes)) := by
  have hc := hin.length_lt hn
  obtain ⟨p, hp, h⟩ := h.firstOf
  simp only [List.mem_cons, List.not_mem_nil, or_false] at hp
  rcases hp with rfl | rfl | rfl | rfl | rfl | rfl
  · obtain ⟨_, c₁, -, hpure⟩ := Comes.bind h
    cases hpure.pure.1
  · obtain ⟨_, c₁, -, hpure⟩ := Comes.bind h
    cases hpure.pure.1
  · obtain ⟨_, c₁, -, hpure⟩ := Comes.bind h
    cases hpure.pure.1
  · obtain ⟨c₁, hskips, heq, gs, hlexes, htight, -, hmem⟩ := covers_textItem hc h
    obtain rfl := Item.text.inj heq
    have hin₁ := hin.skips hskips
    refine ⟨gs, isUnit_of_lexes hin₁ hlexes htight (fun ps hps hall ↦ .inr (hmem ps hps hall))
      hapart, ?_⟩
    obtain ⟨front, rfl, hfront⟩ := hin₁
    rw [hlexes.rest, hlexes.offset, Span.between, Nat.add_sub_cancel_left, ← hfront,
      ← List.append_assoc]
    exact Text.slice?_append _ _ _
  · obtain ⟨d, -, -, heq, -⟩ := covered_declItem hc h
    cases heq
  · obtain ⟨token, -, heq⟩ := h.map
    cases heq

/-- The text of items without stray tokens is divided into parts. -/
theorem Repeats.divides (h : (item.withRounds n).Repeats c is c') (hin : c.In t)
    (hn : t.size < n) (hstray : ∀ token, .stray token ∉ is)
    (hapart : ∀ s ∈ is.flatMap Item.units, t.NumbersApart s) :
    c'.In t ∧ c.Divides (is.flatMap Item.cuts) (is.flatMap Item.names) c' := by
  induction h with
  | nil c => exact ⟨hin, .refl c⟩
  | cons head tail ih =>
    have hin₁ := (head.comes.yields.reads_item hin).1.1
    rw [List.flatMap_cons] at hapart
    obtain ⟨hfirst, hrest⟩ := List.forall_mem_append.1 hapart
    obtain ⟨hin', hdivides⟩ :=
      ih hin₁ (fun token h ↦ hstray token (List.mem_cons_of_mem _ h)) hrest
    refine ⟨hin', (Comes.divides_item hin hn head.comes (fun token heq ↦ ?_) hfirst).trans hdivides⟩
    exact hstray token (heq ▸ List.mem_cons_self)

theorem Repeats.exists_unit_of_text (h : (item.withRounds n).Repeats c is c') (hin : c.In t)
    (hn : t.size < n) {span : Span} (hi : .text span ∈ is) (hapart : t.NumbersApart span) :
    ∃ gs, IsUnit gs ∧ t.slice? span = some (join (gs.flatMap Group.lexemes)) := by
  induction h with
  | nil => exact absurd hi List.not_mem_nil
  | cons head tail ih =>
    rcases List.mem_cons.1 hi with rfl | hi
    · exact Comes.exists_unit_of_text hin hn head.comes hapart
    · exact ih (head.comes.yields.reads_item hin).1.1 hi

end Parser

end ShaderLink
