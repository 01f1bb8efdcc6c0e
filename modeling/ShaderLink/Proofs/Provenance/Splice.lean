import ShaderLink.Proofs.Provenance.Merge
import ShaderLink.Splice

/-!
# Splicing keeps provenance

On a traced text a splice is what one expects of it: the bytes of the span make way for the bytes of
the new text, which replace the range that those came from (`Traced.splice`). Splices that fit the
text and lie apart (`Splice.Suit`) can always be applied, and the map that they leave leads rightly
into the text they were applied to.
-/

namespace ShaderLink

/-! ### Splices that lie apart -/

/-- No byte is in both spans. -/
def Span.Apart (s s' : Span) : Prop :=
  s.stop ≤ s'.start ∨ s'.stop ≤ s.start

theorem Span.Apart.symm {s s' : Span} (h : s.Apart s') : s'.Apart s :=
  Or.symm h

instance : Std.Symm Span.Apart :=
  ⟨fun _ _ ↦ Span.Apart.symm⟩

/-- What is inside spans that lie apart lies apart. -/
theorem Span.Apart.mono {s s' t t' : Span} (h : s.Apart s')
    (ht : s.start ≤ t.start ∧ t.stop ≤ s.stop) (ht' : s'.start ≤ t'.start ∧ t'.stop ≤ s'.stop) :
    t.Apart t' :=
  h.imp (fun h ↦ (ht.2.trans h).trans ht'.1) fun h ↦ (ht'.2.trans h).trans ht.1

namespace Splice

/-- The splices fit the text, are inside the bounds and lie apart. -/
structure Suit (t : Text) (bounds : Span) (splices : List Splice) : Prop where
  start : t.IsBoundary bounds.start
  stop : t.IsBoundary bounds.stop
  fits : ∀ s ∈ splices, t.Fits s.span
  inside : ∀ s ∈ splices, bounds.start ≤ s.span.start ∧ s.span.stop ≤ bounds.stop
  apart : splices.Pairwise fun s s' ↦ s.span.Apart s'.span

theorem before_iff {s s' : Splice} :
    s.before s' = true ↔ s.span.start < s'.span.start ∨
      s.span.start = s'.span.start ∧ s.span.stop ≤ s'.span.stop := by
  rw [before, Span.order]
  rcases Nat.lt_trichotomy s.span.start s'.span.start with h | h | h
  · rw [Nat.compare_eq_lt.2 h]
    simp [h]
  · rw [Nat.compare_eq_eq.2 h, Ordering.eq_then, Nat.isLE_compare]
    simp [h]
  · rw [Nat.compare_eq_gt.2 h]
    simp only [Ordering.gt_then, Ordering.isLE_gt, Bool.false_eq_true, false_iff]
    omega

theorem pairwise_sortBy_before (splices : List Splice) :
    (sortBy before splices).Pairwise (before · ·) := by
  refine pairwise_sortBy (fun a b c hab hbc ↦ ?_) (fun a b ↦ ?_) splices
  · simp only [before_iff] at hab hbc ⊢
    omega
  · simp only [Bool.or_eq_true, before_iff]
    omega

/-- Splices that lie apart are in order once they are sorted. -/
theorem Suit.ascending {t : Text} {bounds : Span} {splices : List Splice}
    (h : Suit t bounds splices) :
    t.Ascending bounds.start ((sortBy before splices).map Splice.span) bounds.stop := by
  have hperm := sortBy_perm before splices
  have hapart : (sortBy before splices).Pairwise fun s s' ↦ s.span.Apart s'.span :=
    (hperm.pairwise_iff fun h ↦ Span.Apart.symm h).2 h.apart
  have hfits : ∀ s ∈ sortBy before splices, t.Fits s.span :=
    fun s hs ↦ h.fits s (hperm.mem_iff.1 hs)
  refine ⟨by simp only [Span.stop]; omega, ?_, ?_, ?_⟩
  · simpa using hfits
  · simpa using fun s hs ↦ h.inside s (hperm.mem_iff.1 hs)
  · refine List.pairwise_map.2
      (((pairwise_sortBy_before splices).and hapart).imp_of_mem fun {s s'} _ hs' hboth ↦ ?_)
    obtain ⟨hbefore, hleft | hright⟩ := hboth
    · exact hleft
    · -- the later one would have to end before it starts
      have hlt := (hfits s' hs').start_lt_stop
      have hbefore := before_iff.1 hbefore
      omega

/-- Splices that suit a text are all inside the bounds. -/
theorem Suit.filter_eq {t : Text} {bounds : Span} {splices : List Splice}
    (h : Suit t bounds splices) : splices.filter (fun s ↦ bounds.contains s.span) = splices := by
  refine List.filter_eq_self.2 fun s hs ↦ ?_
  simpa [Span.contains] using h.inside s hs

end Splice

/-! ### Splicing traced texts -/

namespace Traced

/-- The bytes that a splice puts in the place of its span. -/
def replacement (tr : Traced) (s : Splice) : Traced :=
  .constant s.text (Origin.hull (tr.slice s.span).origins)

/-- The text between two offsets, with splices in order. -/
def spliced (tr : Traced) (start stop : Nat) : List Splice → Traced
  | [] => tr.slice (Span.between start stop)
  | s :: ss =>
    tr.slice (Span.between start s.span.start) ++
      (tr.replacement s ++ spliced tr s.span.stop stop ss)

/-- The part of a text in the bounds, with splices in the order of their spans. -/
def splice (tr : Traced) (bounds : Span) (splices : List Splice) : Traced :=
  tr.spliced bounds.start bounds.stop (sortBy Splice.before splices)

variable {tr : Traced} {file : SourceText} {s : Span}

/-- The origins of a slice are those of the span. -/
theorem getElem?_slice {inside : Text} (h : tr.text.slice? s = some inside) {p : Nat}
    (hp : p < s.size) : (tr.slice s).origins[p]? = tr.origins[s.start + p]? := by
  rw [(slice_of_slice? h).2, List.getElem?_take_of_lt hp, List.getElem?_drop]

/-- A text in the place of a span replaces a range that all bytes of the span come from. -/
theorem exists_hull_slice (hfile : tr.InFile file) (hs : tr.text.Fits s) :
    ∃ range, Origin.hull (tr.slice s).origins = .replaced file range ∧
      ∀ q, s.start ≤ q → q < s.stop → ∃ o, tr.origins[q]? = some o ∧ o.Within file range := by
  obtain ⟨inside, hinside⟩ := hs.exists_slice?
  have hlength : (tr.slice s).origins.length = s.size := by
    rw [(tr.slice s).length_origins, (slice_of_slice? hinside).1, Text.size_of_slice? hinside]
  have hne : (tr.slice s).origins ≠ [] := fun hnil ↦ by
    have hpos := hs.size_pos
    rw [← hlength, hnil] at hpos
    exact absurd hpos (Nat.lt_irrefl 0)
  obtain ⟨range, hhull, hall⟩ := Origin.hull_eq hne (hfile.slice s)
  refine ⟨range, hhull, fun q hlo hhi ↦ ?_⟩
  have hq : q - s.start < s.size := by
    simp only [Span.stop] at hhi
    omega
  have hget := getElem?_slice hinside hq
  rw [Nat.add_sub_cancel' hlo, List.getElem?_eq_getElem (by omega)] at hget
  exact ⟨_, hget.symm, hall _ (List.getElem_mem _)⟩

theorem InFile.replacement (hfile : tr.InFile file) {sp : Splice} (hs : tr.text.Fits sp.span) :
    (tr.replacement sp).InFile file := by
  obtain ⟨range, hhull, -⟩ := exists_hull_slice hfile hs
  intro o ho
  rw [Traced.replacement, hhull] at ho
  obtain rfl := List.eq_of_mem_replicate ho
  exact ⟨range, rfl⟩

theorem InFile.spliced (hfile : tr.InFile file) {start stop : Nat} {splices : List Splice}
    (hfits : ∀ s ∈ splices, tr.text.Fits s.span) : (tr.spliced start stop splices).InFile file := by
  induction splices generalizing start with
  | nil => exact hfile.slice _
  | cons s ss ih =>
    obtain ⟨hs, hss⟩ := List.forall_mem_cons.1 hfits
    exact (hfile.slice _).append ((hfile.replacement hs).append (ih hss))

theorem Faithful.spliced (h : tr.Faithful) (hfile : tr.InFile file) {start stop : Nat}
    {splices : List Splice} (hfits : ∀ s ∈ splices, tr.text.Fits s.span) :
    (tr.spliced start stop splices).Faithful := by
  induction splices generalizing start with
  | nil => exact h.slice _
  | cons s ss ih =>
    obtain ⟨hs, hss⟩ := List.forall_mem_cons.1 hfits
    obtain ⟨range, hhull, -⟩ := exists_hull_slice hfile hs
    have hreplacement : (tr.replacement s).Faithful := by
      rw [replacement, hhull]
      exact faithful_constant fun file n ↦ nofun
    exact (h.slice _).append (hreplacement.append (ih hss))

end Traced

/-! ### Splicing with a map -/

namespace SourceMap

/-- A map that is being built: it has the text so far, and its entries lead rightly into the inner
text, except for those that are for nothing and will be left out. -/
structure Building (inner : Traced) (id : SourceId) (m : SourceMap) (tr : Traced) : Prop where
  text : m.text = tr.text
  tiled : m.Tiled
  entries : ∀ e ∈ m.entries, 0 < e.target.size → e.Through inner id tr.origins

variable {inner tr tr' : Traced} {id : SourceId} {m : SourceMap} {file : SourceText}

/-- An entry for added text leads rightly if it does so for that text alone. -/
theorem Building.add (h : Building inner id m tr) (tr' : Traced) {source : SourceId} {origin : Span}
    (hentry : 0 < tr'.text.size →
      (⟨source, origin, ⟨m.text.size, tr'.text.size⟩⟩ : Entry).Through inner id
        (tr ++ tr').origins) :
    Building inner id (m.add tr'.text source origin) (tr ++ tr') where
  text := by rw [Traced.text_append, ← h.text]; rfl
  tiled := h.tiled.add tr'.text source origin
  entries e he hpos := by
    rcases List.mem_append.1 he with he | he
    · exact (h.entries e he hpos).append tr'.origins
    · obtain rfl := List.mem_singleton.1 he
      exact hentry hpos

/-- The origin of a byte of added text. -/
theorem Building.getElem?_append (h : Building inner id m tr) {p : Nat} (hp : m.text.size ≤ p) :
    (tr ++ tr').origins[p]? = tr'.origins[p - m.text.size]? := by
  have hlength : tr.origins.length = m.text.size := by rw [tr.length_origins, h.text]
  rw [Traced.origins_append, List.getElem?_append_right (by omega), hlength]

theorem Building.exists_addCopy (h : Building inner id m tr) {s : Span}
    (hstart : inner.text.IsBoundary s.start) (hstop : inner.text.IsBoundary s.stop) :
    ∃ m', m.addCopy inner.text id s = .ok m' ∧ m'.id = m.id ∧
      Building inner id m' (tr ++ inner.slice s) := by
  obtain ⟨inside, hinside⟩ := Text.exists_slice? hstart hstop
  have htext : (inner.slice s).text = inside := (Traced.slice_of_slice? hinside).1
  have hsize : inside.size = s.size := Text.size_of_slice? hinside
  refine ⟨m.add inside id s, by rw [addCopy, hinside], rfl, ?_⟩
  rw [← htext]
  refine h.add _ fun hpos ↦ ⟨rfl, ?_, hstop.le_size, fun _ p hp hp' ↦ ?_, fun hno ↦ ?_⟩
  · rwa [htext, hsize] at hpos
  · rw [htext, hsize, Span.stop] at hp'
    dsimp only at hp hp'
    have hlt : p - m.text.size < s.size := by omega
    have hget := Traced.getElem?_slice hinside hlt
    have hbound : s.start + (p - m.text.size) < inner.origins.length := by
      have hle := hstop.le_size
      rw [inner.length_origins]
      simp only [Span.stop] at hle
      omega
    refine ⟨_, _, ?_, List.getElem?_eq_getElem hbound, .refl _⟩
    rw [h.getElem?_append hp, hget, List.getElem?_eq_getElem hbound]
  · rw [htext] at hno
    simp [Entry.isCopy, hsize] at hno

theorem Building.add_replacement (h : Building inner id m tr) (hfile : inner.InFile file)
    {s : Splice} (hs : inner.text.Fits s.span) :
    Building inner id (m.add s.text id s.span) (tr ++ inner.replacement s) := by
  obtain ⟨range, hhull, hall⟩ := Traced.exists_hull_slice hfile hs
  have horigin {p : Nat} (hp : m.text.size ≤ p) (hp' : p < m.text.size + s.text.size) :
      (tr ++ inner.replacement s).origins[p]? = some (.replaced file range) := by
    have hlt : p - m.text.size < s.text.size := by omega
    rw [h.getElem?_append hp, Traced.replacement, hhull]
    simp [Traced.constant, hlt]
  refine h.add (inner.replacement s) fun _ ↦
    ⟨rfl, hs.size_pos, hs.stop.le_size, fun hcopy p hp hp' ↦ ?_, fun _ p hp hp' ↦ ?_⟩
  · -- a replacement of the same length
    have hsize : s.span.size = s.text.size := by
      simpa [Entry.isCopy, Traced.replacement, Traced.constant] using hcopy
    have hp'' : p < m.text.size + s.text.size := hp'
    dsimp only at hp
    obtain ⟨o, ho, hin⟩ := hall (s.span.start + (p - m.text.size)) (by omega) (by
      simp only [Span.stop]
      omega)
    exact ⟨_, o, horigin hp hp'', ho, .inr ⟨file, range, rfl, hin⟩⟩
  · exact ⟨file, range, horigin hp hp', hall⟩

/-- Copies and replacements in turn build the spliced text. -/
theorem Building.exists_addSpliced (hfile : inner.InFile file) {splices : List Splice}
    {start stop : Nat} (h : Building inner id m tr) (hstart : inner.text.IsBoundary start)
    (hstop : inner.text.IsBoundary stop)
    (hascending : inner.text.Ascending start (splices.map Splice.span) stop) :
    ∃ m', Splice.addSpliced m inner.text id start stop splices = .ok m' ∧ m'.id = m.id ∧
      Building inner id m' (tr ++ inner.spliced start stop splices) := by
  induction splices generalizing m tr start with
  | nil =>
    exact h.exists_addCopy hstart (by rwa [Span.stop_between hascending.le])
  | cons s ss ih =>
    obtain ⟨hfirst, hrest⟩ := hascending.uncons
    have hs : inner.text.Fits s.span := hfirst.fits s.span (List.mem_singleton_self _)
    have hle : start ≤ s.span.start := (hfirst.inside s.span (List.mem_singleton_self _)).1
    obtain ⟨m₁, hm₁, hid₁, hbuilding₁⟩ := h.exists_addCopy (s := Span.between start s.span.start)
      hstart (by rw [Span.stop_between hle]; exact hs.start)
    obtain ⟨m₂, hm₂, hid₂, hbuilding₂⟩ := ih (hbuilding₁.add_replacement hfile hs) hs.stop hrest
    refine ⟨m₂, ?_, hid₂.trans hid₁, ?_⟩
    · rw [Splice.addSpliced, if_neg (by omega), hm₁]
      exact hm₂
    · rwa [Traced.append_assoc, Traced.append_assoc] at hbuilding₂

/-- Splices that suit a text can be applied, and the map leads back into the text. -/
theorem exists_applyAll (hfile : inner.InFile file) {bounds : Span} {splices : List Splice}
    (h : Splice.Suit inner.text bounds splices) {given : Option Span}
    (hgiven : given.getD inner.text.span = bounds) (id : SourceId) :
    ∃ m, Splice.applyAll inner.text id splices given = .ok m ∧ m.id = id.derived "sliced" ∧
      m.Through inner id (inner.splice bounds splices) := by
  have hempty : Building inner id (empty (id.derived "sliced")) .empty :=
    ⟨rfl, tiled_empty _, fun e he ↦ absurd he List.not_mem_nil⟩
  obtain ⟨m, hm, hid, hbuilding⟩ := hempty.exists_addSpliced hfile h.start h.stop h.ascending
  refine ⟨m.compact, ?_, hid, hbuilding.text, hbuilding.tiled.covered.exact_compact, ?_⟩
  · simp only [Splice.applyAll, hgiven, h.filter_eq, hm, Bind.bind, Except.bind]
    rfl
  · rw [hbuilding.tiled.covered.entries_compact]
    refine Entry.forall_mem_joinAll (fun e f hjoins he hf ↦ he.join hjoins hf) fun e he ↦ ?_
    obtain ⟨hmem, hne⟩ := List.mem_filter.1 he
    refine hbuilding.entries e hmem ?_
    simp only [Span.isEmpty, Bool.not_eq_true', beq_eq_false_iff_ne] at hne
    omega

end SourceMap

end ShaderLink
