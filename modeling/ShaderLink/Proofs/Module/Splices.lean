import ShaderLink.Proofs.Module.Layout
import ShaderLink.Proofs.Provenance.Splice

/-!
# Renaming inside a module

The splices that linking asks for suit the text of a module. For an instance of a declaration they
replace the declaration's name and references in it, each at most once (`Decl.Renames`), and these
lie apart by the layout of the module. In the text of the root, splices for several declarations
come together with the deletion of whole elements; all of these lie apart as well.
-/

namespace ShaderLink

/-- The splices replace the name of the declaration or references in it, each at most once. -/
def Decl.Renames (m : Module) (d : Decl) (splices : List Splice) : Prop :=
  (splices.map Splice.span).Sublist (d.nameSpan :: (m.references d).map Reference.span)

/-- The elements of the module are in order. -/
def Module.InOrder (m : Module) : Prop :=
  ElementsInOrder m.text m.elements m.text.size

namespace Element

variable {e : Element}

theorem outer?_of_isLinkage (h : e.isLinkage = true) : e.outer? = some e.span := by
  cases e with
  | module path span => rfl
  | importing tree dialect span => rfl
  | exporting params span => rfl
  | _ => cases h

theorem span_of_reference? {r : Reference} (h : e.reference? = some r) : e.span = r.span := by
  cases e with
  | reference r' =>
    obtain rfl := Option.some.inj h
    rfl
  | _ => cases h

end Element

namespace Module

variable {m : Module} {d : Decl} {splices : List Splice}

theorem mem_elements_of_decl? {index : Nat} (h : m.decl? index = some d) :
    m.elements[index]? = some (.decl d) := by
  obtain ⟨e, he, hd⟩ := Option.bind_eq_some_iff.1 h
  cases e with
  | decl d' =>
    obtain rfl := Option.some.inj hd
    exact he
  | _ => cases hd

/-- The declarations of a module are numbered by their places among the elements. -/
theorem mem_decls_iff {index : Nat} {d : Decl} : (index, d) ∈ m.decls ↔ m.decl? index = some d := by
  rw [decls, List.mem_filterMap, decl?, Option.bind_eq_some_iff]
  constructor
  · rintro ⟨⟨e, place⟩, hmem, hd⟩
    obtain ⟨d', hd', heq⟩ := Option.map_eq_some_iff.1 hd
    obtain ⟨rfl, rfl⟩ := Prod.mk.inj heq
    exact ⟨e, List.mem_zipIdx_iff_getElem?.1 hmem, hd'⟩
  · rintro ⟨e, he, hd⟩
    exact ⟨(e, index), List.mem_zipIdx_iff_getElem?.2 he, by rw [hd]; rfl⟩

/-- Different declarations are at different places. -/
theorem nodup_decls (m : Module) : (m.decls.map Prod.fst).Nodup := by
  have hplaces : m.elements.zipIdx.Pairwise fun e e' ↦ e.2 ≠ e'.2 := by
    refine List.pairwise_map.1 ?_
    rw [List.zipIdx_map_snd]
    exact List.nodup_range' _
  refine List.pairwise_map.2 (List.pairwise_filterMap.2 (hplaces.imp ?_))
  intro e e' hne d hd d' hd' heq
  obtain ⟨_, -, rfl⟩ := Option.map_eq_some_iff.1 hd
  obtain ⟨_, -, rfl⟩ := Option.map_eq_some_iff.1 hd'
  exact hne heq

/-- The references in a declaration are some of the elements in it. -/
theorem sublist_references (m : Module) (d : Decl) :
    ((m.references d).map Reference.span).Sublist
      ((d.childrenIn m.elements).map Element.span) := by
  have hsub (es : List Element) :
      ((es.filterMap Element.reference?).map Reference.span).Sublist (es.map Element.span) := by
    induction es with
    | nil => exact .refl _
    | cons e es ih =>
      rw [List.filterMap_cons]
      split
      · exact ih.cons e.span
      · rename_i r hr
        rw [List.map_cons, List.map_cons, Element.span_of_reference? hr]
        exact ih.cons_cons r.span
  exact hsub _

/-- The name of a declaration and the references in it lie apart inside it. -/
theorem InOrder.apart_names (h : m.InOrder) (hd : .decl d ∈ m.elements) :
    (∀ s ∈ d.nameSpan :: (m.references d).map Reference.span,
      m.text.Fits s ∧ d.span.start ≤ s.start ∧ s.stop ≤ d.span.stop) ∧
      (d.nameSpan :: (m.references d).map Reference.span).Pairwise Span.Apart := by
  obtain ⟨front, back, hchildren, hascending⟩ := (h.inside d hd).2
  have hall : (d.nameSpan :: (m.references d).map Reference.span).Sublist
      (d.nameSpan :: (front ++ back)) := by
    rw [← hchildren]
    exact (sublist_references m d).cons_cons d.nameSpan
  have hperm : (d.nameSpan :: (front ++ back)).Perm (front ++ d.nameSpan :: back) :=
    List.perm_middle.symm
  constructor
  · intro s hs
    have hmem : s ∈ front ++ d.nameSpan :: back := hperm.mem_iff.1 (hall.subset hs)
    exact ⟨hascending.fits s hmem, hascending.inside s hmem⟩
  · have hapart : (front ++ d.nameSpan :: back).Pairwise Span.Apart := hascending.ordered.imp .inl
    exact ((hperm.pairwise_iff fun h ↦ Span.Apart.symm h).2 hapart).sublist hall

/-- Renames lie inside their declaration and apart from one another. -/
theorem InOrder.apart_renames (h : m.InOrder) (hd : .decl d ∈ m.elements)
    (hsplices : d.Renames m splices) :
    (∀ s ∈ splices, m.text.Fits s.span ∧ d.span.start ≤ s.span.start ∧
      s.span.stop ≤ d.span.stop) ∧ splices.Pairwise fun s s' ↦ s.span.Apart s'.span := by
  obtain ⟨hinside, hapart⟩ := h.apart_names hd
  exact ⟨fun s hs ↦ hinside s.span (hsplices.subset (List.mem_map_of_mem hs)),
    List.pairwise_map.1 (hapart.sublist hsplices)⟩

/-- The name of a declaration and the references in it have spans of their own. -/
theorem InOrder.nodup_names (h : m.InOrder) (hd : .decl d ∈ m.elements) :
    (d.nameSpan :: (m.references d).map Reference.span).Nodup := by
  obtain ⟨hinside, hapart⟩ := h.apart_names hd
  refine hapart.imp_of_mem fun {s s'} hs _ hapart heq ↦ ?_
  subst heq
  have hlt := (hinside s hs).1.start_lt_stop
  rcases hapart with hle | hle
  · omega
  · omega

theorem InOrder.fits_outer (h : m.InOrder) {e : Element} (he : e ∈ m.elements) {s : Span}
    (hs : e.outer? = some s) : m.text.Fits s :=
  h.outer.fits s (List.mem_filterMap.2 ⟨e, he, hs⟩)

/-- Renaming in a declaration suits the text of the declaration. -/
theorem InOrder.suit_renames (h : m.InOrder) (hd : .decl d ∈ m.elements)
    (hsplices : d.Renames m splices) : Splice.Suit m.text d.span splices := by
  obtain ⟨hall, hapart⟩ := h.apart_renames hd hsplices
  have hfits := h.fits_outer hd (s := d.span) rfl
  exact ⟨hfits.start, hfits.stop, fun s hs ↦ (hall s hs).1, fun s hs ↦ (hall s hs).2, hapart⟩

/-- Elements at different places of the module lie apart. -/
theorem InOrder.apart_outer (h : m.InOrder) {i j : Nat} {e e' : Element} {s s' : Span}
    (hi : m.elements[i]? = some e) (hj : m.elements[j]? = some e') (hne : i ≠ j)
    (hs : e.outer? = some s) (hs' : e'.outer? = some s') : s.Apart s' := by
  have hpairwise := List.pairwise_filterMap.1 (h.outer.ordered.imp (S := Span.Apart) .inl)
  obtain ⟨hlt, rfl⟩ := List.getElem?_eq_some_iff.1 hi
  obtain ⟨hlt', rfl⟩ := List.getElem?_eq_some_iff.1 hj
  rcases Nat.lt_or_gt_of_ne hne with hij | hji
  · exact List.pairwise_iff_getElem.1 hpairwise i j hlt hlt' hij s hs s' hs'
  · exact (List.pairwise_iff_getElem.1 hpairwise j i hlt' hlt hji s' hs' s hs).symm

/-- What is deleted from the text of a root. -/
def deletions (m : Module) : List Splice :=
  (m.elements.filter Element.isLinkage).map fun e ↦ ⟨e.span, []⟩

/-- What is deleted is the outer part of a linkage element. -/
theorem exists_of_mem_deletions {s : Splice} (h : s ∈ m.deletions) :
    ∃ (i : Nat) (e : Element), m.elements[i]? = some e ∧ e.isLinkage = true ∧
      e.outer? = some s.span := by
  obtain ⟨e, he, rfl⟩ := List.mem_map.1 h
  obtain ⟨hmem, hlinkage⟩ := List.mem_filter.1 he
  obtain ⟨i, hi⟩ := List.getElem?_of_mem hmem
  exact ⟨i, e, hi, hlinkage, Element.outer?_of_isLinkage hlinkage⟩

/-- Deletions are apart from one another. -/
theorem InOrder.apart_deletions (h : m.InOrder) :
    m.deletions.Pairwise fun s s' ↦ s.span.Apart s'.span := by
  have hpairwise := List.pairwise_filterMap.1 (h.outer.ordered.imp (S := Span.Apart) .inl)
  refine List.pairwise_map.2 ((hpairwise.sublist List.filter_sublist).imp_of_mem
    fun {e e'} he he' hapart ↦ ?_)
  exact hapart _ (Element.outer?_of_isLinkage (List.mem_filter.1 he).2) _
    (Element.outer?_of_isLinkage (List.mem_filter.1 he').2)

/-- The splices of several declarations, each with the place of the declaration. -/
def RenamesAt (m : Module) (renames : List (Nat × List Splice)) : Prop :=
  (renames.map Prod.fst).Nodup ∧
    ∀ r ∈ renames, r.2 ≠ [] → ∃ d, m.decl? r.1 = some d ∧ d.Renames m r.2

/-- So are renames, also of several declarations. -/
theorem InOrder.apart_renamesAt (h : m.InOrder) {renames : List (Nat × List Splice)}
    (hrenames : m.RenamesAt renames) :
    (renames.flatMap Prod.snd).Pairwise fun s s' ↦ s.span.Apart s'.span := by
  obtain ⟨hplaces, hall⟩ := hrenames
  refine List.pairwise_flatMap.2 ⟨fun r hr ↦ ?_, ?_⟩
  · by_cases hnil : r.2 = []
    · rw [hnil]
      exact .nil
    · obtain ⟨d, hd, hsplices⟩ := hall r hr hnil
      exact (h.apart_renames (List.mem_of_getElem? (mem_elements_of_decl? hd)) hsplices).2
  · refine (List.pairwise_map.1 hplaces).imp_of_mem fun {r r'} hr hr' hne s hs s' hs' ↦ ?_
    obtain ⟨d, hd, hsplices⟩ := hall r hr (List.ne_nil_of_mem hs)
    obtain ⟨d', hd', hsplices'⟩ := hall r' hr' (List.ne_nil_of_mem hs')
    have hi := mem_elements_of_decl? hd
    have hj := mem_elements_of_decl? hd'
    have hin := ((h.apart_renames (List.mem_of_getElem? hi) hsplices).1 s hs).2
    have hin' := ((h.apart_renames (List.mem_of_getElem? hj) hsplices').1 s' hs').2
    exact (h.apart_outer hi hj hne rfl rfl).mono hin hin'

/-- What is kept of an element lies apart from what is deleted and from what is renamed in the
declarations at other places. -/
theorem InOrder.apart_root (h : m.InOrder) {renames : List (Nat × List Splice)}
    (hrenames : m.RenamesAt renames) {index : Nat} {e : Element} {span : Span}
    (he : m.elements[index]? = some e) (hspan : e.outer? = some span)
    (hkept : e.isLinkage = false) {s : Splice}
    (hs : s ∈ m.deletions ++ renames.flatMap Prod.snd)
    (hother : ∀ r ∈ renames, s ∈ r.2 → r.1 ≠ index) : span.Apart s.span := by
  rcases List.mem_append.1 hs with hs | hs
  · obtain ⟨i, e', hi, hlinkage, hspan'⟩ := exists_of_mem_deletions hs
    refine h.apart_outer he hi ?_ hspan hspan'
    rintro rfl
    obtain rfl := Option.some.inj (he.symm.trans hi)
    exact Bool.false_ne_true (hkept.symm.trans hlinkage)
  · obtain ⟨r, hr, hs⟩ := List.mem_flatMap.1 hs
    obtain ⟨d, hd, hsplices⟩ := hrenames.2 r hr (List.ne_nil_of_mem hs)
    have hj := mem_elements_of_decl? hd
    have hin := ((h.apart_renames (List.mem_of_getElem? hj) hsplices).1 s hs).2
    exact (h.apart_outer he hj (hother r hr hs).symm hspan rfl).mono ⟨le_rfl, le_rfl⟩ hin

/-- Deleting the elements that only direct the linking, and renaming in declarations of different
places, suits the text of the module. -/
theorem InOrder.suit_root (h : m.InOrder) {renames : List (Nat × List Splice)}
    (hrenames : m.RenamesAt renames) :
    Splice.Suit m.text m.text.span (m.deletions ++ renames.flatMap Prod.snd) := by
  have hfits : ∀ s ∈ m.deletions ++ renames.flatMap Prod.snd, m.text.Fits s.span := by
    intro s hs
    rcases List.mem_append.1 hs with hs | hs
    · obtain ⟨i, e, hi, -, hspan⟩ := exists_of_mem_deletions hs
      exact h.fits_outer (List.mem_of_getElem? hi) hspan
    · obtain ⟨r, hr, hs⟩ := List.mem_flatMap.1 hs
      obtain ⟨d, hd, hsplices⟩ := hrenames.2 r hr (List.ne_nil_of_mem hs)
      exact ((h.apart_renames (List.mem_of_getElem? (mem_elements_of_decl? hd)) hsplices).1 s hs).1
  have hstop : m.text.span.stop = m.text.size := Nat.zero_add _
  refine ⟨m.text.isBoundary_zero, by rw [hstop]; exact m.text.isBoundary_size, hfits,
    fun s hs ↦ ⟨Nat.zero_le _, by rw [hstop]; exact (hfits s hs).stop.le_size⟩,
    List.pairwise_append.2 ⟨h.apart_deletions, h.apart_renamesAt hrenames, fun s hs s' hs' ↦ ?_⟩⟩
  -- an element that is deleted and one that is renamed in are not the same
  obtain ⟨i, e, hi, hlinkage, hspan⟩ := exists_of_mem_deletions hs
  obtain ⟨r, hr, hs'⟩ := List.mem_flatMap.1 hs'
  obtain ⟨d, hd, hsplices⟩ := hrenames.2 r hr (List.ne_nil_of_mem hs')
  have hj := mem_elements_of_decl? hd
  have hne : i ≠ r.1 := by
    rintro rfl
    obtain rfl := Option.some.inj (hi.symm.trans hj)
    cases hlinkage
  have hin' := ((h.apart_renames (List.mem_of_getElem? hj) hsplices).1 s' hs').2
  exact (h.apart_outer hi hj hne hspan rfl).mono ⟨le_rfl, le_rfl⟩ hin'

end Module

end ShaderLink
