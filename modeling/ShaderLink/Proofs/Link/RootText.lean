import ShaderLink.Proofs.Link.Interference
import ShaderLink.Proofs.Link.Needed
import ShaderLink.Proofs.Provenance.Shown

/-!
# The text of the root in the linked text

The linked text contains the text of the root, without what directs the linking and with names in
the place of references, and each other instance as a piece (`LinkJob.Closed.infix_output`). What
the names of instances are put in the place of shows them (`LinkJob.Closed.shows_name_root`), while
text at module level that declares nothing is left as it is written
(`LinkJob.Closed.shows_text_root`).
-/

namespace ShaderLink

namespace Traced

variable {tr root piece : Traced} {directives pieces : List Traced}

theorem text_endLine (tr : Traced) : tr.text <+: tr.endLine.text := by
  rw [endLine]
  split
  · exact List.prefix_refl _
  · exact List.prefix_refl _
  · exact List.prefix_append _ _
  · exact List.prefix_append _ _

/-- What is put together contains the text of the root and all pieces. -/
theorem infix_assemble (directives : List Traced) (root : Traced) (pieces : List Traced) :
    root.text <:+: (assemble directives root pieces).text ∧
      ∀ piece ∈ pieces, piece.text <:+: (assemble directives root pieces).text := by
  have hall (tr : Traced) :
      tr.text <+: (pieces.foldl (fun tr piece ↦ tr.endLine ++ piece) tr).text ∧
        ∀ piece ∈ pieces,
          piece.text <:+: (pieces.foldl (fun tr piece ↦ tr.endLine ++ piece) tr).text := by
    induction pieces generalizing tr with
    | nil => exact ⟨List.prefix_refl _, by simp⟩
    | cons first pieces ih =>
      obtain ⟨hfront, hpieces⟩ := ih (tr.endLine ++ first)
      rw [text_append] at hfront
      refine ⟨((text_endLine tr).trans (List.prefix_append _ _)).trans hfront,
        List.forall_mem_cons.2 ⟨?_, hpieces⟩⟩
      exact (List.suffix_append _ _).isInfix.trans hfront.isInfix
  obtain ⟨hfront, hpieces⟩ := hall
    (directives.foldl (fun tr d ↦ tr ++ d ++ separator 1) empty ++ root)
  exact ⟨(List.suffix_append _ _).isInfix.trans hfront.isInfix, hpieces⟩

end Traced

namespace LinkJob

variable (job : LinkJob)

/-- The text of the root in the linked text, whose bytes know which bytes of the parsed text they
have come from. -/
def rootSpliced (l : Linkage) : Traced :=
  (Traced.copy job.root.parsed 0 job.root.text).splice job.root.text.span
    (job.root.deletions ++ (job.ownRenames l).flatMap Prod.snd)

variable {job} {l : Linkage} {key : InstanceKey} {i : Instance} {d : Decl} {index : Nat}
  {p : Span × String} {span : Span} {old : Text}

/-- The linked text contains the text of the root and the pieces of instances. -/
theorem Closed.infix_output (h : job.Closed l) (hjob : job.Sound) {linked : Linked}
    (houtput : job.output l = .ok linked) :
    (job.rootSpliced l).text <:+: linked.map.text ∧
      ∀ e ∈ l.instances.toList.zipIdx, ∀ piece, job.piece e = .ok (some piece) →
        piece.map.text <:+: linked.map.text := by
  obtain ⟨conditions, hconditions⟩ := hjob.built.exists_parsedUnder
  obtain ⟨linked', houtput', -, htraces, -⟩ := h.exists_output hjob hconditions
  obtain rfl : linked' = linked := Except.ok.inj (houtput'.symm.trans houtput)
  obtain ⟨hroot, hpieces⟩ := Traced.infix_assemble
    ((job.foreignDirectives l).map fun d ↦ (moduleTraced conditions d.1).excerpt d.2 [] [])
    (job.rootTraced conditions l)
      (l.instances.toList.zipIdx.filterMap (job.pieceTraced? conditions))
  rw [htraces.text]
  refine ⟨?_, fun e he piece hpiece ↦ ?_⟩
  · have hsame : (job.rootSpliced l).text = (job.rootTraced conditions l).text :=
      Traced.text_spliced_congr (moduleSound hjob hconditions hjob.root).text_eq _ _ _
    rw [hsame]
    exact hroot
  · obtain ⟨piece?, hpiece', hleads⟩ :=
      h.exists_piece hjob hconditions (List.fst_mem_of_mem_zipIdx he)
    obtain rfl : piece? = some piece := Except.ok.inj (hpiece'.symm.trans hpiece)
    obtain ⟨tr, htr, hmap, -⟩ := hleads
    rw [hmap.traces.text]
    exact hpieces tr (List.mem_filterMap.2 ⟨e, he, htr⟩)

/-- In a declaration of the root the name of each instance stands in the place for it. -/
theorem Closed.shows_name_root (h : job.Closed l) (hjob : job.Sound)
    (hmem : (⟨.decl job.root.path index, []⟩, i) ∈ l.instances.toList)
    (hd : job.root.decl? index = some d) (hp : p ∈ job.namesIn l job.root d [] i.name) :
    (job.rootSpliced l).Shows job.root.parsed p.1 p.2.toList := by
  obtain ⟨conditions, hconditions⟩ := hjob.built.exists_parsedUnder
  obtain ⟨options, file, source, hparse⟩ := hjob.built.parsed hjob.root
  have horder := (moduleSound hjob hconditions hjob.root).inOrder
  have helement := Module.mem_elements_of_decl? hd
  obtain ⟨front, gs, back, hchain⟩ := Module.exists_chain hparse (List.mem_of_getElem? helement)
  obtain ⟨hinside, hapart⟩ := horder.apart_names (List.mem_of_getElem? helement)
  have hnodup := horder.nodup_names (List.mem_of_getElem? helement)
  have hrenames : i.renames = job.declRenames l job.root d [] i.name :=
    (h.settled _ i hmem).renames_decl rfl (decl?_of_module? hjob.root hd)
  have hown : (index, i.renames) ∈ job.ownRenames l :=
    List.mem_map_of_mem (List.mem_filter.2 ⟨hmem, job.isOwn_decl index⟩)
  have hspans {p : Span × String} (hp : p ∈ job.namesIn l job.root d [] i.name) :=
    hinside p.1 (mem_spans_of_mem_namesIn hp)
  by_cases hin : ⟨p.1, p.2.toList⟩ ∈
      job.root.deletions ++ (job.ownRenames l).flatMap Prod.snd
  · exact Traced.shows_of_mem (h.suit_root hjob) hin
  · have hnot : ⟨p.1, p.2.toList⟩ ∉ i.renames := fun hmem' ↦
      hin (List.mem_append_right _ (List.mem_flatMap.2 ⟨_, hown, hmem'⟩))
    have hslice := (mem_declRenames_or hchain.spelled hp).resolve_left (hrenames ▸ hnot)
    refine Traced.shows_of_apart (h.suit_root hjob) (hspans hp).1 (fun s hs ↦ ?_) hslice
    by_cases hsame : s ∈ i.renames
    · -- another name in the declaration
      obtain ⟨p', hp', rfl⟩ := mem_namesIn_of_mem_declRenames (hrenames ▸ hsame)
      refine hapart.forall (mem_spans_of_mem_namesIn hp) (mem_spans_of_mem_namesIn hp')
        fun heq ↦ hnot ?_
      rwa [eq_of_mem_namesIn hnodup hp hp' heq]
    · have hrenamesAt := h.renamesAt hjob
      refine Span.Apart.mono (horder.apart_root hrenamesAt helement rfl rfl hs
        fun r hr hsr hplace ↦ hsame ?_) (hspans hp).2 ⟨le_rfl, le_rfl⟩
      rwa [List.inj_on_of_nodup_map hrenamesAt.1 hr hown hplace] at hsr

/-- Text at module level that declares nothing is left as it is written. -/
theorem Closed.shows_text_root (h : job.Closed l) (hjob : job.Sound) {place : Span}
    (htext : .text place ∈ job.root.elements) (hfits : job.root.text.Fits span)
    (hinside : place.start ≤ span.start ∧ span.stop ≤ place.stop)
    (hold : job.root.text.slice? span = some old) :
    (job.rootSpliced l).Shows job.root.parsed span old := by
  obtain ⟨conditions, hconditions⟩ := hjob.built.exists_parsedUnder
  have horder := (moduleSound hjob hconditions hjob.root).inOrder
  have hrenamesAt := h.renamesAt hjob
  obtain ⟨index, helement⟩ := List.getElem?_of_mem htext
  refine Traced.shows_of_apart (h.suit_root hjob) hfits (fun s hs ↦ ?_) hold
  refine Span.Apart.mono (horder.apart_root hrenamesAt helement rfl rfl hs
    fun r hr hsr hplace ↦ ?_) hinside ⟨le_rfl, le_rfl⟩
  -- the element is no declaration
  obtain ⟨d, hd, -⟩ := hrenamesAt.2 r hr (List.ne_nil_of_mem hsr)
  have heq := Module.mem_elements_of_decl? hd
  rw [hplace, helement] at heq
  cases heq

end LinkJob

end ShaderLink
