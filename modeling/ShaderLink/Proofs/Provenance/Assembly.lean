import ShaderLink.Link.Basic
import ShaderLink.Proofs.Provenance.Agreement

/-!
# Putting texts together keeps provenance

A linked text consists of parts with line breaks between them. The same is done here to traced
texts, and the map of the whole traces the whole if the maps of the parts trace the parts.
-/

namespace ShaderLink

namespace Traced

/-- Line breaks that come from nowhere. -/
def separator (breaks : Nat) : Traced :=
  .constant (List.replicate breaks '\n') (.inserted separatorId)

/-- Ends a text with a blank line, unless it is empty. -/
def endLine (tr : Traced) : Traced :=
  match tr.text.reverse with
  | [] => tr
  | '\n' :: '\n' :: _ => tr
  | '\n' :: _ => tr ++ separator 1
  | _ => tr ++ separator 2

/-- Puts texts together: directives, the text of the root, and the other instances. -/
def assemble (directives : List Traced) (root : Traced) (pieces : List Traced) : Traced :=
  pieces.foldl (fun tr piece ↦ tr.endLine ++ piece)
    (directives.foldl (fun tr d ↦ tr ++ d ++ separator 1) empty ++ root)

/-- Every byte comes from one of the files or is a line break put in between, and what is said to be
copied is what stands in the file. -/
structure Sourced (files : List SourceText) (tr : Traced) : Prop where
  faithful : tr.Faithful
  known : ∀ o ∈ tr.origins, (∃ file ∈ files, ∃ s, o.range? = some (file, s)) ∨
    o = .inserted separatorId

variable {files : List SourceText} {file : SourceText} {tr tr' root : Traced}
  {directives pieces : List Traced}

/-- What comes from one file comes from the files, if it is one of them. -/
theorem InFile.sourced (h : tr.InFile file) (hfaithful : tr.Faithful) (hfile : file ∈ files) :
    tr.Sourced files :=
  ⟨hfaithful, fun o ho ↦ .inl ⟨file, hfile, h o ho⟩⟩

theorem Sourced.append (h : tr.Sourced files) (h' : tr'.Sourced files) :
    (tr ++ tr').Sourced files :=
  ⟨h.faithful.append h'.faithful, fun o ho ↦ (List.mem_append.1 ho).elim (h.known o) (h'.known o)⟩

theorem sourced_empty (files : List SourceText) : empty.Sourced files :=
  ⟨faithful_empty, fun _ ho ↦ absurd ho List.not_mem_nil⟩

/-- Line breaks need no file. -/
theorem sourced_separator (files : List SourceText) (breaks : Nat) :
    (separator breaks).Sourced files :=
  ⟨faithful_constant fun _ _ ↦ nofun, fun _ ho ↦ .inr (List.eq_of_mem_replicate ho)⟩

/-- Ending a text with a blank line only adds line breaks. -/
theorem Sourced.endLine (h : tr.Sourced files) : tr.endLine.Sourced files := by
  rw [Traced.endLine]
  split
  · exact h
  · exact h
  · exact h.append (sourced_separator files 1)
  · exact h.append (sourced_separator files 2)

/-- A text that is put together comes from the files that its parts come from. -/
theorem sourced_assemble (hdirectives : ∀ d ∈ directives, d.Sourced files)
    (hroot : root.Sourced files) (hpieces : ∀ p ∈ pieces, p.Sourced files) :
    (assemble directives root pieces).Sourced files := by
  have hfront (tr : Traced) (h : tr.Sourced files) :
      (directives.foldl (fun tr d ↦ tr ++ d ++ separator 1) tr).Sourced files := by
    induction directives generalizing tr with
    | nil => exact h
    | cons d directives ih =>
      obtain ⟨hd, hdirectives⟩ := List.forall_mem_cons.1 hdirectives
      exact ih hdirectives _ ((h.append hd).append (sourced_separator files 1))
  have hall (tr : Traced) (h : tr.Sourced files) :
      (pieces.foldl (fun tr piece ↦ tr.endLine ++ piece) tr).Sourced files := by
    induction pieces generalizing tr with
    | nil => exact h
    | cons p pieces ih =>
      obtain ⟨hp, hpieces⟩ := List.forall_mem_cons.1 hpieces
      exact ih hpieces _ (h.endLine.append hp)
  exact hall _ ((hfront empty (sourced_empty files)).append hroot)

end Traced

namespace SourceMap

/-- The map tiles its text and traces the traced text. -/
structure Leads (m : SourceMap) (tr : Traced) : Prop where
  tiled : m.Tiled
  traces : m.Traces tr

variable {m n root : SourceMap} {tr tr' rootTraced : Traced}

/-- Maps that are put one behind the other lead into the texts one behind the other. -/
theorem Leads.append (hm : m.Leads tr) (hn : n.Leads tr') : (m.append n).Leads (tr ++ tr') :=
  ⟨hm.tiled.append hn.tiled, hm.traces.append hn.traces⟩

theorem Leads.addSeparator (h : m.Leads tr) (breaks : Nat) :
    (m.addSeparator breaks).Leads (tr ++ .separator breaks) :=
  ⟨h.tiled.add _ _ _, h.traces.add_inserted _ _ _⟩

/-- Both sides see the same text, so they end it with the same line breaks. -/
theorem Leads.endLine (h : m.Leads tr) : m.endLine.Leads tr.endLine := by
  rw [SourceMap.endLine, Traced.endLine, h.traces.text]
  generalize tr.text.reverse = reversed
  split
  · exact h
  · exact h
  · simpa [*] using h.addSeparator 1
  · simpa [*] using h.addSeparator 2

/-- A file leads to itself. -/
theorem leads_identity (file : SourceText) :
    (identity file.id file.id file.text).Leads (.copy file 0 file.text) :=
  ⟨(tiled_empty file.id).add _ _ _, (traces_empty file.id).add_copy file 0 file.text⟩

/-- The map of texts put together traces the texts put together. -/
theorem traces_assemble {directives : List SourceMap} {directivesTraced : List Traced}
    {pieces : List Piece} {piecesTraced : List Traced}
    (hdirectives : List.Forall₂ Leads directives directivesTraced) (hroot : root.Leads rootTraced)
    (hpieces : List.Forall₂ (fun p tr ↦ Leads p.map tr) pieces piecesTraced) :
    (Linked.assemble directives root pieces).Exact ∧
      (Linked.assemble directives root pieces).Traces
        (.assemble directivesTraced rootTraced piecesTraced) := by
  have hfront (m : SourceMap) (tr : Traced) (h : m.Leads tr) :
      (directives.foldl (fun m d ↦ (m.append d).addSeparator 1) m).Leads
        (directivesTraced.foldl (fun tr d ↦ tr ++ d ++ .separator 1) tr) := by
    induction hdirectives generalizing m tr with
    | nil => exact h
    | cons hd _ ih => exact ih _ _ ((h.append hd).addSeparator 1)
  have hall (m : SourceMap) (tr : Traced) (h : m.Leads tr) :
      (pieces.foldl (fun m p ↦ m.endLine.append p.map) m).Leads
        (piecesTraced.foldl (fun tr piece ↦ tr.endLine ++ piece) tr) := by
    induction hpieces generalizing m tr with
    | nil => exact h
    | cons hp _ ih => exact ih _ _ (h.endLine.append hp)
  have hleads := hall _ _ ((hfront _ _ ⟨tiled_empty _, traces_empty ⟨"<linked>"⟩⟩).append hroot)
  exact ⟨hleads.tiled.covered.exact_compact, hleads.traces.compact hleads.tiled.covered⟩

end SourceMap

end ShaderLink
