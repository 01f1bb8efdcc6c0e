import ShaderLink.Proofs.Conditional.Matching
import ShaderLink.Proofs.Provenance.Agreement

/-!
# Conditional lines keep provenance

Every line that is kept stands in the text at the offset it is kept with
(`Conditional.slice?_of_mem_kept`), and the processed text is these lines, each copied from there.
-/

namespace ShaderLink

namespace Traced

/-- Lines of a file, each copied from its offset. -/
def lines (file : SourceText) (kept : List (Nat × Text)) : Traced :=
  kept.foldl (fun tr line ↦ tr ++ copy file line.1 line.2) empty

variable {file : SourceText} {kept : List (Nat × Text)}

theorem copied_lines (file : SourceText) (kept : List (Nat × Text)) :
    (lines file kept).Copied file := by
  have hfoldl (tr : Traced) (h : tr.Copied file) :
      (kept.foldl (fun tr line ↦ tr ++ copy file line.1 line.2) tr).Copied file := by
    induction kept generalizing tr with
    | nil => exact h
    | cons line kept ih => exact ih _ (h.append (copied_copy file line.1 line.2))
  exact hfoldl empty fun o ho ↦ absurd ho List.not_mem_nil

theorem faithful_lines
    (h : ∀ line ∈ kept, file.text.slice? ⟨line.1, line.2.size⟩ = some line.2) :
    (lines file kept).Faithful := by
  have hfoldl (tr : Traced) (htr : tr.Faithful) :
      (kept.foldl (fun tr line ↦ tr ++ copy file line.1 line.2) tr).Faithful := by
    induction kept generalizing tr with
    | nil => exact htr
    | cons line kept ih =>
      obtain ⟨hline, hkept⟩ := List.forall_mem_cons.1 h
      exact ih hkept _ (htr.append (faithful_copy hline))
  exact hfoldl empty faithful_empty

end Traced

namespace Conditional

variable {conditions : String → Bool}

/-! ### The lines kept -/

/-- A line that is kept is a line of the text, with its offset. -/
theorem exists_lines_of_mem_kept {t : Text} {kept : Nat × Text}
    (h : kept ∈ (read conditions t).kept) :
    ∃ front back, t.lines = front ++ kept.2 :: back ∧ kept.1 = Text.size front.flatten := by
  obtain ⟨s, hs, rfl⟩ := List.mem_map.1 ((kept_read_sublist conditions t).subset h)
  obtain ⟨front, hlines, hfront⟩ := exists_of_mem_spots hs
  exact ⟨front, s.behind, hlines, by rw [Spot.offset, hfront, List.nil_append]⟩

/-- It stands in the text at this offset. -/
theorem slice?_of_mem_kept {t : Text} {kept : Nat × Text}
    (h : kept ∈ (read conditions t).kept) : t.slice? ⟨kept.1, kept.2.size⟩ = some kept.2 := by
  obtain ⟨front, back, hlines, hoffset⟩ := exists_lines_of_mem_kept h
  refine Text.slice?_eq_some_iff.2 ⟨front.flatten, back.flatten, ?_, hoffset.symm, rfl⟩
  rw [← Text.flatten_lines t, hlines, List.flatten_append, List.flatten_cons, List.append_assoc]

/-! ### The processed text -/

/-- The lines of a file that are left under the conditions. -/
def traced (conditions : String → Bool) (file : SourceText) : Traced :=
  .lines file (read conditions file.text).kept

theorem copied_traced (conditions : String → Bool) (file : SourceText) :
    (traced conditions file).Copied file :=
  Traced.copied_lines file _

theorem faithful_traced (conditions : String → Bool) (file : SourceText) :
    (traced conditions file).Faithful :=
  Traced.faithful_lines fun _ h ↦ slice?_of_mem_kept h

theorem traces_addLines {m : SourceMap} {tr : Traced} (hm : m.Traces tr) (htiled : m.Tiled)
    (file : SourceText) (kept : List (Nat × Text)) :
    (addLines m file.id kept).Traces
      (kept.foldl (fun tr line ↦ tr ++ .copy file line.1 line.2) tr) ∧
      (addLines m file.id kept).Tiled ∧ (addLines m file.id kept).id = m.id := by
  induction kept generalizing m tr with
  | nil => exact ⟨hm, htiled, rfl⟩
  | cons line kept ih =>
    exact ih (hm.add_copy file line.1 line.2) (htiled.add line.2 file.id ⟨line.1, line.2.size⟩)

/-- The map of a processed text traces the lines that are left. -/
theorem traces_process (conditions : String → Bool) (file : SourceText) :
    (process conditions file.id file.text).map.Exact ∧
      (process conditions file.id file.text).map.Traces (traced conditions file) ∧
      (process conditions file.id file.text).map.id = file.id.derived "conditioned" := by
  obtain ⟨htraces, htiled, hid⟩ := traces_addLines
    (SourceMap.traces_empty (file.id.derived "conditioned")) (SourceMap.tiled_empty _) file
    (read conditions file.text).kept
  exact ⟨htiled.covered.exact_compact, htraces.compact htiled.covered, hid⟩

/-! ### Texts without directives -/

/-- A line without a number sign is no directive. -/
theorem directive?_eq_none {line : Text} (h : '#' ∉ line) : directive? line = none := by
  have hline : '#' ∉ ((line.trim.dropPrefix? "//").map Text.trimStart).getD line.trim := by
    cases hdrop : line.trim.dropPrefix? "//" with
    | none => exact fun hmem ↦ h (Text.mem_of_mem_trim hmem)
    | some rest => exact fun hmem ↦ h (Text.mem_of_mem_trim (Text.mem_of_mem_dropPrefix? hdrop
        ((List.dropWhile_sublist _).subset hmem)))
  rw [directive?]
  generalize ((line.trim.dropPrefix? "//").map Text.trimStart).getD line.trim = line at hline
  have hnone : line.dropPrefix? "#" = none := by
    rw [Text.dropPrefix?, if_neg]
    cases line with
    | nil => decide
    | cons c line =>
      simp only [List.mem_cons, not_or] at hline
      simp [hline.1]
  rw [hnone]
  rfl

/-- A line with an import is no directive. -/
theorem directive?_import {rest : Text} (h : rest.head?.any isBlank = true) :
    directive? ("#import".toList ++ rest) = none := by
  have hvisible : "#import".toList.any isBlank = false := by decide
  have hword : "import".toList.all (fun c ↦ !isBlank c) = true := by decide
  have hstart : Text.trimStart ("#import".toList ++ rest) = "#import".toList ++ rest := rfl
  have htrim : Text.trim ("#import".toList ++ rest) = "#import".toList ++ rest.trimEnd := by
    rw [Text.trim, hstart, Text.trimEnd_append hvisible]
  have hrest : rest.trimEnd.takeWhile (fun c ↦ !isBlank c) = [] := by
    by_cases hnil : rest.trimEnd = []
    · rw [hnil]
      rfl
    · obtain ⟨c, u, hu⟩ := List.exists_cons_of_ne_nil hnil
      have hhead := Text.head?_trimEnd hnil
      rw [← hhead, hu] at h
      have hc : isBlank c = true := h
      rw [hu, List.takeWhile_cons_of_neg (by simp [hc])]
  have htake :
      ("import".toList ++ rest.trimEnd).takeWhile (fun c ↦ !isBlank c) = "import".toList := by
    rw [List.takeWhile_append_of_pos (List.all_eq_true.1 hword), hrest, List.append_nil]
  have hcomment : Text.dropPrefix? ("#import".toList ++ rest.trimEnd) "//" = none := rfl
  have hsign : Text.dropPrefix? ("#import".toList ++ rest.trimEnd) "#" =
      some ("import".toList ++ rest.trimEnd) := rfl
  rw [directive?, htrim, hcomment, Option.map_none, Option.getD_none]
  dsimp only
  rw [hsign, Option.bind_eq_bind, Option.bind_some, htake]
  rfl

/-- The text of lines is the lines one behind the other. -/
theorem text_lines (file : SourceText) (kept : List (Nat × Text)) :
    (Traced.lines file kept).text = (kept.map Prod.snd).flatten := by
  have hfoldl (tr : Traced) : (kept.foldl (fun tr line ↦ tr ++ .copy file line.1 line.2) tr).text =
      tr.text ++ (kept.map Prod.snd).flatten := by
    induction kept generalizing tr with
    | nil => exact (List.append_nil _).symm
    | cons line kept ih =>
      rw [List.foldl_cons, ih, Traced.text_append, List.append_assoc]
      rfl
  exact hfoldl .empty

/-- A text without directives stays as it is. -/
theorem text_process {t : Text} (h : ∀ line ∈ t.lines, directive? line = none)
    (conditions : String → Bool) (source : SourceId) :
    (process conditions source t).map.text = t := by
  have htraces := (traces_process conditions ⟨source, t⟩).2.1
  rw [htraces.text, traced, text_lines, kept_read_of_plain conditions h, List.map_map]
  exact (congrArg List.flatten (map_line_spots [] t.lines)).trans (Text.flatten_lines t)

/-- Without directives, there is nothing wrong with them. -/
theorem warnings_process {t : Text} (h : ∀ line ∈ t.lines, directive? line = none)
    (conditions : String → Bool) (source : SourceId) :
    (process conditions source t).warnings = [] := by
  rw [process, problems_read, unmatched_eq_nil h, unclosed_eq_nil h]
  rfl

end Conditional

end ShaderLink
