import ShaderLink.Module.Parse
import ShaderLink.Proofs.Grammar.ItemComplete
import ShaderLink.Proofs.Import.Reading
import ShaderLink.Proofs.Provenance.Conditional

/-!
# Files with a single import

A file that holds nothing but an import becomes a module with that import as its only element
(`Text.isImport`), in either dialect, as soon as the rest of the file can be read up to the end of
the line. Conditional lines do not get in the way: there is no number sign in a printed tree, and a
line that starts with `#import` is no conditional directive. So a tree that has been printed is read
back from a file as well (`ImportTree.isImport_of_prints`).
-/

namespace ShaderLink

open Lexeme

/-! ### Conditional lines -/

namespace Conditional

variable {t : Text}

/-- A text without number signs stays as it is. -/
theorem text_process_of_not_mem (h : '#' ∉ t) (conditions : String → Bool) (source : SourceId) :
    (process conditions source t).map.text = t :=
  text_process (fun _ hline ↦ directive?_eq_none fun hmem ↦ h (Text.mem_of_mem_lines hline hmem))
    conditions source

/-- An import stays as it is if there is no number sign behind the first. -/
theorem text_process_import (h : '#' ∉ t) (conditions : String → Bool) (source : SourceId) :
    (process conditions source ("#import ".toList ++ t)).map.text = "#import ".toList ++ t := by
  obtain ⟨first, more, hlines⟩ := Text.exists_lines_cons (by decide : ' ' ≠ '\n') t
  have hsplit : "#import ".toList ++ t = "#import".toList ++ ' ' :: t := rfl
  have hall := Text.lines_append (by decide : '\n' ∉ "#import".toList) hlines
  refine text_process (fun line hline ↦ ?_) conditions source
  rw [hsplit, hall] at hline
  rcases List.mem_cons.1 hline with rfl | hline
  · exact directive?_import rfl
  · refine directive?_eq_none fun hmem ↦ h ?_
    have hline : line ∈ Text.lines (' ' :: t) := hlines ▸ List.mem_cons_of_mem _ hline
    exact (List.mem_cons.1 (Text.mem_of_mem_lines hline hmem)).resolve_left (by decide)

end Conditional

/-! ### The end of the line -/

/-- The end of the text stands here, perhaps behind a semicolon. -/
def LineEnds (xs : List Lexeme) : Prop :=
  xs = [] ∨ xs = [symbol ";"]

theorem LineEnds.stops {xs : List Lexeme} (h : LineEnds xs) : Stops xs := by
  rcases h with rfl | rfl
  · exact stops_nil
  · exact stops_symbol (by decide) []

theorem LineEnds.exists_of_mem {e : Text} (he : e ∈ [[], [';']]) :
    ∃ ys, LineEnds ys ∧ Signless ys ∧
      ∀ {xs : List Lexeme} {t : Text}, Spaced xs t → Spaced (xs ++ ys) (t ++ e) := by
  simp only [List.mem_cons, List.not_mem_nil, or_false] at he
  have hnil : Spaced [] [] := List.forall_mem_nil _
  rcases he with rfl | rfl
  · exact ⟨[], .inl rfl, .nil, fun h ↦ h.append hnil rfl (by decide)⟩
  · have hsemicolon : Spaced [symbol ";"] [';'] := .cons_next (by decide) hnil
    exact ⟨_, .inr rfl, .cons (by decide) .nil, fun h ↦ h.append hsemicolon rfl (by decide)⟩

namespace Parser

variable {n : Nat} {xs ys : List Lexeme} {tree : ImportTree}

theorem Takes.lineEnd (hn : 1 < n) (hxs : LineEnds xs) :
    Parser.lineEnd.Takes n xs (fun _ ↦ True) [] := by
  have hbreak : (Parser.ofKind .directive .lineBreak).Declines n [] := .tokenIf_nil hn
  rcases hxs with rfl | rfl
  · have hmark : (Parser.mark ";").Declines n [] := .tokenIf_nil hn
    have hfinished : (Parser.finished .directive).Takes n [] (fun _ ↦ True) [] := fun c hc ↦
      ⟨(), c, trivial, (Meets.token_refused_of_spacing hc hn).absent, hc⟩
    exact hfinished.firstOf [_, _] [] (List.forall_mem_cons.2
      ⟨hmark.bind, List.forall_mem_singleton.2 hbreak.bind⟩)
  · have hstands : (symbol ";").Stands [] := .plain (by decide)
    exact Takes.firstOf ((Takes.mark hn hstands (is_symbol ";")).bind fun _ _ ↦
      (optional_none hbreak).bind fun _ _ ↦ .pure trivial) [] _ (List.forall_mem_nil _)

end Parser

/-! ### Dialects -/

namespace ImportDialect

/-- What an import of the dialect starts with. -/
def opening : ImportDialect → Lexeme
  | directive => ⟨.directive, "#import".toList⟩
  | tree => keyword "import"

/-- What reads the rest of an import of the dialect. -/
def reader : ImportDialect → Parser ImportTree
  | directive => Parser.importFrom
  | tree => Parser.importTree

theorem heads_opening (dialect : ImportDialect) {rest : Text}
    (hrest : rest.head?.any isIdentifierRest = false) : dialect.opening.Heads rest := by
  have hword : Text.IsIdentifier "import".toList := by decide
  cases dialect with
  | tree => exact heads_word hword hrest
  | directive => exact heads_directive hword hrest

end ImportDialect

namespace Parser

variable {n : Nat} {c c₁ : Cursor} {xs ys : List Lexeme} {tree : ImportTree}
  {dialect : ImportDialect}

/-- What stands behind the opening is read up to the end of the text. -/
theorem Takes.importRest {p : Parser ImportTree} (hn : 1 < n) (h : p.Takes n xs (· = tree) ys)
    (hys : LineEnds ys) (what : String) (dialect : ImportDialect) :
    (do
      let tree ← Parser.commit p what
      Parser.commit Parser.lineEnd "end of import"
      return (tree, dialect) : Parser (ImportTree × ImportDialect)).Takes n xs
        (· = (tree, dialect)) [] := by
  refine (h.commit what).bind ?_
  rintro _ rfl
  exact ((Takes.lineEnd hn hys).commit _).bind fun _ _ ↦ .pure rfl

theorem Meets.exists_import (h : c.Next dialect.opening c₁) (hc : c.rest.length < n)
    (hn : 1 < n) (hxs : Spaced xs c₁.rest) (hread : dialect.reader.Takes n xs (· = tree) ys)
    (hys : LineEnds ys) :
    ∃ c', (Parser.firstOf [
      do
        let _ ← Parser.sign "#import"
        let tree ← Parser.commit Parser.importFrom "import"
        Parser.commit Parser.lineEnd "end of import"
        return (tree, ImportDialect.directive),
      do
        let _ ← Parser.sign "import"
        let tree ← Parser.commit Parser.importTree "import path"
        Parser.commit Parser.lineEnd "end of import"
        return (tree, ImportDialect.tree)]).Meets n c (.accepted (tree, dialect) c') ∧
      Spaced [] c'.rest := by
  match dialect with
  | .directive =>
    have hbody : Takes _ n xs _ [] := .importRest hn hread hys "import" .directive
    obtain ⟨_, c', rfl, hrest, hend⟩ := hbody c₁ hxs
    obtain ⟨offset, hsign⟩ := Meets.sign (s := "#import") h hc (by decide)
    exact ⟨c', (hsign.bind hrest).firstOf [] [_] (List.forall_mem_nil _), hend⟩
  | .tree =>
    have hbody : Takes _ n xs _ [] := .importRest hn hread hys "import path" .tree
    obtain ⟨_, c', rfl, hrest, hend⟩ := hbody c₁ hxs
    obtain ⟨offset, hsign⟩ := Meets.sign (s := "import") h hc (by decide)
    have hrefused : (Parser.sign "#import").Meets n c .refused := sign_refused h hc (by decide)
    exact ⟨c', (hsign.bind hrest).firstOf [_] [] (List.forall_mem_singleton.2
      hrefused.bind_refused), hend⟩

/-- An import of either dialect is read up to the end of the text. -/
theorem Meets.exists_importItem (h : c.Next dialect.opening c₁) (hc : c.rest.length < n)
    (hn : 1 < n) (hxs : Spaced xs c₁.rest) (hread : dialect.reader.Takes n xs (· = tree) ys)
    (hys : LineEnds ys) :
    ∃ span c', Parser.item.Meets n c (.accepted (.importing tree dialect span) c') ∧
      c'.rest.IsSpacing := by
  obtain ⟨c₀, hskips, hnext⟩ := h.exists_skips
  have hc₀ := hskips.length_rest_le.trans_lt hc
  obtain ⟨c', hrest, hend⟩ := exists_import hnext hc₀ hn hxs hread hys
  have hstart : String.ofList dialect.opening.text ∈ ["import", "#import"] := by
    cases dialect <;> decide
  have hlacks : Lacks n c₀ ["module", "#module"] := lacks_of_next hnext hstart (by decide) hc₀
  exact ⟨_, c', .firstOf [_] [_, _, _, _] (List.forall_mem_singleton.2
    (moduleItem_refused hskips hlacks hc))
    ((spanned hskips hrest hc).bind (.pure _ n c')), hend⟩

/-- A text with a single import is read as such, given enough steps. -/
theorem exists_run_import {rest : Text} (hxs : Spaced xs (' ' :: rest))
    (hread : ∀ n, 1 < n → rest.length < n → dialect.reader.Takes n xs (· = tree) ys)
    (hys : LineEnds ys) :
    ∃ span c' k, ∀ steps ≥ k, ∃ e, Parser.items.run steps (dialect.opening.text ++ ' ' :: rest) =
      (.accepted [.importing tree dialect span] c', e) := by
  have hheads : dialect.opening.Heads (' ' :: rest) :=
    dialect.heads_opening (by decide : isIdentifierRest ' ' = false)
  generalize hwhole : dialect.opening.text ++ ' ' :: rest = whole
  have hnext : (Cursor.start whole).Next dialect.opening
      ⟨' ' :: rest, 0 + dialect.opening.text.size⟩ := by
    rw [← hwhole]
    refine ⟨[], Text.lexes_singleton hheads 0, List.forall_mem_nil _, ?_⟩
    cases dialect <;> rfl
  have hlength : whole.length < whole.size + 1 := Nat.lt_succ_of_le (Text.length_le_size whole)
  have hless : rest.length + 1 < whole.length := by
    have hpos := List.length_pos_iff.2 hheads.ne_nil
    rw [← hwhole, List.length_append, List.length_cons]
    omega
  obtain ⟨span, c', hitem, hspacing⟩ := Meets.exists_importItem hnext hlength (by omega) hxs
    (hread _ (by omega) (by omega)) hys
  -- only blanks are left behind the import
  have hend : c'.Ends := Text.IsGap.ends (Text.isGap_blanks fun c hc ↦ (hspacing c hc).1) c'.offset
  have hin : c'.In whole := (hitem.yields.reads_item ⟨[], rfl, rfl⟩).1.1
  have hlength' := hin.length_lt (Nat.lt_succ_self _)
  have hmany : (manyWithin Parser.item (whole.size + 1)).Meets (whole.size + 1) (.start whole)
      (.accepted [.importing tree dialect span] c') := by
    obtain ⟨m, hm⟩ : ∃ m, whole.size = m + 1 := ⟨whole.size - 1, by omega⟩
    rw [hm] at hitem hlength' ⊢
    exact hitem.manyWithin_cons (.manyWithin_nil (Meets.item_refused hend hlength') m)
  obtain ⟨k, hk⟩ := exists_run_of_manyWithin hmany hend hlength'
  exact ⟨span, c', k, hk⟩

end Parser

/-! ### Files -/

/-- Given enough steps, a file with the text is a module, and its only element is the import. -/
def Text.IsImport (t : Text) (dialect : ImportDialect) (tree : ImportTree) : Prop :=
  ∃ span k, ∀ (options : ParseOptions) (file : String), k ≤ options.maxSteps →
    ∃ m, Module.parse options file t = .ok m ∧ m.elements = [.importing tree dialect span]

variable {xs ys : List Lexeme} {t : Text} {tree : ImportTree} {dialect : ImportDialect}

/-- A file with a single import is such a module. -/
theorem Text.isImport (hxs : Spaced xs t) (hsignless : Signless xs)
    (hread : ∀ n, 1 < n → xs.length < n → dialect.reader.Takes n xs (· = tree) ys)
    (hys : LineEnds ys) : Text.IsImport (dialect.opening.text ++ ' ' :: t) dialect tree := by
  have hspacing : Text.IsSpacing [' '] := List.forall_mem_singleton.2 (by decide)
  have hbehind : Spaced xs (' ' :: t) := hxs.behind hspacing
  obtain ⟨span, c', k, hrun⟩ := Parser.exists_run_import hbehind
    (fun n hn hlength ↦ hread n hn ((hsignless.length_le hxs).trans_lt hlength)) hys
  refine ⟨span, k, fun options file hk ↦ ?_⟩
  have htext : (Conditional.process options.conditions ⟨file⟩
      (dialect.opening.text ++ ' ' :: t)).map.text = dialect.opening.text ++ ' ' :: t := by
    have hsign := hsignless.not_mem hxs
    cases dialect with
    | directive => exact Conditional.text_process_import hsign _ _
    | tree =>
      refine Conditional.text_process_of_not_mem (fun hmem ↦ ?_) _ _
      rcases List.mem_append.1 hmem with hmem | hmem
      · exact absurd hmem (by decide)
      · exact hsign ((List.mem_cons.1 hmem).resolve_left (by decide))
  obtain ⟨e, hrun⟩ := hrun options.maxSteps hk
  rw [← htext] at hrun
  exact ⟨_, Module.parse_of_run hrun, rfl⟩

/-- **Parsing undoes printing.** A tree in normal form can be printed, and however it is printed, a
file that imports the text is read as one that imports the tree. -/
theorem ImportTree.isImport_of_prints (h : tree.Normal) : (∃ t, tree.Prints t) ∧
    ∀ t, tree.Prints t → Text.IsImport ("import ".toList ++ t ++ [';']) .tree tree := by
  refine ⟨tree.exists_prints, fun t ⟨xs, hxs, ht⟩ ↦ ?_⟩
  obtain ⟨ys, hys, hsignless, hend⟩ := LineEnds.exists_of_mem (by decide : [';'] ∈ [[], [';']])
  rw [List.append_assoc]
  show Text.IsImport (ImportDialect.tree.opening.text ++ ' ' :: (t ++ [';'])) .tree tree
  refine Text.isImport (hend ht) ((hxs.signless h).append hsignless) (fun n _ hlength ↦ ?_) hys
  rw [List.length_append] at hlength
  exact .importTree hxs h hys.stops (Nat.lt_of_add_right_lt hlength)

/-- Markers, arguments, line breaks and a trailing comma are read back. -/
theorem ImportTree.isImport_mixed :
    (path ["."] (.list [.item "b" none (some ["4"]), .wildcard none])).Normal ∧
      Text.IsImport "import ./\x7bb(4),\n*,\x7d;".toList .tree
        (.path ["."] (.list [.item "b" none (some ["4"]), .wildcard none])) := by
  have hnormal : (path ["."] (.list [.item "b" none (some ["4"]), .wildcard none])).Normal :=
    ⟨⟨["."], [], rfl, by decide, List.forall_mem_nil _⟩, by decide, rfl,
      ⟨by decide, nofun, by decide⟩, nofun, trivial⟩
  have hbreak : Breaks [⟨.lineBreak, ['\n']⟩] :=
    List.forall_mem_singleton.2 ⟨rfl, .inr ⟨'\n', by decide, rfl⟩⟩
  have hnone : Breaks [] := List.forall_mem_nil _
  have hprinting := ImportTree.Printing.path (.marker (s := ".") (by decide) .nil)
    (.list (.cons hnone (.item "b" none (some ["4"])) hnone
      (.cons hbreak (.wildcard none) hnone (.nil hnone))))
  have hend : Spaced [] [] := List.forall_mem_nil _
  refine ⟨hnormal, (ImportTree.isImport_of_prints hnormal).2 "./\x7bb(4),\n*,\x7d".toList
    ⟨_, hprinting, ?_⟩⟩
  exact .cons_next (by decide) <| .cons_next (by decide) <| .cons_next (by decide) <|
    .cons_next (by decide) <| .cons_next (by decide) <| .cons_next (by decide) <|
    .cons_next (by decide) <| .cons_next (by decide) <| .cons_next (by decide) <|
    .cons_next (by decide) <| .cons_next (by decide) hend

end ShaderLink
