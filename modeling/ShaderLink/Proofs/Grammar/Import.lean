import ShaderLink.Import.Syntax
import ShaderLink.Proofs.Grammar.Reads

/-!
# Reading imports

What stands inside an import has no elements of its own, so all there is to know about its parsers
is that they go forward in the text. Trees and lists of trees are read by each other, which makes
them one induction.
-/

namespace ShaderLink

namespace Parser

namespace Yields

variable {t : Text} {c c' : Cursor}

/-! ### Words and paths -/

/-- A mark is a token, so it may be the last thing that is read. -/
theorem reads_mark {text : String} {token : Token} (h : (mark text).Yields c token c') :
    Reads t c [token.span] c' :=
  reads_tokenIf h

/-- Or it is passed over. -/
theorem skips_mark {text : String} {token : Token} (h : (mark text).Yields c token c') :
    Reads t c [] c' :=
  h.reads_mark.skip

/-- What the word is does not matter. -/
theorem skips_directiveWord {word : String} (h : directiveWord.Yields c word c') :
    Reads t c [] c' := by
  obtain ⟨token, htoken, -⟩ := h.map
  exact htoken.reads_tokenIf.skip

theorem skips_pathSeparator {token : Token} (h : pathSeparator.Yields c token c') :
    Reads t c [] c' := by
  obtain ⟨p, hp, h⟩ := h.firstOf
  simp only [List.mem_cons, List.not_mem_nil, or_false] at hp
  rcases hp with rfl | rfl | rfl <;> exact h.skips_mark

/-- Each marker is a token. -/
theorem skips_relativeMarkers {markers : List String} (h : relativeMarkers.Yields c markers c') :
    Reads t c [] c' := by
  refine h.many.skips fun c marker c' h ↦ ?_
  obtain ⟨token, c₁, htoken, h⟩ := h.bind
  obtain ⟨-, rfl⟩ := h.pure
  exact htoken.reads_tokenIf.skip

/-- So is each line break. -/
theorem skips_lineBreaks {u : Unit} (h : lineBreaks.Yields c u c') : Reads t c [] c' := by
  obtain ⟨breaks, c₁, hbreaks, h⟩ := Yields.bind h
  obtain ⟨-, rfl⟩ := h.pure
  exact hbreaks.many.skips fun c token c' h ↦ h.reads_tokenIf.skip

/-- A path is markers, and then words with separators between them. -/
theorem skips_modulePath {path : List String} (h : modulePath.Yields c path c') :
    Reads t c [] c' := by
  obtain ⟨markers, c₁, hmarkers, h⟩ := Yields.bind h
  obtain ⟨words, c₂, hwords, h⟩ := h.bind
  obtain ⟨-, rfl⟩ := h.pure
  have hskip : Reads t c₁ [] c₂ := hwords.skips_separated₁
    (fun _ _ _ h ↦ h.skips_directiveWord) fun _ _ _ h ↦ h.skips_pathSeparator
  exact hskip.after hmarkers.skips_relativeMarkers

/-! ### Trees -/

theorem skips_importAlias {name : String} (h : importAlias.Yields c name c') :
    Reads t c [] c' := by
  obtain ⟨token, c₁, hmark, hname⟩ := h.seqRight
  exact hname.commit.skips_directiveWord.after hmark.skips_mark

/-- Arguments are words and numbers in parentheses. -/
theorem skips_importArgs {args : List String} (h : importArgs.Yields c args c') :
    Reads t c [] c' := by
  obtain ⟨opening, c₁, hopening, h⟩ := Yields.bind h
  obtain ⟨tokens, c₂, htokens, h⟩ := h.bind
  obtain ⟨closing, c₃, hclosing, h⟩ := h.bind
  obtain ⟨-, rfl⟩ := h.pure
  have hskip : Reads t c₁ [] c₂ := htokens.skips_separated
    (fun _ _ _ h ↦ h.orElse.elim (fun h ↦ h.reads_tokenIf.skip) fun h ↦ h.reads_tokenIf.skip)
    fun _ _ _ h ↦ h.skips_mark
  exact (hclosing.commit.skips_mark.after hskip).after hopening.skips_mark

theorem skips_optionalMark {text : String} {token : Option Token}
    (h : (Parser.optional (mark text)).Yields c token c') : Reads t c [] c' :=
  h.skips_optional fun _ _ _ h ↦ h.skips_mark

theorem skips_optionalAlias {name : Option String}
    (h : (Parser.optional importAlias).Yields c name c') : Reads t c [] c' :=
  h.skips_optional fun _ _ _ h ↦ h.skips_importAlias

/-- A tree skips if what stands inside it does. -/
theorem skips_treeWithin {n : Nat}
    (htree : ∀ {segments : List String} {tree : ImportTree} {c c' : Cursor},
      (treeWithin n segments).Yields c tree c' → Reads t c [] c')
    (hlist : ∀ {trees : List ImportTree} {c c' : Cursor},
      (listWithin n).Yields c trees c' → Reads t c [] c')
    {segments : List String} {tree : ImportTree}
    (h : (treeWithin (n + 1) segments).Yields c tree c') : Reads t c [] c' := by
  rw [treeWithin] at h
  obtain ⟨brace, c₁, hbrace, h⟩ := h.bind
  split at h
  · obtain ⟨trees, c₂, htrees, h⟩ := h.bind
    obtain ⟨-, rfl⟩ := h.pure
    exact (hlist htrees).after hbrace.skips_optionalMark
  · obtain ⟨star, c₂, hstar, h⟩ := h.bind
    have hskip : Reads t c [] c₂ := hstar.skips_optionalMark.after hbrace.skips_optionalMark
    split at h
    · obtain ⟨localName, c₃, hname, h⟩ := h.bind
      obtain ⟨-, rfl⟩ := h.pure
      exact hname.skips_optionalAlias.after hskip
    · obtain ⟨name, c₃, hname, h⟩ := h.bind
      obtain ⟨separator, c₄, hseparator, h⟩ := h.bind
      have hsegment : Reads t c [] c₄ :=
        ((hseparator.skips_optional fun _ _ _ h ↦ h.skips_pathSeparator).after
          hname.commit.skips_directiveWord).after hskip
      split at h
      · exact (htree h).after hsegment
      · obtain ⟨args, c₅, hargs, h⟩ := h.bind
        obtain ⟨localName, c₆, halias, h⟩ := h.bind
        obtain ⟨-, rfl⟩ := h.pure
        exact (halias.skips_optionalAlias.after
          (hargs.skips_optional fun _ _ _ h ↦ h.skips_importArgs)).after hsegment

/-- The trees of a list skip if each of them and the rest of the list do. -/
theorem skips_listWithin {n : Nat}
    (htree : ∀ {segments : List String} {tree : ImportTree} {c c' : Cursor},
      (treeWithin n segments).Yields c tree c' → Reads t c [] c')
    (hlist : ∀ {trees : List ImportTree} {c c' : Cursor},
      (listWithin n).Yields c trees c' → Reads t c [] c')
    {trees : List ImportTree} (h : (listWithin (n + 1)).Yields c trees c') :
    Reads t c [] c' := by
  rw [listWithin] at h
  obtain ⟨_, c₁, hbreaks, h⟩ := h.bind
  obtain ⟨brace, c₂, hbrace, h⟩ := h.bind
  have hskip : Reads t c [] c₂ := hbrace.skips_optionalMark.after hbreaks.skips_lineBreaks
  split at h
  · obtain ⟨-, rfl⟩ := h.pure
    exact hskip
  · obtain ⟨markers, c₃, hmarkers, h⟩ := h.bind
    obtain ⟨tree, c₄, htree', h⟩ := h.bind
    obtain ⟨_, c₅, hbreaks', h⟩ := h.bind
    obtain ⟨comma, c₆, hcomma, h⟩ := h.bind
    have hfirst : Reads t c [] c₆ := (hcomma.skips_optionalMark.after
      (hbreaks'.skips_lineBreaks.after
        ((htree htree').after hmarkers.skips_relativeMarkers))).after hskip
    split at h
    · obtain ⟨rest, c₇, hrest, h⟩ := h.bind
      obtain ⟨-, rfl⟩ := h.pure
      exact (hlist hrest).after hfirst
    · obtain ⟨_, c₇, hend, h⟩ := h.bind
      obtain ⟨closing, c₈, hclosing, h⟩ := h.bind
      obtain ⟨-, rfl⟩ := h.pure
      exact (hclosing.commit.skips_mark.after hend.skips_lineBreaks).after hfirst

/-- Trees and lists of trees skip, by induction on the rounds that both of them take. -/
theorem skips_trees (n : Nat) :
    (∀ {segments : List String} {tree : ImportTree} {c c' : Cursor},
      (treeWithin n segments).Yields c tree c' → Reads t c [] c') ∧
    ∀ {trees : List ImportTree} {c c' : Cursor},
      (listWithin n).Yields c trees c' → Reads t c [] c' := by
  induction n with
  | zero => exact ⟨fun h ↦ h.not_refuse.elim, fun h ↦ h.not_refuse.elim⟩
  | succ n ih => exact ⟨skips_treeWithin ih.1 ih.2, skips_listWithin ih.1 ih.2⟩

/-- How many rounds there are does not matter to what is skipped. -/
theorem skips_importTree {tree : ImportTree} (h : importTree.Yields c tree c') :
    Reads t c [] c' := by
  obtain ⟨markers, c₁, hmarkers, h⟩ := Yields.bind h
  obtain ⟨n, c₂, hn, h⟩ := h.bind
  obtain rfl := hn.rounds
  exact ((skips_trees _).1 h).after hmarkers.skips_relativeMarkers

/-- The path behind the names is skipped as well. -/
theorem skips_importFrom {tree : ImportTree} (h : importFrom.Yields c tree c') :
    Reads t c [] c' := by
  obtain ⟨first, c₁, hfirst, h⟩ := Yields.bind h
  obtain ⟨path, c₂, hpath, h⟩ := h.bind
  have hskip : Reads t c₁ [] c₂ := hpath.skips_optional fun _ _ _ h ↦ by
    obtain ⟨token, c₃, hfrom, hpath⟩ := h.seqRight
    exact hpath.commit.skips_modulePath.after hfrom.skips_mark
  obtain rfl : c₂ = c' := by
    split at h <;> exact h.pure.2
  exact hskip.after hfirst.skips_importTree

/-! ### The rest of the line -/

/-- Parameters of an export are words in parentheses. -/
theorem skips_exportParams {params : List String} (h : exportParams.Yields c params c') :
    Reads t c [] c' := by
  obtain ⟨args, c₁, hargs, h⟩ := Yields.bind h
  obtain ⟨-, rfl⟩ := h.pure
  exact hargs.skips_optional fun _ _ _ h ↦ h.skips_importArgs

/-- The end of a line is read or is the end of the text. -/
theorem skips_lineEnd {u : Unit} (h : lineEnd.Yields c u c') : Reads t c [] c' := by
  obtain ⟨p, hp, h⟩ := h.firstOf
  simp only [List.mem_cons, List.not_mem_nil, or_false] at hp
  rcases hp with rfl | rfl | rfl
  · obtain ⟨semicolon, c₁, hsemicolon, h⟩ := h.bind
    obtain ⟨lineBreak, c₂, hbreak, h⟩ := h.bind
    obtain ⟨-, rfl⟩ := h.pure
    exact (hbreak.skips_optional fun _ _ _ h ↦ h.reads_tokenIf.skip).after hsemicolon.skips_mark
  · obtain ⟨lineBreak, c₁, hbreak, h⟩ := h.bind
    obtain ⟨-, rfl⟩ := h.pure
    exact hbreak.reads_tokenIf.skip
  · obtain rfl := h.absent
    exact .refl t c

end Yields

end Parser

end ShaderLink
