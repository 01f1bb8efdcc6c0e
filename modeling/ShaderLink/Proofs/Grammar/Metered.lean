import ShaderLink.Module.Item
import ShaderLink.Proofs.Grammar.Lexings

/-!
# The grammar is metered

All rules of the grammar are put together from the combinators, so that each of them makes certain
lexings and comes to a certain outcome wherever it starts in a text, unless it runs out of steps
(`Parser.metered_items`). Loops and bodies are bounded by rounds, on which the inductions go.
-/

namespace ShaderLink.Parser

variable {α : Type} {t : Text}

/-! ### Tokens -/

/-- Ignored tokens are skipped in a loop, and reading one token is metered by `Metered.lex`. -/
theorem Metered.token (l : Lexicon) : (Parser.token l).Metered t := by
  refine rounds.bind fun n ↦ ?_
  induction n with
  | zero => exact refuse
  | succ n ih => exact (lex l).bind fun found ↦ .ite ih (.pure found)

/-- Which tokens are accepted does not matter. -/
theorem Metered.tokenIf (l : Lexicon) (accepts : Token → Bool) :
    (Parser.tokenIf l accepts).Metered t :=
  (token l).bind fun found ↦ .ite (.pure found) .refuse

theorem Metered.finished (l : Lexicon) : (Parser.finished l).Metered t :=
  (token l).absent

/-- The span of what is read is looked up without steps. -/
theorem Metered.spanned {p : Parser α} (l : Lexicon) (h : p.Metered t) :
    (Parser.spanned l p).Metered t := by
  have hskip : (Parser.skipIgnored l).Metered t :=
    Metered.bind (.many ((lex l).bind fun _ ↦ .ite (.pure ()) .refuse)) fun _ ↦ .pure ()
  exact hskip.bind fun _ ↦ offset.bind fun _ ↦ h.bind fun _ ↦ offset.bind fun _ ↦ .pure _

/-! ### Bodies -/

theorem metered_sign (text : String) : (sign text).Metered t :=
  .tokenIf _ _

theorem metered_word : word.Metered t :=
  .tokenIf _ _

theorem metered_name : name.Metered t :=
  .tokenIf _ _

/-- A path goes on by colons in a loop. By dots it does so only if a parenthesis is seen ahead. -/
theorem metered_referencePath (first : Token) : (referencePath first).Metered t := by
  have hwords (separator : String) : (many (sign separator *> word)).Metered t :=
    .many ((metered_sign separator).seqRight metered_word)
  refine (hwords "::").bind fun colons ↦ Metered.bind (.optional ?_) fun dots ↦ .pure _
  exact (hwords ".").bind fun dots ↦ (metered_sign "(").peek.bind fun _ ↦ .pure dots

/-- What stands between the parentheses of an attribute depends on the attribute. -/
theorem metered_attributeArgs {args : Parser (List Event)} (h : args.Metered t) (which : String) :
    (attributeArgs args which).Metered t :=
  (metered_sign "(").optional.bind fun _ ↦ .ite (h.bind fun _ ↦ .pure _) (.pure [])

/-- The colon behind the name of a parameter is only looked at. -/
theorem metered_mention (mode : BodyMode) (previous : String) (first : Token) :
    (mention mode previous first).Metered t := by
  cases mode with
  | params =>
    exact Metered.bind ((metered_sign ":").peek.optional.map _) fun _ ↦
      .ite (.pure _) ((metered_referencePath first).bind fun _ ↦ .pure _)
  | code => exact (metered_referencePath first).bind fun _ ↦ .pure _

/-- Each token of a body is read in one round, and so is what stands in brackets behind it. -/
theorem metered_bodyWithin (n : Nat) (closer : String) (mode : BodyMode) (previous : String)
    (pending : List Event) : (bodyWithin n closer mode previous pending).Metered t := by
  induction n generalizing closer mode previous pending with
  | zero =>
    rw [bodyWithin_zero]
    exact .refuse
  | succ n ih =>
    refine ((Metered.token .shader).commit _).bind fun found ↦
      .ite (.ite (.pure _) ?_) (.ite ?_ (ih _ _ _ _))
    · split
      · exact (ih _ _ _ _).bind fun _ ↦ .pure _
      · exact (ih _ _ _ _).bind fun _ ↦ (ih _ _ _ _).bind fun _ ↦ .pure _
      · exact (ih _ _ _ _).bind fun _ ↦ (ih _ _ _ _).bind fun _ ↦ .pure _
      · exact (ih _ _ _ _).bind fun _ ↦ (ih _ _ _ _).bind fun _ ↦ .pure _
      · exact .abort (by decide)
      · exact .abort (by decide)
      · exact .abort (by decide)
      · exact (metered_word.commit _).bind fun _ ↦
          (metered_attributeArgs (ih _ _ _ _) _).bind fun _ ↦ (ih _ _ _ _).bind fun _ ↦ .pure _
      · exact metered_word.optional.bind fun _ ↦ ih _ _ _ _
      · exact ih _ _ _ _
    · refine .ite ?_ (.ite ?_ (.ite (ih _ _ _ _) ?_))
      · exact ((metered_sign "(").commit _).bind fun _ ↦ (ih _ _ _ _).bind fun _ ↦
          ((metered_sign "\x7b").commit _).bind fun _ ↦
            (ih _ _ _ _).bind fun _ ↦ (ih _ _ _ _).bind fun _ ↦ .pure _
      · exact ((metered_sign "<").seqRight (ih _ _ _ _)).optional.bind fun _ ↦
          (metered_name.commit _).bind fun _ ↦ ih _ _ _ _
      · exact (metered_mention _ _ _).bind fun _ ↦ (ih _ _ _ _).bind fun _ ↦ .pure _

/-- A body may take all the rounds there are. -/
theorem metered_bodyUntil (closer : String) (mode : BodyMode) :
    (bodyUntil closer mode).Metered t :=
  Metered.rounds.bind fun _ ↦ metered_bodyWithin _ _ _ _ _

/-- Attributes have bodies as their arguments, so they are metered once bodies are. -/
theorem metered_attributes : attributes.Metered t := by
  refine Metered.map _ (.many ?_)
  exact (metered_sign "@").bind fun _ ↦ (metered_word.commit _).bind fun _ ↦
    metered_attributeArgs (metered_bodyUntil _ _) _

/-! ### Imports -/

theorem metered_mark (text : String) : (mark text).Metered t :=
  .tokenIf _ _

theorem metered_directiveWord : directiveWord.Metered t :=
  Metered.map _ (.tokenIf _ _)

theorem metered_pathSeparator : pathSeparator.Metered t :=
  .firstOf (by simp [metered_mark])

theorem metered_relativeMarkers : relativeMarkers.Metered t :=
  .many ((Metered.tokenIf _ _).bind fun _ ↦ .pure _)

theorem metered_lineBreaks : lineBreaks.Metered t :=
  Metered.bind (.many (.tokenIf _ _)) fun _ ↦ .pure ()

/-- Segments of paths are separated, and markers may stand in front. -/
theorem metered_modulePath : modulePath.Metered t :=
  metered_relativeMarkers.bind fun _ ↦
    (metered_directiveWord.separated₁ metered_pathSeparator).bind fun _ ↦ .pure _

theorem metered_importAlias : importAlias.Metered t :=
  (metered_mark "as").seqRight (metered_directiveWord.commit _)

theorem metered_importArgs : importArgs.Metered t :=
  (metered_mark "(").bind fun _ ↦
    (Metered.separated (.orElse (.tokenIf _ _) (.tokenIf _ _)) (metered_mark ",")).bind fun _ ↦
      ((metered_mark ")").commit _).bind fun _ ↦ .pure _

/-- A tree and a list of trees go on with each other, a round for each step. -/
theorem metered_treeWithin (n : Nat) :
    (∀ segments, (treeWithin n segments).Metered t) ∧ (listWithin n).Metered t := by
  induction n with
  | zero =>
    refine ⟨fun segments ↦ ?_, ?_⟩
    · rw [treeWithin]
      exact .refuse
    · rw [listWithin]
      exact .refuse
  | succ n ih =>
    obtain ⟨htree, hlist⟩ := ih
    refine ⟨fun segments ↦ ?_, ?_⟩
    · rw [treeWithin]
      refine (metered_mark "\x7b").optional.bind fun _ ↦ .ite (hlist.bind fun _ ↦ .pure _) ?_
      refine (metered_mark "*").optional.bind fun _ ↦
        .ite (metered_importAlias.optional.bind fun _ ↦ .pure _) ?_
      refine (metered_directiveWord.commit _).bind fun name ↦
        metered_pathSeparator.optional.bind fun _ ↦ .ite (htree _) ?_
      exact metered_importArgs.optional.bind fun _ ↦
        metered_importAlias.optional.bind fun _ ↦ .pure _
    · rw [listWithin]
      refine metered_lineBreaks.bind fun _ ↦
        (metered_mark "\x7d").optional.bind fun _ ↦ .ite (.pure []) ?_
      refine metered_relativeMarkers.bind fun markers ↦ (htree markers).bind fun tree ↦
        metered_lineBreaks.bind fun _ ↦ (metered_mark ",").optional.bind fun _ ↦
          .ite (hlist.bind fun _ ↦ .pure _) ?_
      exact metered_lineBreaks.bind fun _ ↦
        ((metered_mark "\x7d").commit _).bind fun _ ↦ .pure [tree]

/-- A tree of an import may take all the rounds there are. -/
theorem metered_importTree : importTree.Metered t :=
  metered_relativeMarkers.bind fun markers ↦
    Metered.rounds.bind fun _ ↦ (metered_treeWithin _).1 markers

/-- The path stands behind the names here. It is committed to behind its keyword. -/
theorem metered_importFrom : importFrom.Metered t := by
  refine metered_importTree.bind fun tree ↦ Metered.bind
    (Metered.optional ((metered_mark "from").seqRight (metered_modulePath.commit _))) fun path? ↦ ?_
  cases path? with
  | none => exact .pure tree
  | some path => exact .pure (tree.under path)

theorem metered_exportParams : exportParams.Metered t :=
  metered_importArgs.optional.bind fun _ ↦ .pure _

/-- The end of a line may be the end of the text. -/
theorem metered_lineEnd : lineEnd.Metered t := by
  refine .firstOf (List.forall_mem_cons.2 ⟨?_, List.forall_mem_cons.2 ⟨?_, ?_⟩⟩)
  · exact (metered_mark ";").bind fun _ ↦
      Metered.bind (.optional (.tokenIf _ _)) fun _ ↦ .pure ()
  · exact Metered.bind (.tokenIf _ _) fun _ ↦ .pure ()
  · exact List.forall_mem_singleton.2 (.finished _)

/-! ### Statements -/

/-- The first word decides, and what follows it is committed to. -/
theorem metered_moduleItem : moduleItem.Metered t := by
  refine Metered.bind (.spanned _ ?_) fun _ ↦ .pure _
  exact Metered.bind (.firstOf (by simp [metered_sign])) fun _ ↦
    (metered_modulePath.commit _).bind fun path ↦ (metered_lineEnd.commit _).bind fun _ ↦ .pure path

/-- An import may be written in two ways. -/
theorem metered_importItem : importItem.Metered t := by
  refine Metered.bind (.spanned _ (.firstOf_pair ?_ ?_)) fun _ ↦ .pure _
  · exact (metered_sign _).bind fun _ ↦ (metered_importFrom.commit _).bind fun _ ↦
      (metered_lineEnd.commit _).bind fun _ ↦ .pure _
  · exact (metered_sign _).bind fun _ ↦ (metered_importTree.commit _).bind fun _ ↦
      (metered_lineEnd.commit _).bind fun _ ↦ .pure _

theorem metered_exportItem : exportItem.Metered t := by
  refine Metered.bind (.spanned _ ?_) fun _ ↦ .pure _
  exact (metered_sign _).bind fun _ ↦ metered_exportParams.bind fun params ↦
    metered_lineEnd.optional.bind fun _ ↦ .pure params

/-- Statements at the level of the module are bodies too. -/
theorem metered_textItem : textItem.Metered t := by
  refine Metered.bind (.spanned _ (.firstOf_pair ?_ ?_)) fun _ ↦ .pure _
  · exact (metered_sign _).bind fun _ ↦ .pure ()
  · exact Metered.bind (.firstOf (by simp [metered_sign])) fun _ ↦
      (metered_bodyUntil _ _).bind fun _ ↦ .pure ()

/-! ### Declarations -/

/-- Parameters, result and code of a function are three bodies. -/
theorem metered_functionDecl : functionDecl.Metered t :=
  (metered_sign _).bind fun _ ↦ (metered_name.commit _).bind fun _ ↦
    ((metered_sign _).commit _).bind fun _ ↦ (metered_bodyUntil _ _).bind fun _ ↦
      (metered_bodyUntil _ _).bind fun _ ↦ (metered_bodyUntil _ _).bind fun _ ↦ .pure _

/-- The cursor to go back to has been in the text before. -/
theorem metered_memberTypeWithin (n depth : Nat) : (memberTypeWithin n depth).Metered t := by
  induction n generalizing depth with
  | zero => exact .refuse
  | succ n ih =>
    refine .here fun before hbefore ↦ ((Metered.token .shader).commit _).bind fun found ↦ ?_
    split
    · exact ih _
    · exact ih _
    · exact .ite (.pure []) (ih depth)
    · exact .ite ((Metered.goBack hbefore).bind fun _ ↦ .pure []) (ih depth)
    · exact (metered_bodyUntil _ _).bind fun _ ↦ (ih depth).bind fun _ ↦ .pure _
    · exact .ite (ih depth)
        ((metered_referencePath found).bind fun _ ↦ (ih depth).bind fun _ ↦ .pure _)
    · exact ih depth

/-- A member is read in one round. -/
theorem metered_membersWithin (n : Nat) : (membersWithin n).Metered t := by
  induction n with
  | zero => exact .refuse
  | succ n ih =>
    refine (metered_sign _).optional.bind fun _ ↦ .ite (.pure []) ?_
    exact metered_attributes.bind fun _ ↦ (metered_word.commit _).bind fun _ ↦
      ((metered_sign _).commit _).bind fun _ ↦ Metered.rounds.bind fun _ ↦
        (metered_memberTypeWithin _ _).bind fun _ ↦ ih.bind fun _ ↦ .pure _

theorem metered_structDecl : structDecl.Metered t :=
  (metered_sign _).bind fun _ ↦ (metered_name.commit _).bind fun _ ↦
    ((metered_sign _).commit _).bind fun _ ↦ Metered.rounds.bind fun _ ↦
      (metered_membersWithin _).bind fun _ ↦ .pure _

/-- Values are declared by several words, each with a kind of its own. -/
theorem metered_valueDecl : valueDecl.Metered t := by
  have hkind (text : String) (kind : DeclKind) : ((fun _ ↦ kind) <$> sign text).Metered t :=
    (metered_sign text).map _
  exact Metered.bind (.firstOf (by simp [hkind])) fun _ ↦
    ((metered_sign _).seqRight (metered_bodyUntil _ _)).optional.bind fun _ ↦
      (metered_name.commit _).bind fun _ ↦ (metered_bodyUntil _ _).bind fun _ ↦ .pure _

theorem metered_aliasDecl : aliasDecl.Metered t :=
  (metered_sign _).bind fun _ ↦ (metered_name.commit _).bind fun _ ↦
    ((metered_sign _).commit _).bind fun _ ↦ (metered_bodyUntil _ _).bind fun _ ↦ .pure _

theorem metered_unmarkedDecl : unmarkedDecl.Metered t := by
  refine metered_attributes.bind fun _ ↦ Metered.bind (.firstOf ?_) fun _ ↦ .pure _
  simp [metered_functionDecl, metered_structDecl, metered_valueDecl, metered_aliasDecl]

/-- Attributes stand in front of every declaration. -/
theorem metered_declItem : declItem.Metered t := by
  have hdecl : (spanned .shader unmarkedDecl).Metered t := .spanned _ metered_unmarkedDecl
  refine Metered.bind (.optional (.spanned _ (metered_sign _))) fun mark ↦ ?_
  exact .ite (hdecl.insist.bind fun _ ↦ .pure _) (hdecl.bind fun _ ↦ .pure _)

/-! ### Modules -/

/-- The items of a text are metered. -/
theorem metered_items : items.Metered t := by
  refine Metered.bind (.many (.firstOf ?_)) fun items ↦
    (Metered.finished _).bind fun _ ↦ .pure items
  have hstray : strayItem.Metered t := (Metered.token .shader).map _
  simp [metered_moduleItem, metered_importItem, metered_exportItem, metered_textItem,
    metered_declItem, hstray]

end ShaderLink.Parser
