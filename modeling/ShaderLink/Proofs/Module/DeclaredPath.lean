import ShaderLink.Proofs.Grammar.ItemComplete
import ShaderLink.Proofs.Grammar.Outside
import ShaderLink.Proofs.Import.DeclaredLine
import ShaderLink.Proofs.Module.Structure

/-!
# The declared path, scanned and parsed

The path that a module declares is found in two ways, by parsing its text and by scanning the lines
for one that looks like a declaration (`ModulePath.declaredIn?`). The scan knows nothing of comments
and of what is inside other elements, so that it may be misled there
(`Module.declaredIn?_in_comment`). Where it is not, both ways agree (`Module.declaredIn?_of_parse`):
a line that looks like a declaration and starts outside of comments and elements starts a
declaration, because no other item starts with the word.
-/

namespace ShaderLink

open Lexeme

/-! ### The word -/

/-- The lexeme is the word of a declaration. -/
def Lexeme.Declares (x : Lexeme) : Prop :=
  ∃ word ∈ ["module", "#module"], x.Is word

/-- In front of a blank, the word is a lexeme. -/
theorem exists_lexes_word {word : String} (hword : word ∈ ["module", "#module"]) {rest : Text}
    (hrest : rest.head?.any isBlank = true) (offset : Nat) :
    ∃ (x : Lexeme) (c : Cursor), (⟨word.toList ++ rest, offset⟩ : Cursor).Lexes [x] c ∧
      c.rest = rest ∧ Lexicon.shader.ignores x.kind = false ∧ x.Declares := by
  have hidentifier : Text.IsIdentifier "module".toList := by decide
  have hend : rest.head?.any isIdentifierRest = false := by
    cases rest with
    | nil => rfl
    | cons c rest =>
      refine Bool.eq_false_iff.2 fun hc ↦ ?_
      have hblank : isBlank c = true := hrest
      rw [isBlank_eq_false_of_isIdentifierRest hc] at hblank
      cases hblank
  have hdeclares := hword
  simp only [List.mem_cons, List.not_mem_nil, or_false] at hword
  rcases hword with rfl | rfl
  · exact ⟨_, _, Text.lexes_singleton (heads_word hidentifier hend) offset, rfl, rfl, _, hdeclares,
      by decide⟩
  · exact ⟨_, _, Text.lexes_singleton (heads_directive hidentifier hend) offset, rfl, rfl, _,
      hdeclares, by decide⟩

namespace Parser

variable {n : Nat} {t : Text} {c c₁ c₂ c' : Cursor} {x : Lexeme} {i : Item} {is : List Item}

/-! ### Reading a declaration -/

theorem Steady.skipIgnored : (Parser.skipIgnored .shader).Steady := by
  refine (many ?_).bind fun _ ↦ .pure ()
  refine (lex .shader).bind fun t ↦ ?_
  split
  · exact .pure ()
  · exact .refuse

theorem Steady.modulePath : Parser.modulePath.Steady := by
  have hseparator : pathSeparator.Steady := firstOf fun p hp ↦ by
    simp only [List.mem_cons, List.not_mem_nil, or_false] at hp
    rcases hp with rfl | rfl | rfl <;> exact tokenIf _ _
  have hword : directiveWord.Steady := (tokenIf _ _).map _
  have hmarkers : relativeMarkers.Steady := many ((tokenIf _ _).bind fun t ↦ .pure _)
  refine hmarkers.bind fun markers ↦ Steady.bind ?_ fun words ↦ .pure _
  exact hword.bind fun first ↦ (many (hseparator.bind fun _ ↦ hword)).bind fun more ↦ .pure _

/-- The word of a declaration is read. -/
theorem Meets.declarationWord (hnext : c.Next x c₁) (hx : x.Declares) (hn : c.rest.length < n) :
    ∃ offset, (Parser.firstOf [Parser.sign "module", Parser.sign "#module"]).Meets n c
      (.accepted (x.token offset) c₁) := by
  obtain ⟨word, hword, his⟩ := hx
  obtain ⟨offset, hsign⟩ := Meets.sign hnext hn his
  refine ⟨offset, ?_⟩
  simp only [List.mem_cons, List.not_mem_nil, or_false] at hword
  rcases hword with rfl | rfl
  · exact hsign.firstOf [] [_] (List.forall_mem_nil _)
  · have hother : ¬x.Is "module" := fun h ↦ absurd (his.1.symm.trans h.1) (by decide)
    exact hsign.firstOf [_] [] (List.forall_mem_singleton.2 (sign_refused hnext hn hother))

theorem Steady.declarationWord : (Parser.firstOf [sign "module", sign "#module"]).Steady :=
  firstOf (List.forall_mem_cons.2 ⟨tokenIf _ _, List.forall_mem_singleton.2 (tokenIf _ _)⟩)

namespace Comes

/-- Where the word of a declaration is next, one must follow. -/
theorem not_moduleItem_refused (hnext : c.Next x c₁) (hx : x.Declares) (hn : c.rest.length < n)
    (h : moduleItem.Comes n c .refused) : False := by
  obtain ⟨c₂, hskips, hnext⟩ := hnext.exists_skips
  have hskip := Meets.skipIgnored hskips hn
  obtain ⟨offset, hword⟩ := Meets.declarationWord hnext hx (hskips.length_rest_le.trans_lt hn)
  rcases h.bind_refused with h | ⟨_, _, -, h⟩
  · rcases h.spanned_refused with h | ⟨c₃, hskipped, h⟩
    · exact absurd (hskip.eq_of_comes .skipIgnored h nofun) nofun
    · obtain ⟨-, rfl⟩ := Outcome.accepted.inj (hskip.eq_of_comes .skipIgnored hskipped nofun)
      rcases Comes.bind_refused h with h | ⟨_, _, -, h⟩
      · exact absurd (hword.eq_of_comes .declarationWord h nofun) nofun
      · rcases h.bind_refused with h | ⟨_, _, -, h⟩
        · exact h.not_commit_refused
        · rcases h.bind_refused with h | ⟨_, _, -, h⟩
          · exact h.not_commit_refused
          · exact h.not_pure_refused
  · exact h.not_pure_refused

/-- Where the word of a declaration is next, the item is one. -/
theorem moduleItem (hnext : c.Next x c₁) (hx : x.Declares) (hn : c.rest.length < n)
    (h : item.Comes n c (.accepted i c')) : moduleItem.Comes n c (.accepted i c') :=
  (firstOf_cons h).resolve_right (not_moduleItem_refused hnext hx hn)

theorem exists_module (h : Parser.moduleItem.Comes n c (.accepted i c')) :
    ∃ path span, i = .module path span := by
  obtain ⟨⟨path, span⟩, c₁, -, hpure⟩ := Comes.bind h
  exact ⟨path, span, hpure.pure.1.symm⟩

/-- No token that is skipped is the word of a declaration. -/
theorem not_mem_strays {offset : Nat} (hx : x.Declares) (hin : c.In t) (hn : t.size < n)
    (h : item.Comes n c (.accepted i c')) : x.token offset ∉ i.strays := by
  intro hmem
  have hpasses := passesOver_item hin hn h
  cases i with
  | stray token =>
    obtain ⟨y, c₁, offset', hnext, hy⟩ := hpasses.exists_next
    rw [← List.mem_singleton.1 hmem] at hy
    obtain ⟨word, hword, htext, hkind⟩ := hx
    have hdeclares : y.Declares := by
      refine ⟨word, hword, ?_, ?_⟩
      · rw [← htext]
        exact congrArg Token.text hy
      · rwa [show y.kind = x.kind from congrArg Token.kind hy]
    obtain ⟨path, span, heq⟩ := (moduleItem hnext hdeclares (hin.length_lt hn) h).exists_module
    cases heq
  | _ => exact List.not_mem_nil hmem

/-- If a stretch that an item takes starts with the word of a declaration, the item is one. -/
theorem exists_module_of_span {s : Span} {c₀ : Cursor} (hin : c.In t) (hn : t.size < n)
    (h : item.Comes n c (.accepted i c')) (hs : s ∈ i.outerSpans) (hin₀ : c₀.In t)
    (hstart : c₀.offset = s.start) (hnext : c₀.Next x c₁) (hx : x.Declares) :
    ∃ path, i = .module path s ∧ c.Next x c₁ := by
  have hhead (more : List Span) (hspans : i.outerSpans = s :: more) (hstrays : i.strays = []) :
      ∃ path, i = .module path s ∧ c.Next x c₁ := by
    have hpasses := passesOver_item hin hn h
    rw [hspans, hstrays] at hpasses
    obtain ⟨xs, c₂, hxs, hignored, hin₂, hoffset⟩ := hpasses.exists_lexes hin
    obtain rfl := hin₂.eq_of_offset hin₀ (hoffset.trans hstart.symm)
    have hbehind := hnext.behind hxs hignored
    obtain ⟨path, span, rfl⟩ := (moduleItem hbehind hx (hin.length_lt hn) h).exists_module
    obtain ⟨rfl, -⟩ := List.cons.inj hspans
    exact ⟨path, rfl, hbehind⟩
  cases i with
  | stray token => exact absurd hs List.not_mem_nil
  | decl d =>
    rcases List.mem_append.1 hs with hmark | hspan
    · obtain ⟨word, hword, rfl⟩ := List.mem_map.1 hmark
      obtain hexport := Option.mem_toList.1 hword
      exact hhead [d.span] (by rw [Item.outerSpans, hexport]; rfl) rfl
    · -- a declaration behind the word `export` starts with another word
      obtain ⟨c₂, hin₂, hcovered⟩ := covered_of_item hin hn h
      obtain rfl := List.mem_singleton.1 hspan
      rw [hcovered.span] at hstart
      obtain rfl := hin₂.eq_of_offset hin₀ hstart.symm
      obtain ⟨front, back, -, hcovers⟩ := hcovered.covers
      obtain ⟨y, c₃, hother, hy⟩ := exists_next_of_declarations (.of_covers hcovers)
      obtain ⟨rfl, -⟩ := hnext.unique hother
      obtain ⟨word, hword, rfl, -⟩ := hx
      have hnot : ∀ word ∈ ["module", "#module"], word ∉ declStarts := by decide
      exact absurd hy (hnot _ hword)
  | _ => exact hhead [] (congrArg (fun s ↦ [s]) (List.mem_singleton.1 hs).symm) rfl

/-- The names on a line of a declaration are what is read. -/
theorem path_of_plainDeclaration (d : PlainDeclaration) {path : List String} {span : Span}
    {behind : Text} (h : Parser.moduleItem.Comes n c (.accepted (.module path span) c'))
    (hnext : c.Next x c₁) (hx : x.Declares)
    (hrest : c₁.rest = d.spacing ++ (d.path ++ (d.ending ++ behind)))
    (hbehind : behind = [] ∨ d.line.getLast? = some '\n') (hn : c.rest.length < n) :
    path = Parser.dropExtension d.names := by
  obtain ⟨⟨path', span'⟩, c₂, hspanned, hpure⟩ := Comes.bind h
  obtain ⟨heq, -⟩ := hpure.pure
  obtain ⟨rfl, rfl⟩ := Item.module.inj heq
  obtain ⟨u, c₃, hskip, hbody, -⟩ := hspanned.spanned
  obtain ⟨c₄, hskips, hnext⟩ := hnext.exists_skips
  obtain ⟨-, rfl⟩ := Outcome.accepted.inj
    ((Meets.skipIgnored hskips hn).eq_of_comes .skipIgnored hskip nofun)
  have hc₃ := hskips.length_rest_le.trans_lt hn
  obtain ⟨token, c₅, hword, hbody⟩ := hbody.bind
  obtain ⟨offset, hmeets⟩ := Meets.declarationWord hnext hx hc₃
  obtain ⟨-, rfl⟩ := Outcome.accepted.inj (hmeets.eq_of_comes .declarationWord hword nofun)
  obtain ⟨path, c₆, hpath, hbody⟩ := hbody.bind
  obtain ⟨u, c₇, -, hpure⟩ := hbody.bind
  obtain ⟨rfl, -⟩ := hpure.pure
  obtain ⟨xs, hprinting, hspaced⟩ := d.written.exists_printing
  obtain ⟨hhead, ys, hstops, hys⟩ := d.endsPath_ending hbehind
  have hall : Spaced (xs ++ ys) c₅.rest := by
    rw [hrest]
    exact (hspaced hys hhead).behind d.isSpacing
  obtain ⟨hpos, hlength⟩ : 0 < d.names.length ∧ d.names.length < n := by
    obtain ⟨hpos, hle⟩ := d.written.length_le
    have hlt := hnext.length_lt
    simp only [hrest, List.length_append] at hlt
    omega
  obtain ⟨_, c₈, rfl, hread, -⟩ :=
    Takes.modulePath (by omega) (.names hprinting) hstops hlength c₅ hall
  exact (Outcome.accepted.inj (hread.eq_of_comes .modulePath hpath.commit nofun)).1

end Comes

theorem Repeats.exists_comes (h : (item.withRounds n).Repeats c is c') (hin : c.In t)
    (hi : i ∈ is) : ∃ c₁ c₂, c₁.In t ∧ item.Comes n c₁ (.accepted i c₂) := by
  induction h with
  | nil => exact absurd hi List.not_mem_nil
  | cons head tail ih =>
    rcases List.mem_cons.1 hi with rfl | hi
    · exact ⟨_, _, hin, head.comes⟩
    · exact ih (head.comes.yields.reads_item hin).1.1 hi

end Parser

/-! ### Places outside of elements -/

/-- Reading the text past the spans, what stands at the offset is not passed together with anything
in front of it: it is not inside a token or a comment, and inside none of the spans. -/
def Text.IsOutside (t : Text) (spans : List Span) (offset : Nat) : Prop :=
  ∃ front behind tokens tokens' c c', spans = front ++ behind ∧
    (Cursor.start t).PassesOver t front tokens c ∧ c.PassesOver t behind tokens' c' ∧
    c'.rest = [] ∧ c.offset = offset

namespace Parser

variable {t : Text} {c c₁ c' : Cursor} {x : Lexeme} {is : List Item} {steps : Nat} {e : Effort}

/-- Outside of the items, the word of a declaration is the start of one. -/
theorem exists_module_of_isOutside (h : items.run steps t = (.accepted is c', e))
    (houtside : t.IsOutside (is.flatMap Item.outerSpans) c.offset) (hin : c.In t)
    (hlexes : c.Lexes [x] c₁) (hkept : Lexicon.shader.ignores x.kind = false) (hx : x.Declares) :
    ∃ path span, .module path span ∈ is ∧ span.start = c.offset := by
  have hnext : c.Next x c₁ := ⟨[], hlexes, List.forall_mem_nil _, hkept⟩
  have hrepeats := (repeats_of_items h).1
  obtain ⟨front, behind, tokens, tokens', c₂, c₃, hspans, hfront, hbehind, hend, hoffset⟩ :=
    houtside
  obtain rfl := (hfront.bounds (.start t)).1.eq_of_offset hin hoffset
  -- there is only one way of reading the text, and on this way the word is no token that is skipped
  have hstrays : tokens ++ tokens' = is.flatMap Item.strays := by
    obtain ⟨c₄, hall, hend'⟩ := outside_of_items h
    rw [hspans] at hall
    exact (hfront.trans hbehind).unique hall (.start t) hend hend'
  cases hbehind with
  | refl =>
    have hlt := hlexes.length_lt
    rw [hend] at hlt
    exact absurd hlt (Nat.not_lt_zero _)
  | ignored hlex hignored =>
    have heq := hlexes.lex_eq.symm.trans hlex
    obtain ⟨rfl, -⟩ := Lexed.token.inj heq
    rw [show Lexicon.shader.ignores (x.token c₂.offset).kind = false from hkept] at hignored
    cases hignored
  | token hlex =>
    obtain ⟨rfl, -⟩ := Lexed.token.inj (hlexes.lex_eq.symm.trans hlex)
    have hmem : x.token c₂.offset ∈ is.flatMap Item.strays :=
      hstrays ▸ List.mem_append_right _ List.mem_cons_self
    obtain ⟨i, hi, hmem⟩ := List.mem_flatMap.1 hmem
    obtain ⟨c₄, c₅, hin₄, hitem⟩ := hrepeats.exists_comes (.start t) hi
    exact absurd hmem (Comes.not_mem_strays hx hin₄ (Nat.lt_succ_self _) hitem)
  | @span _ c₄ _ spans _ hin₄ hlt =>
    have hmem : Span.between c₂.offset c₄.offset ∈ is.flatMap Item.outerSpans :=
      hspans ▸ List.mem_append_right _ List.mem_cons_self
    obtain ⟨i, hi, hmem⟩ := List.mem_flatMap.1 hmem
    obtain ⟨c₅, c₆, hin₅, hitem⟩ := hrepeats.exists_comes (.start t) hi
    obtain ⟨path, rfl, -⟩ := Comes.exists_module_of_span hin₅ (Nat.lt_succ_self _) hitem hmem hin
      rfl hnext hx
    exact ⟨path, _, hi, rfl⟩

end Parser

/-! ### Declarations in a module -/

/-- The path that an item declares, and where. -/
def Item.declaration? : Item → Option (ModulePath × Span)
  | module path span => some (path, span)
  | _ => none

/-- The path that an element declares, and where. -/
def Element.declaration? : Element → Option (ModulePath × Span)
  | module path span => some (path, span)
  | _ => none

/-- What is inside a declaration declares no path. -/
theorem Element.declaration?_eq_none {e : Element} (h : e.outer? = none) :
    e.declaration? = none := by
  cases e with
  | module path span => cases h
  | _ => rfl

namespace Assembly

/-- The declarations of the items are those of the elements, and the last one is the path. -/
theorem declarations_foldl (exportsAll : Bool) (items : List Item) (a : Assembly) :
    (items.foldl (item exportsAll) a).elements.filterMap Element.declaration? =
        a.elements.filterMap Element.declaration? ++ items.filterMap Item.declaration? ∧
      (items.foldl (item exportsAll) a).path =
        (items.filterMap Item.declaration?).foldl (fun _ declared ↦ some declared.1) a.path := by
  induction items generalizing a with
  | nil => exact ⟨(List.append_nil _).symm, rfl⟩
  | cons i items ih =>
    obtain ⟨helements, hpath⟩ := ih (a.item exportsAll i)
    rw [List.foldl_cons, helements, hpath]
    cases i with
    | decl d =>
      refine ⟨?_, rfl⟩
      have houter := (BodyAssembly.children_ofEvents a.scopes d.events).2
      have hinner : (BodyAssembly.ofEvents a.scopes d.events).children.filterMap
          Element.declaration? = [] := List.filterMap_eq_nil_iff.2 fun e he ↦
        Element.declaration?_eq_none (List.filterMap_eq_nil_iff.1 houter e he)
      rw [item, decl, List.filterMap_append, List.filterMap_append, List.filterMap_cons, hinner,
        List.append_assoc]
      cases d.exportSpan <;> rfl
    | stray token => exact ⟨rfl, rfl⟩
    | _ =>
      refine ⟨?_, rfl⟩
      rw [item, List.filterMap_append, List.append_assoc]
      rfl

end Assembly

namespace Module

variable {options : ParseOptions} {file : String} {t line : Text} {m : Module} {path : ModulePath}
  {span : Span} {offset : Nat}

/-- The paths that the module declares, and where. -/
def declarations (m : Module) : List (ModulePath × Span) :=
  m.elements.filterMap Element.declaration?

/-- What stands at the offset is outside of comments and of the elements, or starts one of them. -/
def Exposes (m : Module) (offset : Nat) : Prop :=
  m.text.IsOutside (m.elements.filterMap Element.outer?) offset

/-- The items of a text without conditional lines are those of the text itself, and their
declarations those of the module. -/
theorem exists_items_of_lines (h : parse options file t = .ok m)
    (hlines : ∀ line ∈ t.lines, Conditional.directive? line = none) :
    ∃ items c' e, Parser.items.run options.maxSteps t = (.accepted items c', e) ∧ m.text = t ∧
      m.elements.filterMap Element.outer? = items.flatMap Item.outerSpans ∧
      m.declarations = items.filterMap Item.declaration? ∧
      m.path = (m.declarations.foldl (fun _ declared ↦ some declared.1) none).getD
        (ModulePath.ofFile file.toList) := by
  obtain ⟨items, c', e, hrun, hm⟩ := exists_items h
  have htext := Conditional.text_process hlines options.conditions ⟨file⟩
  rw [htext] at hrun
  obtain ⟨helements, hpath⟩ := Assembly.declarations_foldl (!items.any Item.marksExport) items
    ⟨none, [], Assembly.globalScope items, Assembly.strayProblems items, none, 0⟩
  have hdeclarations : m.declarations = items.filterMap Item.declaration? := by
    rw [hm]
    exact helements
  refine ⟨items, c', e, hrun, ?_, outer_of_items hm, hdeclarations, ?_⟩
  · rw [hm]
    exact htext
  · rw [hdeclarations, hm]
    exact congrArg (Option.getD · _) hpath

/-- A line that looks like a declaration and stands outside of all else is one. -/
theorem exists_declaration (h : parse options file t = .ok m)
    (hlines : ∀ line ∈ t.lines, Conditional.directive? line = none)
    (hexposed : m.Exposes offset) (hline : t.LineAt offset line)
    (hdeclared : ModulePath.declaredBy? line = some path) :
    ∃ declared ∈ m.declarations, declared.2.start = offset := by
  obtain ⟨items, c', e, hrun, htext, houter, hdeclarations, -⟩ := exists_items_of_lines h hlines
  obtain ⟨front, behind, ht, hsize, -⟩ := hline.exists_behind
  obtain ⟨word, hword, rest, hstart, hblank⟩ := ModulePath.exists_word hdeclared
  have hhead : (rest ++ behind).head?.any isBlank = true := by
    cases rest with
    | nil => cases hblank
    | cons c rest => exact hblank
  rw [hstart, List.append_assoc] at ht
  obtain ⟨x, c₁, hlexes, -, hkept, hx⟩ := exists_lexes_word hword hhead offset
  rw [Exposes, htext, houter] at hexposed
  obtain ⟨path, span, hmem, hspan⟩ := Parser.exists_module_of_isOutside hrun hexposed
    ⟨front, ht, hsize⟩ hlexes hkept hx
  refine ⟨(path, span), ?_, hspan⟩
  rw [hdeclarations]
  exact List.mem_filterMap.2 ⟨_, hmem, rfl⟩

/-- The only declaration of a module is read as the names on its line. -/
theorem path_of_plainDeclaration (h : parse options file t = .ok m)
    (hlines : ∀ line ∈ t.lines, Conditional.directive? line = none)
    (hone : m.declarations = [(path, span)]) (d : PlainDeclaration)
    (hline : t.LineAt span.start d.line) : m.path = Parser.dropExtension d.names := by
  obtain ⟨items, c', e, hrun, htext, houter, hdeclarations, hpath⟩ := exists_items_of_lines h hlines
  obtain ⟨front, behind, ht, hsize, hend⟩ := hline.exists_behind
  have hmem : (path, span) ∈ items.filterMap Item.declaration? := by
    rw [← hdeclarations, hone]
    exact List.mem_singleton_self _
  obtain ⟨i, hi, heq⟩ := List.mem_filterMap.1 hmem
  obtain rfl : i = .module path span := by
    cases i with
    | module path' span' =>
      obtain ⟨rfl, rfl⟩ := Prod.mk.inj (Option.some.inj heq)
      rfl
    | _ => cases heq
  obtain ⟨c, c₁, hin, hitem⟩ := (Parser.repeats_of_items hrun).1.exists_comes (.start t) hi
  have hhead : (d.spacing ++ (d.path ++ (d.ending ++ behind))).head?.any isBlank = true := by
    obtain ⟨b, spacing, hs⟩ := List.exists_cons_of_ne_nil d.spacing_ne_nil
    have hspacing := d.isSpacing
    rw [hs] at hspacing ⊢
    exact (hspacing b List.mem_cons_self).1
  obtain ⟨x, c₂, hlexes, hrest, hkept, hx⟩ := exists_lexes_word d.word_mem hhead span.start
  have hn := Nat.lt_succ_self t.size
  have hin₂ : Cursor.In t ⟨d.word.toList ++ (d.spacing ++ (d.path ++ (d.ending ++ behind))),
      span.start⟩ := by
    refine ⟨front, ?_, hsize⟩
    rw [ht, d.trimStart_line, PlainDeclaration.visible]
    simp only [List.append_assoc]
  obtain ⟨_, -, hnext⟩ := Parser.Comes.exists_module_of_span hin hn hitem
    (List.mem_singleton_self _) hin₂ rfl ⟨[], hlexes, List.forall_mem_nil _, hkept⟩ hx
  have hmodule := Parser.Comes.moduleItem hnext hx (hin.length_lt hn) hitem
  rw [hpath, hone]
  exact hmodule.path_of_plainDeclaration d hnext hx hrest hend (hin.length_lt hn)

/-- A line that looks like a declaration is not blank. -/
theorem trimStart_ne_nil_of_isSome {line : Text} (hsome : (ModulePath.declaredBy? line).isSome) :
    line.trimStart ≠ [] := by
  intro hnil
  obtain ⟨path, hdeclared⟩ := Option.isSome_iff_exists.1 hsome
  obtain ⟨word, hword, rest, hstart, hblank⟩ := ModulePath.exists_word hdeclared
  rw [hnil] at hstart
  rw [(List.append_eq_nil_iff.1 hstart.symm).2] at hblank
  cases hblank

/-- Where every line that looks like a declaration is exposed, the scan finds nothing in a module
without declarations. -/
theorem declaredIn?_eq_none (h : parse options file t = .ok m)
    (hlines : ∀ line ∈ t.lines, Conditional.directive? line = none) (hnone : m.declarations = [])
    (hexposed : ∀ offset line, t.LineAt offset line → (ModulePath.declaredBy? line).isSome →
      m.Exposes offset) : ModulePath.declaredIn? t = none := by
  refine List.findSome?_eq_none_iff.2 fun line hline ↦ ?_
  by_contra hdeclares
  have hsome := Option.isSome_iff_ne_none.2 hdeclares
  obtain ⟨path, hdeclared⟩ := Option.isSome_iff_exists.1 hsome
  obtain ⟨ls, more, hsplit⟩ := List.append_of_mem hline
  have hat : t.LineAt _ line := ⟨ls, more, hsplit, rfl⟩
  obtain ⟨declared, hmem, -⟩ :=
    exists_declaration h hlines (hexposed _ line hat hsome) hat hdeclared
  rw [hnone] at hmem
  exact List.not_mem_nil hmem

/-- The scan finds the names on the line of the only declaration, if every line in front of it that
looks like one is exposed. -/
theorem declaredIn?_of_plainDeclaration (h : parse options file t = .ok m)
    (hlines : ∀ line ∈ t.lines, Conditional.directive? line = none)
    (hone : m.declarations = [(path, span)]) (d : PlainDeclaration)
    (hline : t.LineAt span.start d.line)
    (hexposed : ∀ offset line, offset < span.start → t.LineAt offset line →
      (ModulePath.declaredBy? line).isSome → m.Exposes offset) :
    ModulePath.declaredIn? t = some d.names := by
  have hsome : (ModulePath.declaredBy? d.line).isSome := by rw [d.declaredBy?_line]; rfl
  cases hscan : ModulePath.declaredIn? t with
  | none =>
    obtain ⟨ls, more, hsplit, -⟩ := hline
    have hmem : d.line ∈ t.lines := hsplit ▸ List.mem_append_right _ List.mem_cons_self
    rw [List.findSome?_eq_none_iff.1 hscan _ hmem] at hsome
    cases hsome
  | some found =>
    obtain ⟨offset, line, hat, hfound, hfirst⟩ :=
      Text.LineAt.exists_first hscan fun _ ↦ trimStart_ne_nil_of_isSome
    have hsome' : (ModulePath.declaredBy? line).isSome := by rw [hfound]; rfl
    -- a line in front of the declaration would be another one
    have hoffset : offset = span.start := by
      refine (hfirst _ _ hline hsome).antisymm (Nat.le_of_not_lt fun hlt ↦ ?_)
      obtain ⟨declared, hmem, hstart⟩ :=
        exists_declaration h hlines (hexposed _ line hlt hat hsome') hat hfound
      rw [hone] at hmem
      rw [← hstart, List.mem_singleton.1 hmem] at hlt
      exact lt_irrefl _ hlt
    rw [hoffset] at hat
    obtain rfl := hat.unique hline (trimStart_ne_nil_of_isSome hsome')
      (trimStart_ne_nil_of_isSome hsome)
    rw [← hfound, d.declaredBy?_line]

/-- **The scan and the parser agree** on a text without conditional lines, unless what looks like a
declaration stands in a comment or inside an element. The scan finds nothing in a module that
declares no path. If there is one declaration, on a line of its own and without an extension at the
end of the path, the scan finds the path of the module. -/
theorem declaredIn?_of_parse (h : parse options file t = .ok m)
    (hlines : ∀ line ∈ t.lines, Conditional.directive? line = none) :
    (m.declarations = [] →
      (∀ offset line, t.LineAt offset line → (ModulePath.declaredBy? line).isSome →
        m.Exposes offset) →
      ModulePath.declaredIn? t = none) ∧
    ∀ (path : ModulePath) (span : Span) (d : PlainDeclaration), m.declarations = [(path, span)] →
      t.LineAt span.start d.line → Parser.dropExtension d.names = d.names →
      (∀ offset line, offset < span.start → t.LineAt offset line →
        (ModulePath.declaredBy? line).isSome → m.Exposes offset) →
      ModulePath.declaredIn? t = some m.path := by
  refine ⟨declaredIn?_eq_none h hlines, fun path span d hone hline hextension hexposed ↦ ?_⟩
  rw [declaredIn?_of_plainDeclaration h hlines hone d hline hexposed,
    path_of_plainDeclaration h hlines hone d hline, hextension]

/-- The line `#module lib/shapes;`. -/
def shapesDeclaration : PlainDeclaration where
  indent := []
  word := "#module"
  spacing := [' ']
  names := ["lib", "shapes"]
  path := "lib".toList ++ ("/".toList ++ "shapes".toList)
  gap := []
  semicolons := [';']
  tail := ['\n']
  word_mem := by decide
  spacing_ne_nil := by decide
  isSpacing := List.forall_mem_singleton.2 (by decide)
  written :=
    have hlib : IsPlainName "lib" := by decide +kernel
    have hshapes : IsPlainName "shapes" := by decide +kernel
    .cons hlib (by decide) (.last hshapes)
  indent_blank := List.forall_mem_nil _
  gap_blank := List.forall_mem_nil _
  semicolons_eq := List.forall_mem_singleton.2 rfl
  tail_blank := List.forall_mem_singleton.2 (by decide)

/-- A word that only starts like that of a declaration, and a declaration behind a comment. -/
theorem declaredIn?_of_parse_shapes :
    ModulePath.declaredIn? "const modules = 1;\n".toList = none ∧
      ∃ m, parse .default "f" "// a\n#module lib/shapes;\nfn f() \x7b\x7d\n".toList = .ok m ∧
        m.path = ["lib", "shapes"] ∧
        ModulePath.declaredIn? "// a\n#module lib/shapes;\nfn f() \x7b\x7d\n".toList =
          some m.path := by
  constructor
  · have heval : (parse .default "f" "const modules = 1;\n".toList).toOption.map declarations =
        some [] := by decide +kernel
    obtain ⟨m, hm, hnone⟩ := Option.map_eq_some_iff.1 heval
    have hlines : ∀ line ∈ Text.lines "const modules = 1;\n".toList,
        ModulePath.declaredBy? line = none := by decide +kernel
    refine (declaredIn?_of_parse (Except.eq_ok_of_toOption hm) (by decide +kernel)).1 hnone ?_
    rintro offset line ⟨ls, more, hsplit, -⟩ hsome
    rw [hlines line (hsplit ▸ List.mem_append_right _ List.mem_cons_self)] at hsome
    cases hsome
  · have heval : (parse .default "f"
        "// a\n#module lib/shapes;\nfn f() \x7b\x7d\n".toList).toOption.map
          (fun m ↦ (m.declarations, m.path)) =
        some ([(["lib", "shapes"], ⟨5, 20⟩)], ["lib", "shapes"]) := by decide +kernel
    obtain ⟨m, hm, heval⟩ := Option.map_eq_some_iff.1 heval
    obtain ⟨hone, hpath⟩ := Prod.mk.inj heval
    have hlines : Text.lines "// a\n#module lib/shapes;\nfn f() \x7b\x7d\n".toList =
        ["// a\n".toList, shapesDeclaration.line, "fn f() \x7b\x7d\n".toList] := by
      decide +kernel
    have hm := Except.eq_ok_of_toOption hm
    refine ⟨m, hm, hpath, (declaredIn?_of_parse hm (by decide +kernel)).2 _ _ shapesDeclaration hone
      ⟨["// a\n".toList], _, hlines, by decide +kernel⟩ (by decide) ?_⟩
    rintro offset line hlt ⟨ls, more, hsplit, hoffset⟩ hsome
    rw [hlines] at hsplit
    cases ls with
    | nil =>
      obtain ⟨rfl, -⟩ := List.cons.inj hsplit
      exact absurd hsome (by decide +kernel)
    | cons first ls =>
      obtain ⟨rfl, -⟩ := List.cons.inj hsplit
      have hsize : Text.size "// a\n".toList = 5 := by decide +kernel
      have hlt : offset < 5 := hlt
      rw [List.flatten_cons, List.append_assoc, Text.size_append] at hoffset
      omega

/-- In a comment the scan finds what is no declaration, also in front of the one there is. -/
theorem declaredIn?_in_comment :
    (∃ m, parse .default "f" "/*\nmodule a\n*/\n".toList = .ok m ∧
      (∀ line ∈ Text.lines "/*\nmodule a\n*/\n".toList, Conditional.directive? line = none) ∧
      m.declarations = [] ∧ ModulePath.declaredIn? "/*\nmodule a\n*/\n".toList = some ["a"]) ∧
    ∃ m, parse .default "f" "/*\nmodule a\n*/\nmodule b\n".toList = .ok m ∧
      (∀ line ∈ Text.lines "/*\nmodule a\n*/\nmodule b\n".toList,
        Conditional.directive? line = none) ∧
      m.declarations = [(["b"], ⟨15, 9⟩)] ∧ m.path = ["b"] ∧
      ModulePath.declaredIn? "/*\nmodule a\n*/\nmodule b\n".toList = some ["a"] := by
  constructor
  · have heval : (parse .default "f" "/*\nmodule a\n*/\n".toList).toOption.map declarations =
        some [] := by decide +kernel
    obtain ⟨m, hm, hnone⟩ := Option.map_eq_some_iff.1 heval
    exact ⟨m, Except.eq_ok_of_toOption hm, by decide +kernel, hnone, by decide +kernel⟩
  · have heval : (parse .default "f" "/*\nmodule a\n*/\nmodule b\n".toList).toOption.map
        (fun m ↦ (m.declarations, m.path)) = some ([(["b"], ⟨15, 9⟩)], ["b"]) := by decide +kernel
    obtain ⟨m, hm, heval⟩ := Option.map_eq_some_iff.1 heval
    obtain ⟨hone, hpath⟩ := Prod.mk.inj heval
    exact ⟨m, Except.eq_ok_of_toOption hm, by decide +kernel, hone, hpath, by decide +kernel⟩

end Module

end ShaderLink
