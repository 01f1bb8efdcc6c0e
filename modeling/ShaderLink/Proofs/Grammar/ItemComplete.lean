import ShaderLink.Proofs.Grammar.Gap
import ShaderLink.Proofs.Grammar.ItemSound
import ShaderLink.Proofs.Grammar.ShapeComplete

/-!
# Declarations and statements are read as items

Where declarations and statements stand one behind the other and nothing else, these are the items
that are read (`Parser.exists_run_items`): each of them is refused by all rules in front of its own,
and behind the last of them there is no other item.
-/

namespace ShaderLink

open Lexeme

/-- The item is a declaration without the word `export` in front, or a statement that is kept. -/
def Item.IsPlain : Item → Prop
  | .decl d => d.exportSpan = none
  | .text _ => True
  | _ => False

/-- The symbols and words that declarations start with. -/
def declStarts : List String :=
  ["@", "fn", "struct", "var", "const", "override", "alias"]

/-- The symbols and words that statements start with. -/
def textStarts : List String :=
  [";", "enable", "requires", "diagnostic", "const_assert"]

theorem Cursor.SpellsIn.exists_skips {L : Language Lexeme} {c c' : Cursor} (h : c.SpellsIn L c')
    (hne : [] ∉ L) : ∃ c₁, c.Skips c₁ ∧ c₁.SpellsIn L c' := by
  obtain ⟨ts, hts, h⟩ := h
  cases ts with
  | nil => exact absurd hts hne
  | cons x xs =>
    obtain ⟨c₁, hskips, h⟩ := Spells.exists_skips h
    exact ⟨c₁, hskips, x :: xs, hts, h⟩

namespace Parser

variable {n m : Nat} {c c₁ c₂ c' : Cursor} {x : Lexeme} {xs ys : List Lexeme} {α : Type}
  {p : Parser α} {s : String}

/-! ### Spans -/

namespace Meets

theorem manyWithin_ignored (h : c.Lexes ys c') (hys : Ignored ys)
    (hend : c'.rest = [] ∨ ∃ x c₁, c'.Lexes [x] c₁ ∧ Lexicon.shader.ignores x.kind = false)
    (hm : ys.length < m) :
    ∃ us, (Parser.manyWithin (do
      let t ← Parser.lex .shader
      if Lexicon.shader.ignores t.kind then return () else Parser.refuse) m).Meets n c
        (.accepted us c') := by
  induction ys generalizing c m with
  | nil =>
    obtain rfl := h.eq_of_nil
    obtain ⟨m, rfl⟩ := Nat.exists_eq_add_of_lt hm
    refine ⟨[], manyWithin_nil ?_ _⟩
    rcases hend with hend | ⟨x, c₁, hx, hkept⟩
    · exact bind_refused (lex_nil hend)
    · refine (lex_of hx.lex_eq).bind ?_
      rw [if_neg (show ¬Lexicon.shader.ignores (x.token c.offset).kind = true from
        Bool.eq_false_iff.1 hkept)]
      exact .refuse n c₁
  | cons y ys ih =>
    obtain ⟨hy, hys⟩ := List.forall_mem_cons.1 hys
    obtain ⟨c₁, hfirst, hrest⟩ := h.uncons
    obtain ⟨m, rfl⟩ : ∃ k, m = k + 1 := ⟨m - 1, by omega⟩
    obtain ⟨us, hus⟩ := ih hrest hys (Nat.lt_of_succ_lt_succ hm)
    refine ⟨() :: us, manyWithin_cons ((lex_of hfirst.lex_eq).bind ?_) hus⟩
    rw [if_pos (show Lexicon.shader.ignores (y.token c.offset).kind = true from hy)]
    exact .pure () n c₁

/-- What is ignored is skipped if there are rounds enough for it. -/
theorem skipIgnored (h : c.Skips c') (hn : c.rest.length < n) :
    (Parser.skipIgnored .shader).Meets n c (.accepted () c') := by
  obtain ⟨ys, hlexes, hignored, hend⟩ := h
  obtain ⟨us, hus⟩ := manyWithin_ignored (n := n) hlexes hignored hend
    (hlexes.length_le_length_rest.trans_lt hn)
  exact Meets.bind (.bind .rounds hus) (.pure () n c')

/-- The span of what is read starts behind what was skipped. -/
theorem spanned {a : α} (h : c.Skips c₁) (hp : p.Meets n c₁ (.accepted a c'))
    (hn : c.rest.length < n) :
    (Parser.spanned .shader p).Meets n c
      (.accepted (a, Span.between c₁.offset c'.offset) c') :=
  (skipIgnored h hn).bind (.bind .offset (hp.bind (.bind .offset (.pure _ n c'))))

theorem spanned_refused (h : c.Skips c₁) (hp : p.Meets n c₁ .refused)
    (hn : c.rest.length < n) : (Parser.spanned .shader p).Meets n c .refused :=
  (skipIgnored h hn).bind (.bind .offset hp.bind_refused)

end Meets

/-! ### What is refused -/

/-- None of the words and symbols is next. -/
def Lacks (n : Nat) (c : Cursor) (ws : List String) : Prop :=
  ∀ s ∈ ws, (sign s).Meets n c .refused

/-- The next lexeme is one of some words and so none of others. -/
theorem lacks_of_next {starts ws : List String} (h : c.Next x c₁)
    (hx : String.ofList x.text ∈ starts) (hws : ∀ s ∈ ws, s ∉ starts) (hn : c.rest.length < n) :
    Lacks n c ws := by
  intro s hs
  refine .sign_refused h hn fun his ↦ hws s hs ?_
  rwa [← his.1]

/-- At the end of a text there is no word at all. -/
theorem lacks_of_ends (h : c.Ends) (ws : List String) (hn : c.rest.length < n) : Lacks n c ws :=
  fun _ _ ↦ (Meets.token_refused h hn).bind_refused

namespace Meets

theorem firstOf_signs_refused {ws : List String} (h : Lacks n c ws) :
    (Parser.firstOf (ws.map Parser.sign)).Meets n c .refused :=
  firstOf_refused (List.forall_mem_map.2 h)

/-- Each kind of item is refused if the words that it starts with are not there. -/
theorem moduleItem_refused (hskips : c.Skips c₁) (h : Lacks n c₁ ["module", "#module"])
    (hn : c.rest.length < n) : Parser.moduleItem.Meets n c .refused :=
  bind_refused (spanned_refused hskips (firstOf_signs_refused h).bind_refused hn)

theorem importItem_refused (hskips : c.Skips c₁) (h : Lacks n c₁ ["#import", "import"])
    (hn : c.rest.length < n) : Parser.importItem.Meets n c .refused := by
  refine bind_refused (spanned_refused hskips (firstOf_refused ?_) hn)
  refine List.forall_mem_cons.2 ⟨?_, List.forall_mem_singleton.2 ?_⟩
  · exact (h _ List.mem_cons_self).bind_refused
  · exact (h _ (List.mem_cons_of_mem _ List.mem_cons_self)).bind_refused

theorem exportItem_refused (hskips : c.Skips c₁) (h : Lacks n c₁ ["#export"])
    (hn : c.rest.length < n) : Parser.exportItem.Meets n c .refused :=
  bind_refused (spanned_refused hskips (h _ List.mem_cons_self).bind_refused hn)

theorem textItem_refused (hskips : c.Skips c₁) (h : Lacks n c₁ textStarts)
    (hn : c.rest.length < n) : Parser.textItem.Meets n c .refused := by
  obtain ⟨hsemicolon, hwords⟩ := List.forall_mem_cons.1 h
  refine bind_refused (spanned_refused hskips (firstOf_refused ?_) hn)
  refine List.forall_mem_cons.2 ⟨?_, List.forall_mem_singleton.2 ?_⟩
  · exact hsemicolon.bind_refused
  · exact (firstOf_signs_refused hwords).bind_refused

/-- A declaration is refused if none of its words is there. -/
theorem unmarkedDecl_refused (h : Lacks n c declStarts) (hn : c.rest.length < n) :
    Parser.unmarkedDecl.Meets n c .refused := by
  simp only [Lacks, declStarts, List.mem_cons, List.not_mem_nil, or_false, forall_eq_or_imp,
    forall_eq] at h
  obtain ⟨hmark, hfn, hstruct, hvar, hconst, hoverride, halias⟩ := h
  obtain ⟨m, rfl⟩ := Nat.exists_eq_add_of_lt hn
  have hmarks : Parser.attributes.Meets (c.rest.length + m + 1) c (.accepted [] c) :=
    Meets.map List.flatten (.bind .rounds (manyWithin_nil hmark.bind_refused _))
  refine hmarks.bind (bind_refused (firstOf_refused ?_))
  simp only [List.mem_cons, List.not_mem_nil, or_false, forall_eq_or_imp, forall_eq]
  refine ⟨hfn.bind_refused, hstruct.bind_refused, valueDecl_refused ?_, halias.bind_refused⟩
  simp only [List.mem_cons, List.not_mem_nil, or_false, forall_eq_or_imp, forall_eq]
  exact ⟨hvar, hconst, hoverride⟩

/-- The word `export` is not read. -/
theorem exportWord_refused (hskips : c.Skips c₁) (h : Lacks n c₁ ["export"])
    (hn : c.rest.length < n) :
    (Parser.optional (Parser.spanned .shader (Parser.sign "export"))).Meets n c
      (.accepted none c) :=
  optional_none (spanned_refused hskips (h _ List.mem_cons_self) hn)

theorem declItem_refused (hskips : c.Skips c₁) (hexport : Lacks n c₁ ["export"])
    (h : Lacks n c₁ declStarts) (hn : c.rest.length < n) :
    Parser.declItem.Meets n c .refused := by
  refine (exportWord_refused hskips hexport hn).bind ?_
  have hdecl := spanned_refused hskips
    (unmarkedDecl_refused h (hskips.length_rest_le.trans_lt hn)) hn
  exact bind_refused hdecl

/-- Where only ignored lexemes are left, there is no item. -/
theorem item_refused (h : c.Ends) (hn : c.rest.length < n) : Parser.item.Meets n c .refused := by
  obtain ⟨c₁, hskips, hend⟩ := h.exists_skips
  have hlacks (ws : List String) : Lacks n c₁ ws :=
    lacks_of_ends hend ws (hskips.length_rest_le.trans_lt hn)
  refine firstOf_refused ?_
  simp only [List.mem_cons, List.not_mem_nil, or_false, forall_eq_or_imp, forall_eq]
  exact ⟨moduleItem_refused hskips (hlacks _) hn, importItem_refused hskips (hlacks _) hn,
    exportItem_refused hskips (hlacks _) hn, textItem_refused hskips (hlacks _) hn,
    declItem_refused hskips (hlacks _) (hlacks _) hn, (token_refused h hn).map_refused _⟩

end Meets

/-! ### Items -/

/-- The words that declarations start with are known. -/
theorem exists_next_of_declarations (h : c.SpellsIn declarations c') :
    ∃ x c₁, c.Next x c₁ ∧ String.ofList x.text ∈ declStarts := by
  obtain ⟨c₁, ⟨ms, hms, hmarks⟩, hdecl⟩ := h.of_mul
  cases (show Marks ms from hms) with
  | nil =>
    cases hmarks
    obtain ⟨w, hw, c₁, hnext⟩ := hdecl.next_of_startsWith
      (((startsWith_functions.add startsWith_structs).add startsWith_values).add startsWith_aliases)
    refine ⟨_, c₁, hnext, List.mem_cons_of_mem "@" ?_⟩
    rwa [keyword, String.ofList_toList]
  | cons =>
    obtain ⟨c₂, hnext, -⟩ := hmarks.uncons
    exact ⟨_, c₂, hnext, by decide⟩

/-- So are those of statements. -/
theorem exists_next_of_statements (h : c.SpellsIn statements c') :
    ∃ x c₁, c.Next x c₁ ∧ String.ofList x.text ∈ textStarts := by
  rcases h.of_add with h | h
  · exact ⟨_, c', h.next_of_singleton, by decide⟩
  · obtain ⟨w, hw, c₁, hnext⟩ := h.next_of_startsWith (startsWith_keywordOf _).mul
    refine ⟨_, c₁, hnext, List.mem_cons_of_mem ";" ?_⟩
    rwa [keyword, String.ofList_toList]

/-- One of several words is read. -/
theorem Accepts.firstOf_signs {ws : List String} {w : String} (hw : w ∈ ws)
    (h : c.Next (keyword w) c') (hn : c.rest.length < n) :
    (Parser.firstOf (ws.map Parser.sign)).Accepts n c c' := by
  induction ws with
  | nil => exact absurd hw List.not_mem_nil
  | cons s ws ih =>
    by_cases hs : w = s
    · exact firstOf [] _ (List.forall_mem_nil _) (hs ▸ sign_keyword h hn)
    · obtain ⟨token, hread⟩ := ih ((List.mem_cons.1 hw).resolve_left hs)
      exact ⟨token, .orElse_right (Meets.sign_refused_of_keyword h hs hn) hread⟩

/-- A statement is read up to its semicolon. -/
theorem Accepts.statement (h : c.SpellsIn statements c') (hn : c.rest.length < n) :
    Accepts (Parser.firstOf [
      do
        let _ ← sign ";",
      do
        let _ ← Parser.firstOf
          [sign "enable", sign "requires", sign "diagnostic", sign "const_assert"]
        let _ ← Parser.bodyUntil ";" .code]) n c c' := by
  rcases h.of_add with h | h
  · exact firstOf [] _ (List.forall_mem_nil _)
      ((sign_symbol h.next_of_singleton hn).bind fun _ ↦ .pure _ n c')
  · obtain ⟨c₁, hword, hbody⟩ := h.of_mul
    obtain ⟨w, hw, hnext⟩ := hword.next_of_keywordOf
    refine firstOf [_] [] (List.forall_mem_singleton.2 ?_) ((firstOf_signs hw hnext hn).bind
      fun _ ↦ (bodyUntil_of_spellsIn hbody (by decide) (hword.length_rest_le.trans_lt hn) _).bind
      fun _ ↦ .pure _ n c')
    exact (Meets.sign_refused_of_keyword hnext
      (ne_of_mem_of_not_mem hw (by decide)) hn).bind_refused

/-- A declaration is read as an item. -/
theorem Meets.exists_declItem (h : c.SpellsIn declarations c') (hn : c.rest.length < n) :
    ∃ i, Parser.item.Meets n c (.accepted i c') ∧ i.IsPlain := by
  obtain ⟨c₁, hskips, h⟩ := h.exists_skips fun hnil ↦ by
    obtain ⟨s, -, hlast⟩ := getLast?_of_mem_declarations hnil
    cases hlast
  obtain ⟨x, c₂, hnext, hx⟩ := exists_next_of_declarations h
  have hc₁ := hskips.length_rest_le.trans_lt hn
  have hlacks {ws : List String} (hws : ∀ s ∈ ws, s ∉ declStarts) : Lacks n c₁ ws :=
    lacks_of_next hnext hx hws hc₁
  obtain ⟨⟨kind, declared, events⟩, hread⟩ := Accepts.unmarkedDecl h hc₁
  have hdecl : Parser.declItem.Meets n c (.accepted (.decl ⟨kind, declared,
      Span.between c₁.offset c'.offset, none, events⟩) c') := by
    refine (exportWord_refused hskips (hlacks (by decide)) hn).bind ?_
    exact (spanned hskips hread hn).bind (.pure _ n c')
  refine ⟨_, hdecl.firstOf [_, _, _, _] [_] ?_, rfl⟩
  simp only [List.mem_cons, List.not_mem_nil, or_false, forall_eq_or_imp, forall_eq]
  exact ⟨moduleItem_refused hskips (hlacks (by decide)) hn,
    importItem_refused hskips (hlacks (by decide)) hn,
    exportItem_refused hskips (hlacks (by decide)) hn,
    textItem_refused hskips (hlacks (by decide)) hn⟩

/-- A statement that is kept is read as an item. -/
theorem Meets.exists_textItem (h : c.SpellsIn statements c') (hn : c.rest.length < n) :
    ∃ i, Parser.item.Meets n c (.accepted i c') ∧ i.IsPlain := by
  obtain ⟨c₁, hskips, h⟩ := h.exists_skips fun hnil ↦ by cases endsWith_statements [] hnil
  obtain ⟨x, c₂, hnext, hx⟩ := exists_next_of_statements h
  have hc₁ := hskips.length_rest_le.trans_lt hn
  have hlacks {ws : List String} (hws : ∀ s ∈ ws, s ∉ textStarts) : Lacks n c₁ ws :=
    lacks_of_next hnext hx hws hc₁
  obtain ⟨u, hread⟩ := Accepts.statement h hc₁
  have htext : Parser.textItem.Meets n c
      (.accepted (.text (Span.between c₁.offset c'.offset)) c') :=
    (spanned hskips hread hn).bind (.pure _ n c')
  refine ⟨_, htext.firstOf [_, _, _] [_, _] ?_, trivial⟩
  simp only [List.mem_cons, List.not_mem_nil, or_false, forall_eq_or_imp, forall_eq]
  exact ⟨moduleItem_refused hskips (hlacks (by decide)) hn,
    importItem_refused hskips (hlacks (by decide)) hn,
    exportItem_refused hskips (hlacks (by decide)) hn⟩

/-- Declarations and statements one behind the other are read as items, up to the last. -/
theorem Meets.manyWithin_item {tss : List (List Lexeme)}
    (hall : ∀ ts ∈ tss, ts ∈ declarations + statements) (h : c.Spells tss.flatten c')
    (hend : c'.Ends) (hm : tss.length < m) (hn : c.rest.length < n) :
    ∃ is, (Parser.manyWithin Parser.item m).Meets n c (.accepted is c') ∧
      ∀ i ∈ is, i.IsPlain := by
  induction tss generalizing c m with
  | nil =>
    cases h
    obtain ⟨m, rfl⟩ := Nat.exists_eq_add_of_lt hm
    exact ⟨[], manyWithin_nil (item_refused hend hn) _, List.forall_mem_nil _⟩
  | cons ts tss ih =>
    obtain ⟨hts, hall⟩ := List.forall_mem_cons.1 hall
    obtain ⟨c₁, hfirst, hrest⟩ := h.split
    obtain ⟨m, rfl⟩ : ∃ k, m = k + 1 := ⟨m - 1, by omega⟩
    obtain ⟨is, his, hplain⟩ := ih hall hrest (Nat.lt_of_succ_lt_succ hm)
      (hfirst.length_rest_le.trans_lt hn)
    obtain ⟨i, hi, hiplain⟩ : ∃ i, Parser.item.Meets n c (.accepted i c₁) ∧ i.IsPlain := by
      rcases hts with hts | hts
      · exact exists_declItem ⟨ts, hts, hfirst⟩ hn
      · exact exists_textItem ⟨ts, hts, hfirst⟩ hn
    exact ⟨i :: is, manyWithin_cons hi his, List.forall_mem_cons.2 ⟨hiplain, hplain⟩⟩

/-- Items up to the end of a text are all of its items, given enough steps. -/
theorem exists_run_of_manyWithin {t : Text} {is : List Item}
    (h : (Parser.manyWithin Parser.item (t.size + 1)).Meets (t.size + 1) (.start t)
      (.accepted is c'))
    (hend : c'.Ends) (hlength : c'.rest.length < t.size + 1) :
    ∃ k, ∀ steps ≥ k, ∃ e, Parser.items.run steps t = (.accepted is c', e) := by
  have hitems : Parser.items.Meets (t.size + 1) (.start t) (.accepted is c') :=
    Meets.bind (.bind .rounds h)
      (.bind (Meets.token_refused hend hlength).absent (.pure is (t.size + 1) c'))
  obtain ⟨k, hk⟩ := hitems
  refine ⟨k, fun steps hsteps ↦ ?_⟩
  obtain ⟨e, -, hrun⟩ := hk steps Effort.none (by simpa [Effort.none] using hsteps)
  exact ⟨e, hrun⟩

/-- A text of nothing but declarations and statements is read as such, given enough steps. -/
theorem exists_run_items {t : Text} {tss : List (List Lexeme)}
    (hall : ∀ ts ∈ tss, ts ∈ declarations + statements)
    (h : (Cursor.start t).Spells tss.flatten c') (hend : c'.Ends) :
    ∃ is k, (∀ i ∈ is, i.IsPlain) ∧
      ∀ steps ≥ k, ∃ e, Parser.items.run steps t = (.accepted is c', e) := by
  have hne : ∀ ts ∈ tss, 0 < ts.length := by
    intro ts hts
    refine List.length_pos_iff.2 ?_
    rintro rfl
    rcases hall [] hts with hnil | hnil
    · obtain ⟨s, -, hlast⟩ := getLast?_of_mem_declarations hnil
      cases hlast
    · cases endsWith_statements [] hnil
  have hlength : tss.length ≤ tss.flatten.length := by
    clear h hall
    induction tss with
    | nil => exact Nat.le_refl _
    | cons ts tss ih =>
      obtain ⟨hts, hne⟩ := List.forall_mem_cons.1 hne
      have := ih hne
      rw [List.flatten_cons, List.length_append, List.length_cons]
      omega
  have hsize : t.length < t.size + 1 := Nat.lt_succ_of_le (Text.length_le_size t)
  have hle : tss.flatten.length ≤ t.length := Nat.le_of_add_right_le h.length_le
  obtain ⟨is, hmany, hplain⟩ := Meets.manyWithin_item hall h hend (m := t.size + 1) (by omega) hsize
  obtain ⟨k, hk⟩ := exists_run_of_manyWithin hmany hend (h.length_rest_le.trans_lt hsize)
  exact ⟨is, k, hplain, hk⟩

end Parser

end ShaderLink
