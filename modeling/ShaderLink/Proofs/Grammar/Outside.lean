import ShaderLink.Proofs.Grammar.Parts

/-!
# What stands outside of the items

A text is read past some spans if it is passed token by token, except where one of the spans starts,
which is passed as a whole (`Cursor.PassesOver`). The tokens that are not ignored on the way are
those
**outside** of the spans, and there is only one way of reading (`Cursor.PassesOver.unique`). The
items of a module read its text past the stretches that they take, and the tokens outside are the
stray ones (`Parser.outside_of_items`).
-/

namespace ShaderLink

/-- From one cursor to the other the text is read past the spans, and the tokens are those outside
of them that are not ignored. -/
inductive Cursor.PassesOver (t : Text) : Cursor → List Span → List Token → Cursor → Prop
  | refl (c : Cursor) : Cursor.PassesOver t c [] [] c
  | ignored {c c₁ c' : Cursor} {spans : List Span} {tokens : List Token} {token : Token}
    (hlex : Lexicon.shader.lex c = .token token c₁)
    (hkind : Lexicon.shader.ignores token.kind = true)
    (hrest : Cursor.PassesOver t c₁ spans tokens c') : Cursor.PassesOver t c spans tokens c'
  | token {c c₁ c' : Cursor} {spans : List Span} {tokens : List Token} {token : Token}
    (hlex : Lexicon.shader.lex c = .token token c₁)
    (hkind : Lexicon.shader.ignores token.kind = false)
    (hrest : Cursor.PassesOver t c₁ spans tokens c') :
    Cursor.PassesOver t c spans (token :: tokens) c'
  | span {c c₁ c' : Cursor} {spans : List Span} {tokens : List Token} (hin : c₁.In t)
    (hlt : c.offset < c₁.offset) (hrest : Cursor.PassesOver t c₁ spans tokens c') :
    Cursor.PassesOver t c (Span.between c.offset c₁.offset :: spans) tokens c'

/-- The tokens are those of the whole text that stand outside of the spans and are not ignored. -/
def Text.Outside (t : Text) (spans : List Span) (tokens : List Token) : Prop :=
  ∃ c', (Cursor.start t).PassesOver t spans tokens c' ∧ c'.rest = []

namespace Cursor

variable {t : Text} {c c₁ c₂ c' : Cursor} {spans spans' : List Span} {tokens tokens' : List Token}
  {token : Token}

/-- Where a text is read to is known by the offset. -/
theorem In.eq_of_offset (h : c.In t) (h' : c'.In t) (hoffset : c.offset = c'.offset) : c = c' := by
  obtain ⟨rest, offset⟩ := c
  obtain ⟨rest', offset'⟩ := c'
  obtain ⟨front, ht, hfront⟩ := h
  obtain ⟨front', ht', hfront'⟩ := h'
  dsimp only at ht ht' hfront hfront' hoffset
  obtain rfl := hoffset
  obtain ⟨-, heq⟩ : front = front' ∧ rest = rest' := by
    have hcut := Text.splitAt?_append front rest
    have hcut' := Text.splitAt?_append front' rest'
    rw [hfront, ← ht] at hcut
    rw [hfront', ← ht', hcut] at hcut'
    simpa using hcut'
  rw [heq]

namespace PassesOver

theorem trans (h : c.PassesOver t spans tokens c₁) (h' : c₁.PassesOver t spans' tokens' c') :
    c.PassesOver t (spans ++ spans') (tokens ++ tokens') c' := by
  induction h with
  | refl => exact h'
  | ignored hlex hkind _ ih => exact .ignored hlex hkind (ih h')
  | token hlex hkind _ ih => exact .token hlex hkind (ih h')
  | span hin hlt _ ih => exact .span hin hlt (ih h')

/-- Ignored lexemes are passed one by one. -/
theorem of_lexes {xs : List Lexeme} (h : c.Lexes xs c') (hxs : Ignored xs) :
    c.PassesOver t [] [] c' := by
  induction xs generalizing c with
  | nil =>
    obtain rfl := h.eq_of_nil
    exact .refl c
  | cons x xs ih =>
    obtain ⟨hx, hxs⟩ := List.forall_mem_cons.1 hxs
    obtain ⟨c₁, hfirst, hrest⟩ := h.uncons
    exact .ignored hfirst.lex_eq hx (ih hrest hxs)

theorem of_skips (h : c.Skips c') : c.PassesOver t [] [] c' := by
  obtain ⟨xs, hlexes, hxs, -⟩ := h
  exact of_lexes hlexes hxs

/-- Behind what is skipped, a stretch is passed as a whole. -/
theorem of_stretch (h : c.Skips c₁) (hin : c'.In t) (hlt : c₁.offset < c'.offset) :
    c.PassesOver t [Span.between c₁.offset c'.offset] [] c' :=
  (of_skips h).trans (.span hin hlt (.refl c'))

/-- Nothing is passed twice. -/
theorem bounds (h : c.PassesOver t spans tokens c') (hin : c.In t) :
    c'.In t ∧ (∀ s ∈ spans, c.offset ≤ s.start) ∧
      (∀ token ∈ tokens, c.offset ≤ token.span.start ∧ token.span.start < t.size) ∧
      tokens.Pairwise fun a b ↦ a.span.start < b.span.start := by
  induction h with
  | refl => exact ⟨hin, List.forall_mem_nil _, List.forall_mem_nil _, .nil⟩
  | ignored hlex _ _ ih =>
    have hpasses := Lexicon.passes_of_lex hlex
    have hlt := hpasses.offset_lt
    obtain ⟨hin', hspans, htokens, hpairwise⟩ := ih (hin.passes hpasses)
    exact ⟨hin', fun s hs ↦ hlt.le.trans (hspans s hs),
      fun a ha ↦ ⟨hlt.le.trans (htokens a ha).1, (htokens a ha).2⟩, hpairwise⟩
  | token hlex _ _ ih =>
    have hpasses := Lexicon.passes_of_lex hlex
    have hlt := hpasses.offset_lt
    have hstart := hpasses.start_span
    have hin₁ := hin.passes hpasses
    obtain ⟨hin', hspans, htokens, hpairwise⟩ := ih hin₁
    refine ⟨hin', fun s hs ↦ hlt.le.trans (hspans s hs), List.forall_mem_cons.2 ⟨⟨hstart.ge, ?_⟩,
      fun a ha ↦ ⟨hlt.le.trans (htokens a ha).1, (htokens a ha).2⟩⟩,
      List.pairwise_cons.2 ⟨fun a ha ↦ ?_, hpairwise⟩⟩
    · rw [hstart]
      exact hlt.trans_le hin₁.isBoundary.le_size
    · rw [hstart]
      exact hlt.trans_le (htokens a ha).1
  | span hin₁ hlt _ ih =>
    obtain ⟨hin', hspans, htokens, hpairwise⟩ := ih hin₁
    exact ⟨hin', List.forall_mem_cons.2 ⟨Nat.le_refl _, fun s hs ↦ hlt.le.trans (hspans s hs)⟩,
      fun a ha ↦ ⟨hlt.le.trans (htokens a ha).1, (htokens a ha).2⟩, hpairwise⟩

/-- What a span in front of all others is passed as leaves no room for a token. -/
theorem not_start_of_lex {s : Span} (hlex : Lexicon.shader.lex c = .token token c₁)
    (h : c₁.PassesOver t (s :: spans) tokens c') (hin : c.In t) : s.start ≠ c.offset := by
  have hpasses := Lexicon.passes_of_lex hlex
  have hle := (h.bounds (hin.passes hpasses)).2.1 s List.mem_cons_self
  exact (hpasses.offset_lt.trans_le hle).ne'

/-- Without spans in front of it, the first token is next. -/
theorem exists_next (h : c.PassesOver t [] (token :: tokens) c') :
    ∃ x c₁ offset, c.Next x c₁ ∧ x.token offset = token := by
  generalize hspans : ([] : List Span) = spans at h
  generalize htokens : token :: tokens = all at h
  induction h with
  | refl => cases htokens
  | ignored hlex hkind _ ih =>
    obtain ⟨x, hx, rfl⟩ := Cursor.Lexes.of_lex hlex
    obtain ⟨y, c₁, offset, hnext, hy⟩ := ih hspans htokens
    exact ⟨y, c₁, offset, hnext.behind hx (List.forall_mem_singleton.2 hkind), hy⟩
  | token hlex hkind _ _ =>
    obtain ⟨rfl, -⟩ := List.cons.inj htokens
    obtain ⟨x, hx, rfl⟩ := Cursor.Lexes.of_lex hlex
    exact ⟨x, _, _, ⟨[], hx, List.forall_mem_nil _, hkind⟩, rfl⟩
  | span => cases hspans

/-- Without tokens in front of it, there is nothing but ignored lexemes up to the first span. -/
theorem exists_lexes {s : Span} (h : c.PassesOver t (s :: spans) [] c') (hin : c.In t) :
    ∃ xs c₁, c.Lexes xs c₁ ∧ Ignored xs ∧ c₁.In t ∧ c₁.offset = s.start := by
  generalize hspans : s :: spans = all at h
  generalize htokens : ([] : List Token) = tokens at h
  induction h with
  | refl => cases hspans
  | ignored hlex hkind _ ih =>
    obtain ⟨x, hx, rfl⟩ := Cursor.Lexes.of_lex hlex
    obtain ⟨xs, c₁, hxs, hignored, hin', hstart⟩ := ih (hin.lexes hx) hspans htokens
    exact ⟨[x] ++ xs, c₁, hx.trans hxs, List.forall_mem_cons.2 ⟨hkind, hignored⟩, hin', hstart⟩
  | token => cases htokens
  | @span c =>
    obtain ⟨rfl, -⟩ := List.cons.inj hspans
    exact ⟨[], c, .refl c, List.forall_mem_nil _, hin, rfl⟩

/-- Past given spans, there is only one way to read the whole text. -/
theorem unique (h : c.PassesOver t spans tokens c₁) (h' : c.PassesOver t spans tokens' c₂)
    (hin : c.In t) (hend : c₁.rest = []) (hend' : c₂.rest = []) : tokens = tokens' := by
  -- no token can be read where nothing is left
  have hlexed {c c' : Cursor} {token : Token} (hlex : Lexicon.shader.lex c = .token token c')
      (hnil : c.rest = []) : False := by
    obtain ⟨lexeme, hrest, hne, -⟩ := Lexicon.passes_of_lex hlex
    exact hne (List.append_eq_nil_iff.1 (hrest.symm.trans hnil)).1
  generalize hspans : spans = spans' at h'
  induction h generalizing spans' tokens' with
  | refl c =>
    cases h' with
    | refl => rfl
    | ignored hlex => exact (hlexed hlex hend).elim
    | token hlex => exact (hlexed hlex hend).elim
    | span => cases hspans
  | ignored hlex hkind hrest ih =>
    have hin₁ := hin.passes (Lexicon.passes_of_lex hlex)
    cases h' with
    | refl => exact (hlexed hlex hend').elim
    | ignored hlex' hkind' hrest' =>
      obtain ⟨rfl, rfl⟩ := Lexed.token.inj (hlex.symm.trans hlex')
      exact ih hin₁ hend _ hspans hrest'
    | token hlex' hkind' =>
      obtain ⟨rfl, rfl⟩ := Lexed.token.inj (hlex.symm.trans hlex')
      rw [hkind] at hkind'
      cases hkind'
    | span =>
      rw [hspans] at hrest
      exact absurd rfl (not_start_of_lex hlex hrest hin)
  | token hlex hkind hrest ih =>
    have hin₁ := hin.passes (Lexicon.passes_of_lex hlex)
    cases h' with
    | refl => exact (hlexed hlex hend').elim
    | ignored hlex' hkind' =>
      obtain ⟨rfl, rfl⟩ := Lexed.token.inj (hlex.symm.trans hlex')
      rw [hkind] at hkind'
      cases hkind'
    | token hlex' hkind' hrest' =>
      obtain ⟨rfl, rfl⟩ := Lexed.token.inj (hlex.symm.trans hlex')
      rw [ih hin₁ hend _ hspans hrest']
    | span =>
      rw [hspans] at hrest
      exact absurd rfl (not_start_of_lex hlex hrest hin)
  | span hin₁ hlt hrest ih =>
    cases h' with
    | refl => cases hspans
    | ignored hlex' _ hrest' =>
      rw [← hspans] at hrest'
      exact absurd rfl (not_start_of_lex hlex' hrest' hin)
    | token hlex' _ hrest' =>
      rw [← hspans] at hrest'
      exact absurd rfl (not_start_of_lex hlex' hrest' hin)
    | span hin₂ hlt' hrest' =>
      obtain ⟨hspan, htail⟩ := List.cons.inj hspans
      have hstop := congrArg Span.stop hspan
      rw [Span.stop_between hlt.le, Span.stop_between hlt'.le] at hstop
      -- both jump over the same span, and so to the same place
      obtain rfl := hin₁.eq_of_offset hin₂ hstop
      exact ih hin₁ hend _ htail hrest'

end PassesOver

end Cursor

/-! ### Items -/

/-- The tokens that an item leaves outside. -/
def Item.strays : Item → List Token
  | stray token => [token]
  | _ => []

namespace Parser

variable {n : Nat} {t : Text} {c c₁ c' : Cursor} {i : Item} {is : List Item}

namespace Comes

/-- A stretch that an item takes behind what is skipped is passed as a whole. -/
theorem passesOver_stretch (hskips : c.Skips c₁)
    (hreads : c'.In t ∧ t.Ascending c.offset [Span.between c₁.offset c'.offset] c'.offset) :
    c.PassesOver t [Span.between c₁.offset c'.offset] [] c' :=
  .of_stretch hskips hreads.1
    (Nat.lt_of_sub_pos (hreads.2.fits _ (List.mem_singleton_self _)).size_pos)

theorem passesOver_declItem (hin : c.In t) (hc : c.rest.length < n)
    (h : declItem.Comes n c (.accepted i c')) :
    c.PassesOver t i.outerSpans i.strays c' := by
  obtain ⟨d', -, ⟨hin', hascending⟩, -⟩ := h.yields.reads_declItem hin
  obtain ⟨d, c₁, c₂, rfl, hskips, ⟨hspan, -⟩, hcases⟩ := covered_declItem hc h
  have hfits : t.Fits (Span.between c₂.offset c'.offset) :=
    hspan ▸ hascending.fits _ (List.mem_append_right _ (List.mem_singleton_self _))
  have hlt : c₂.offset < c'.offset := Nat.lt_of_sub_pos hfits.size_pos
  rw [Item.outerSpans, hspan]
  rcases hcases with ⟨hexport, rfl⟩ | ⟨word, xs, hexport, hstart, hxs, hne⟩
  · rw [hexport]
    exact .of_stretch hskips hin' hlt
  · have hin₂ := (hin.skips hskips).lexes hxs
    rw [hexport, Option.toList_some, List.map_singleton, hstart]
    exact (Cursor.PassesOver.of_stretch hskips hin₂ (hxs.offset_lt hne)).trans
      (.span hin' hlt (.refl c'))

/-- The text of an item is read past the stretches that it takes. -/
theorem passesOver_item (hin : c.In t) (hn : t.size < n) (h : item.Comes n c (.accepted i c')) :
    c.PassesOver t i.outerSpans i.strays c' := by
  have hc := hin.length_lt hn
  obtain ⟨p, hp, h⟩ := h.firstOf
  simp only [List.mem_cons, List.not_mem_nil, or_false] at hp
  rcases hp with rfl | rfl | rfl | rfl | rfl | rfl
  · have hreads := (h.yields.reads_moduleItem (t := t)).1 hin
    obtain ⟨⟨path, span⟩, c₁, hspanned, hpure⟩ := Comes.bind h
    obtain ⟨rfl, rfl⟩ := hpure.pure
    obtain ⟨u, c₂, hskip, -, rfl⟩ := hspanned.spanned
    exact passesOver_stretch (hskip.skips hc) hreads
  · have hreads := (h.yields.reads_importItem (t := t)).1 hin
    obtain ⟨⟨⟨tree, dialect⟩, span⟩, c₁, hspanned, hpure⟩ := Comes.bind h
    obtain ⟨rfl, rfl⟩ := hpure.pure
    obtain ⟨u, c₂, hskip, -, rfl⟩ := hspanned.spanned
    exact passesOver_stretch (hskip.skips hc) hreads
  · have hreads := (h.yields.reads_exportItem (t := t)).1 hin
    obtain ⟨⟨params, span⟩, c₁, hspanned, hpure⟩ := Comes.bind h
    obtain ⟨rfl, rfl⟩ := hpure.pure
    obtain ⟨u, c₂, hskip, -, rfl⟩ := hspanned.spanned
    exact passesOver_stretch (hskip.skips hc) hreads
  · have hreads := (h.yields.reads_textItem (t := t)).1 hin
    obtain ⟨c₁, hskips, rfl, -⟩ := covers_textItem hc h
    exact passesOver_stretch hskips hreads
  · exact passesOver_declItem hin hc h
  · obtain ⟨token, htoken, rfl⟩ := h.map
    obtain ⟨xs, x, hlexes, hxs, hx, rfl⟩ := htoken.yields.lexes_token
    obtain ⟨c₁, hfront, hlast⟩ := hlexes.split
    rw [← hfront.offset]
    exact (Cursor.PassesOver.of_lexes hfront hxs).trans (.token hlast.lex_eq hx (.refl c'))

end Comes

theorem Repeats.passesOver (h : (item.withRounds n).Repeats c is c') (hin : c.In t)
    (hn : t.size < n) :
    c.PassesOver t (is.flatMap Item.outerSpans) (is.flatMap Item.strays) c' := by
  induction h with
  | nil c => exact .refl c
  | cons head tail ih =>
    rw [List.flatMap_cons, List.flatMap_cons]
    exact (Comes.passesOver_item hin hn head.comes).trans
      (ih (head.comes.yields.reads_item hin).1.1)

/-- The tokens outside of the stretches that the items of a text take are the stray ones. -/
theorem outside_of_items {steps : Nat} {e : Effort}
    (h : items.run steps t = (.accepted is c', e)) :
    t.Outside (is.flatMap Item.outerSpans) (is.flatMap Item.strays) := by
  obtain ⟨hrepeats, hfinished⟩ := repeats_of_items h
  have hpasses := hrepeats.passesOver (.start t) (Nat.lt_succ_self _)
  have hin' := (hpasses.bounds (.start t)).1
  obtain ⟨xs, c₁, hlexes, hxs, hend⟩ := hfinished.ends (hin'.length_lt (Nat.lt_succ_self _))
  have hall := hpasses.trans (.of_lexes hlexes hxs)
  rw [List.append_nil, List.append_nil] at hall
  exact ⟨c₁, hall, hend⟩

end Parser

end ShaderLink
