import ShaderLink.Proofs.Grammar.Gap
import ShaderLink.Proofs.Grammar.Item
import ShaderLink.Proofs.Grammar.ShapeSound

/-!
# Items are read as declarations and statements

The items that are kept when modules are linked, declarations and statements, are read as words of
their languages, behind lexemes that are ignored and perhaps the word `export`.
-/

namespace ShaderLink

open Lexeme

/-- A declaration has been read between cursors that stand where its span starts and stops. -/
structure DeclItem.ReadBetween (d : DeclItem) (n : Nat) (c c' : Cursor) : Prop where
  span : d.span = Span.between c.offset c'.offset
  comes : Parser.unmarkedDecl.Comes n c (.accepted (d.kind, d.name, d.events) c')

/-- A declaration is in the language of declarations, between cursors that stand where its span
starts and stops. -/
structure DeclItem.Covered (d : DeclItem) (c c' : Cursor) : Prop where
  span : d.span = Span.between c.offset c'.offset
  isIdentifier : Text.IsIdentifier d.name.text.toList
  unreserved : isKeyword d.name.text = false
  spelled : ∀ t, c.In t → t.slice? d.name.span = some d.name.text.toList
  covers : ∃ front back, childSpans d.events = front ++ back ∧
    c.Covers declarations (front ++ d.name.span :: back) c'

theorem Cursor.In.lexes {t : Text} {c c' : Cursor} {xs : List Lexeme} (h : c.In t)
    (hlexes : c.Lexes xs c') : c'.In t := by
  obtain ⟨front, rfl, hfront⟩ := h
  refine ⟨front ++ join xs, ?_, ?_⟩
  · rw [hlexes.rest, List.append_assoc]
  · rw [Text.size_append, hfront, hlexes.offset]

/-- No more is left to read than there is. -/
theorem Cursor.In.length_lt {t : Text} {c : Cursor} {n : Nat} (h : c.In t) (hn : t.size < n) :
    c.rest.length < n := by
  obtain ⟨front, ht, -⟩ := h
  have hlength := Text.length_le_size t
  rw [ht, List.length_append] at hlength
  rw [ht] at hn
  omega

theorem Cursor.In.skips {t : Text} {c c' : Cursor} (h : c.In t) (hskips : c.Skips c') :
    c'.In t := by
  obtain ⟨ys, hys, -⟩ := hskips
  exact h.lexes hys

namespace Parser

variable {n : Nat} {c c' : Cursor} {α : Type}

/-- A name is an identifier and not reserved. -/
theorem Yields.isIdentifier {token : Token} (h : Parser.name.Yields c token c') :
    Text.IsIdentifier token.text.toList ∧ isKeyword token.text = false := by
  obtain ⟨htoken, haccepts⟩ := h.tokenIf
  obtain ⟨x, offset, hnext, rfl⟩ := htoken.next
  simp only [Bool.and_eq_true, beq_iff_eq, Bool.not_eq_true'] at haccepts
  refine ⟨?_, haccepts.2⟩
  show Text.IsIdentifier (String.ofList x.text).toList
  rw [String.toList_ofList]
  exact (hnext.heads.isIdentifier haccepts.1).1

namespace Comes

theorem spanned {l : Lexicon} {p : Parser α} {a : α} {span : Span}
    (h : (Parser.spanned l p).Comes n c (.accepted (a, span) c')) :
    ∃ u c₁, (Parser.skipIgnored l).Comes n c (.accepted u c₁) ∧ p.Comes n c₁ (.accepted a c') ∧
      Span.between c₁.offset c'.offset = span := by
  obtain ⟨u, c₁, hskip, h⟩ := Comes.bind h
  obtain ⟨start, c₂, hstart, h⟩ := h.bind
  obtain ⟨rfl, rfl⟩ := hstart.yields.offset
  obtain ⟨a, c₃, ha, h⟩ := h.bind
  obtain ⟨stop, c₄, hstop, h⟩ := h.bind
  obtain ⟨rfl, rfl⟩ := hstop.yields.offset
  obtain ⟨heq, rfl⟩ := h.pure
  obtain ⟨rfl, rfl⟩ := Prod.mk.inj heq
  exact ⟨u, _, hskip, ha, rfl⟩

/-- Behind what is skipped, the construct itself is refused. -/
theorem spanned_refused {l : Lexicon} {p : Parser α}
    (h : (Parser.spanned l p).Comes n c .refused) :
    (Parser.skipIgnored l).Comes n c .refused ∨
      ∃ c₁, (Parser.skipIgnored l).Comes n c (.accepted () c₁) ∧ p.Comes n c₁ .refused := by
  have hoffset {c : Cursor} (h : Parser.offset.Comes n c .refused) : False := by
    obtain ⟨steps, e, e', h⟩ := h
    cases (Prod.mk.inj h).1
  rcases h.bind_refused with h | ⟨⟨⟩, c₁, hskip, h⟩
  · exact .inl h
  · rcases h.bind_refused with h | ⟨start, c₂, hstart, h⟩
    · exact (hoffset h).elim
    · obtain ⟨-, rfl⟩ := hstart.yields.offset
      rcases h.bind_refused with h | ⟨a, c₃, -, h⟩
      · exact .inr ⟨_, hskip, h⟩
      · rcases h.bind_refused with h | ⟨stop, c₄, -, h⟩
        · exact (hoffset h).elim
        · exact h.not_pure_refused.elim

/-- All ignored lexemes are skipped. -/
theorem skips {u : Unit} (h : (Parser.skipIgnored .shader).Comes n c (.accepted u c'))
    (hc : c.rest.length < n) : c.Skips c' := by
  obtain ⟨us, c₁, hus, hpure⟩ := Comes.bind h
  obtain ⟨-, rfl⟩ := hpure.pure
  -- each round passes one lexeme that is ignored
  have hround {c c' : Cursor} {u : Unit} (h : (do
      let t ← Parser.lex .shader
      if Lexicon.shader.ignores t.kind then return () else Parser.refuse).Yields c u c') :
      ∃ x, c.Lexes [x] c' ∧ Lexicon.shader.ignores x.kind = true := by
    obtain ⟨token, c₁, htoken, hrest⟩ := Yields.bind h
    obtain ⟨x, hx, rfl⟩ := Cursor.Lexes.of_lex htoken.lexed
    split at hrest
    · rename_i hkind
      obtain ⟨-, rfl⟩ := hrest.pure
      exact ⟨x, hx, hkind⟩
    · exact hrest.not_refuse.elim
  have hrefused := hus.many_refused (fun h ↦ by
    obtain ⟨x, hx, -⟩ := hround h.yields
    exact hx.length_lt) hc
  -- the round that was refused shows what stands behind
  have hend : c₁.rest = [] ∨ ∃ x c₂, c₁.Lexes [x] c₂ ∧ Lexicon.shader.ignores x.kind = false := by
    rcases hrefused.bind_refused with hnone | ⟨token, c₂, htoken, hrest⟩
    · exact .inl hnone.rest_eq_nil
    · obtain ⟨x, hx, rfl⟩ := Cursor.Lexes.of_lex htoken.yields.lexed
      split at hrest
      · exact hrest.not_pure_refused.elim
      · rename_i hkept
        exact .inr ⟨x, c₂, hx, Bool.eq_false_iff.2 hkept⟩
  have hrepeats := hus.many
  clear h hpure hus hrefused hc
  induction hrepeats with
  | nil c => exact ⟨[], .refl c, List.forall_mem_nil _, hend⟩
  | cons head tail ih =>
    obtain ⟨x, hx, hkind⟩ := hround head.comes.yields
    exact (ih hend).cons hx hkind

/-- A declaration is read behind what is skipped, or behind the word `export` there. -/
theorem read_declItem (hc : c.rest.length < n) {i : Item}
    (h : declItem.Comes n c (.accepted i c')) :
    ∃ d c₁ c₂, i = .decl d ∧ c.Skips c₁ ∧ d.ReadBetween n c₂ c' ∧
      ((d.exportSpan = none ∧ c₁ = c₂) ∨ ∃ word xs, d.exportSpan = some word ∧
        word.start = c₁.offset ∧ c₁.Lexes xs c₂ ∧ xs ≠ []) := by
  obtain ⟨mark, c₁, hmark, h⟩ := Comes.bind h
  have hspanned : ∃ kind declared events span,
      (Parser.spanned .shader unmarkedDecl).Comes n c₁
        (.accepted ((kind, declared, events), span) c') ∧
      i = .decl ⟨kind, declared, span, mark.map Prod.snd, events⟩ := by
    dsimp only at h
    split at h
    · obtain ⟨⟨⟨kind, declared, events⟩, span⟩, c₂, hdecl, h⟩ := h.bind
      obtain ⟨rfl, rfl⟩ := h.pure
      exact ⟨kind, declared, events, span, hdecl.insist, rfl⟩
    · obtain ⟨⟨⟨kind, declared, events⟩, span⟩, c₂, hdecl, h⟩ := h.bind
      obtain ⟨rfl, rfl⟩ := h.pure
      exact ⟨kind, declared, events, span, hdecl, rfl⟩
  obtain ⟨kind, declared, events, span, hspanned, rfl⟩ := hspanned
  obtain ⟨u, c₂, hskip, hdecl, rfl⟩ := hspanned.spanned
  -- what stands in front, whether there is the word or not
  obtain ⟨c₀, hskips, hcases⟩ : ∃ c₀, c.Skips c₀ ∧ ((mark.map Prod.snd = none ∧ c₀ = c₂) ∨
      ∃ word xs, mark.map Prod.snd = some word ∧ word.start = c₀.offset ∧ c₀.Lexes xs c₂ ∧
        xs ≠ []) := by
    rcases hmark.optional with ⟨⟨token, span⟩, hspanned, rfl⟩ | ⟨rfl, rfl, -⟩
    · obtain ⟨u, c₀, hskip₀, hword, rfl⟩ := hspanned.spanned
      have hskips := hskip₀.skips hc
      obtain ⟨x, ⟨xs, hxs, -⟩, -⟩ := hword.yields.next_sign
      obtain ⟨ys, hys, -⟩ :=
        hskip.skips ((hxs.length_le.trans hskips.length_rest_le).trans_lt hc)
      exact ⟨c₀, hskips, .inr ⟨_, _, rfl, rfl, hxs.trans hys, by simp⟩⟩
    · exact ⟨c₂, hskip.skips hc, .inl ⟨rfl, rfl⟩⟩
  exact ⟨_, c₀, c₂, rfl, hskips, ⟨rfl, hdecl⟩, hcases⟩

/-- What has been read as a declaration is in the language of declarations. -/
theorem covered_of_readBetween (hc : c.rest.length < n) {d : DeclItem}
    (h : d.ReadBetween n c c') : d.Covered c c' := by
  obtain ⟨hspan, hcomes⟩ := h
  have hname : Text.IsIdentifier d.name.text.toList ∧ isKeyword d.name.text = false := by
    obtain ⟨-, -, c₃, -, -, c₄, c₅, -, hname, -⟩ :=
      (eventClosed_reads []).unmarkedDecl hcomes.yields
    exact hname.isIdentifier
  refine ⟨hspan, hname.1, hname.2, fun t hin ↦ ?_, covers_unmarkedDecl hc hcomes⟩
  obtain ⟨_, _, c₃, -, hmarks, c₄, c₅, hwords, hname, -⟩ :=
    (eventClosed_reads t).unmarkedDecl hcomes.yields
  obtain ⟨c₆, hskip, hpasses⟩ := hname.tokenIf.1.passes_token (t := t)
  exact hpasses.slice? (hskip (hwords (hmarks hin).1).1).1

/-- A declaration stands behind what is skipped, or behind the word `export` there. -/
theorem covered_declItem (hc : c.rest.length < n) {i : Item}
    (h : declItem.Comes n c (.accepted i c')) :
    ∃ d c₁ c₂, i = .decl d ∧ c.Skips c₁ ∧ d.Covered c₂ c' ∧
      ((d.exportSpan = none ∧ c₁ = c₂) ∨ ∃ word xs, d.exportSpan = some word ∧
        word.start = c₁.offset ∧ c₁.Lexes xs c₂ ∧ xs ≠ []) := by
  obtain ⟨d, c₁, c₂, rfl, hskips, hread, hcases⟩ := read_declItem hc h
  have hle : c₂.rest.length ≤ c₁.rest.length := by
    rcases hcases with ⟨-, rfl⟩ | ⟨word, xs, -, -, hxs, -⟩
    · exact le_rfl
    · exact hxs.length_le
  have hc₂ := (hle.trans hskips.length_rest_le).trans_lt hc
  exact ⟨d, c₁, c₂, rfl, hskips, covered_of_readBetween hc₂ hread, hcases⟩

/-- A statement that is kept is in the language of statements. -/
theorem covers_textItem (hc : c.rest.length < n) {i : Item}
    (h : textItem.Comes n c (.accepted i c')) :
    ∃ c₁, c.Skips c₁ ∧ i = .text (Span.between c₁.offset c'.offset) ∧
      c₁.Covers statements [] c' := by
  obtain ⟨⟨⟨⟩, span⟩, c₁, hspanned, h⟩ := Comes.bind h
  obtain ⟨rfl, rfl⟩ := h.pure
  obtain ⟨u, c₂, hskip, htext, rfl⟩ := hspanned.spanned
  have hskips := hskip.skips hc
  have hc₂ := hskips.length_rest_le.trans_lt hc
  refine ⟨c₂, hskips, rfl, ?_⟩
  obtain ⟨p, hp, h⟩ := htext.firstOf
  simp only [List.mem_cons, List.not_mem_nil, or_false] at hp
  rcases hp with rfl | rfl
  · obtain ⟨token, c₃, htoken, h⟩ := h.bind
    obtain ⟨-, rfl⟩ := h.pure
    exact (htoken.yields.covers_symbol (by decide)).mono (fun _ hts ↦ .inl hts) (.refl _)
  · obtain ⟨token, c₃, htoken, h⟩ := h.bind
    obtain ⟨events, c₄, hevents, h⟩ := h.bind
    obtain ⟨-, rfl⟩ := h.pure
    have hword : c₂.Covers (keywordOf ["enable", "requires", "diagnostic", "const_assert"]) []
        c₃ := by
      obtain ⟨p, hp, hsign⟩ := htoken.firstOf
      simp only [List.mem_cons, List.not_mem_nil, or_false] at hp
      rcases hp with rfl | rfl | rfl | rfl
      all_goals exact hsign.yields.covers_keyword (by decide) (by decide)
    have hbody := covers_bodyUntil (by decide) (hword.length_le.trans_lt hc₂) hevents
    exact (hword.trans hbody).mono (fun _ hts ↦ .inr hts) (List.nil_sublist _)

/-- A declaration among the items has been read as one. -/
theorem read_of_item {t : Text} (hin : c.In t) (hn : t.size < n) {d : DeclItem}
    (h : item.Comes n c (.accepted (.decl d) c')) : ∃ c₁, c₁.In t ∧ d.ReadBetween n c₁ c' := by
  have hc := hin.length_lt hn
  obtain ⟨p, hp, h⟩ := h.firstOf
  simp only [List.mem_cons, List.not_mem_nil, or_false] at hp
  rcases hp with rfl | rfl | rfl | rfl | rfl | rfl
  · exact absurd (h.yields.reads_moduleItem (t := t)).2 nofun
  · exact absurd (h.yields.reads_importItem (t := t)).2 nofun
  · exact absurd (h.yields.reads_exportItem (t := t)).2 nofun
  · exact absurd (h.yields.reads_textItem (t := t)).2 nofun
  · obtain ⟨d', c₁, c₂, heq, hskips, hread, hcases⟩ := read_declItem hc h
    obtain rfl := Item.decl.inj heq
    refine ⟨c₂, ?_, hread⟩
    rcases hcases with ⟨-, rfl⟩ | ⟨word, xs, -, -, hxs, -⟩
    · exact hin.skips hskips
    · exact (hin.skips hskips).lexes hxs
  · obtain ⟨token, -, heq⟩ := h.map
    cases heq

/-- What has been read as a declaration is one. -/
theorem covered_of_item {t : Text} (hin : c.In t) (hn : t.size < n) {d : DeclItem}
    (h : item.Comes n c (.accepted (.decl d) c')) : ∃ c₁, c₁.In t ∧ d.Covered c₁ c' := by
  obtain ⟨c₁, hin₁, hread⟩ := read_of_item hin hn h
  exact ⟨c₁, hin₁, covered_of_readBetween (hin₁.length_lt hn) hread⟩

end Comes

theorem Repeats.exists_read {t : Text} {all : List Item}
    (h : (item.withRounds n).Repeats c all c') (hin : c.In t) (hn : t.size < n) {d : DeclItem}
    (hd : .decl d ∈ all) : ∃ c₁ c₂, c₁.In t ∧ c₂.In t ∧ d.ReadBetween n c₁ c₂ := by
  induction h with
  | nil => exact absurd hd List.not_mem_nil
  | cons head tail ih =>
    have hin' := (head.comes.yields.reads_item hin).1.1
    rcases List.mem_cons.1 hd with rfl | hd
    · obtain ⟨c₁, hc₁, hread⟩ := Comes.read_of_item hin hn head.comes
      exact ⟨c₁, _, hc₁, hin', hread⟩
    · exact ih hin' hd

/-- The items of a text are read one after another, and then nothing is left. -/
theorem repeats_of_items {t : Text} {steps : Nat} {all : List Item} {e : Effort}
    (h : items.run steps t = (.accepted all c', e)) :
    (item.withRounds (t.size + 1)).Repeats (.start t) all c' ∧
      (finished .shader).Comes (t.size + 1) c' (.accepted () c') := by
  have hcomes : items.Comes (t.size + 1) (.start t) (.accepted all c') := ⟨steps, _, e, h⟩
  obtain ⟨all', c₁, hall, hrest⟩ := Comes.bind hcomes
  obtain ⟨u, c₂, hend, hpure⟩ := hrest.bind
  obtain rfl := hend.yields.absent
  obtain ⟨rfl, rfl⟩ := hpure.pure
  exact ⟨hall.many, hend⟩

/-- The declarations of a text are read as such. -/
theorem exists_read_of_items {t : Text} {steps : Nat} {all : List Item} {e : Effort}
    (h : items.run steps t = (.accepted all c', e)) {d : DeclItem} (hd : .decl d ∈ all) :
    ∃ c₁ c₂, c₁.In t ∧ c₂.In t ∧ d.ReadBetween (t.size + 1) c₁ c₂ :=
  (repeats_of_items h).1.exists_read (.start t) (Nat.lt_succ_self _) hd

/-- What the items of a text declare is in the language of declarations. -/
theorem exists_covered_of_items {t : Text} {steps : Nat} {all : List Item} {e : Effort}
    (h : items.run steps t = (.accepted all c', e)) {d : DeclItem} (hd : .decl d ∈ all) :
    ∃ c₁ c₂, c₁.In t ∧ c₂.In t ∧ d.Covered c₁ c₂ := by
  obtain ⟨c₁, c₂, hin₁, hin₂, hread⟩ := exists_read_of_items h hd
  exact ⟨c₁, c₂, hin₁, hin₂,
    Comes.covered_of_readBetween (hin₁.length_lt (Nat.lt_succ_self _)) hread⟩

end Parser

end ShaderLink
