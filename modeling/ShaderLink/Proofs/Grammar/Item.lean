import ShaderLink.Module.Item
import ShaderLink.Proofs.Grammar.Body
import ShaderLink.Proofs.Grammar.Import

/-!
# Items stand in the order of the text

The items of a module follow one another in its text, and inside a declaration so do its name and
the elements of its events: the events of its attributes stand in front of the name, all others
behind it (`DeclItem.InOrder`).
-/

namespace ShaderLink

/-- The name of a declaration and the elements inside it stand one behind the other in its span. -/
def DeclItem.InOrder (t : Text) (d : DeclItem) : Prop :=
  ∃ front back, childSpans d.events = front ++ back ∧
    t.Ascending d.span.start (front ++ d.name.span :: back) d.span.stop

namespace Item

/-- The stretches of text that an item takes at module level. A mark in front of a declaration
takes everything up to it. -/
def outerSpans : Item → List Span
  | module _ span => [span]
  | importing _ _ span => [span]
  | exporting _ span => [span]
  | decl d => (d.exportSpan.toList.map fun word ↦ Span.between word.start d.span.start) ++ [d.span]
  | text span => [span]
  | stray _ => []

end Item

namespace Parser

/-! ### What the events of a declaration carry -/

/-- A declaration is a name between words and events. -/
def Declares (R : Cursor → List Event → Cursor → Prop) (c : Cursor) (declared : Token)
    (events : List Event) (c' : Cursor) : Prop :=
  ∃ c₁ c₂, R c [] c₁ ∧ name.Yields c₁ declared c₂ ∧ R c₂ events c'

namespace EventClosed

variable {R : Cursor → List Event → Cursor → Prop} {c c' : Cursor} {events : List Event}
  {kind : DeclKind} {declared : Token}

/-- Types of members keep a relation that tokens and events keep. -/
theorem memberType (hR : EventClosed R) {n depth : Nat}
    (h : Run.MemberType n depth c events c') : R c events c' := by
  induction h with
  | nil c => exact hR.refl c
  | opening ht _ _ ih => exact hR.after (hR.read ht) ih
  | closing ht _ _ ih => exact hR.after (hR.read ht) ih
  | inner ht _ _ _ _ ih => exact hR.after (hR.read ht) ih
  | group ht _ hinside _ ih =>
    exact hR.after (hR.read ht) (hR.trans (hR.body hinside (List.forall_mem_nil _)) ih)
  | reference ht _ hpath _ ih => exact hR.trans (hR.reference ht hpath.yields .type) ih
  | other ht _ _ _ ih => exact hR.after (hR.read ht) ih

/-- So do members, -/
theorem members (hR : EventClosed R) {n : Nat} (h : Run.Members n c events c') :
    R c events c' := by
  induction h with
  | close hbrace => exact hR.sign hbrace
  | member _ hmarks hx hcolon htype hend _ ih =>
    refine hR.trans (hR.attributes hmarks) (hR.trans (hR.member hx) ?_)
    refine hR.after (hR.sign hcolon) (hR.trans (hR.memberType htype) ?_)
    cases hend with
    | comma ht _ => exact hR.after (hR.read ht) ih
    | brace => exact ih

/-- and declarations, which also name what they declare. -/
theorem declaration (hR : EventClosed R) {n : Nat}
    (h : Run.Declaration n kind declared c events c') : Declares R c declared events c' := by
  have hbody {closer : String} {mode : BodyMode} {c c' : Cursor} {events : List Event}
      (h : Run.Body n closer mode "" [] c events c') : R c events c' :=
    hR.body h (List.forall_mem_nil _)
  cases h with
  | function hword hname hparen hparams hresult h =>
    have hinside := hR.trans (hbody hparams) (hR.trans (hbody hresult) (hbody h))
    exact ⟨_, _, hR.sign hword, hname, hR.after (hR.sign hparen) hinside⟩
  | struct hword hname hbrace h =>
    exact ⟨_, _, hR.sign hword, hname, hR.after (hR.sign hbrace) (hR.members h)⟩
  | value _ hword hname h => exact ⟨_, _, hR.sign hword, hname, hbody h⟩
  | template _ hword hbracket hinside hname h =>
    have hskip := hR.skip (hR.after (hR.sign hbracket) (hbody hinside))
    exact ⟨_, _, hR.after (hR.sign hword) hskip, hname, hbody h⟩
  | typeAlias hword hname hequals h =>
    exact ⟨_, _, hR.sign hword, hname, hR.after (hR.sign hequals) (hbody h)⟩

/-- The events of the attributes stand in front of the name, all others behind it. -/
theorem unmarkedDecl (hR : EventClosed R)
    (h : Parser.unmarkedDecl.Yields c (kind, declared, events) c') :
    ∃ marks rest c₁, events = marks ++ rest ∧ R c marks c₁ ∧ Declares R c₁ declared rest c' := by
  obtain ⟨n, h⟩ := h.exists_comes
  obtain ⟨hmarks, h⟩ := h.run_unmarkedDecl
  exact ⟨_, _, _, rfl, hR.attributes hmarks, hR.declaration h⟩

end EventClosed

namespace Yields

variable {t : Text} {c c' : Cursor}

theorem reads_bodyUntil {closer : String} {mode : BodyMode} {events : List Event}
    (h : (bodyUntil closer mode).Yields c events c') : Reads t c (childSpans events) c' :=
  (eventClosed_reads t).bodyUntil h

/-- A construct that begins with a token takes its whole span. -/
theorem reads_spanned {α : Type} {l : Lexicon} {p : Parser α} {a : α} {span : Span}
    (h : (Parser.spanned l p).Yields c (a, span) c')
    (hp : ∀ c₁, p.Yields c₁ a c' → ∃ token : Token, Reads t c₁ [token.span] c') :
    Reads t c [span] c' := by
  obtain ⟨u, c₁, hskip, ha, rfl⟩ := h.spanned
  obtain ⟨token, hread⟩ := hp c₁ ha
  exact (hread.cover (by simp)).after hskip.reads_skipIgnored

theorem reads_oneSign (texts : List String) {token : Token}
    (h : (Parser.firstOf (texts.map sign)).Yields c token c') : Reads t c [token.span] c' := by
  obtain ⟨p, hp, h⟩ := h.firstOf
  obtain ⟨text, -, rfl⟩ := List.mem_map.1 hp
  exact h.reads_sign

/-! ### Statements -/

/-- A statement notes its own span and declares nothing. -/
theorem reads_moduleItem {item : Item} (h : moduleItem.Yields c item c') :
    Reads t c item.outerSpans c' ∧ item.decl? = none := by
  obtain ⟨⟨path, span⟩, c₁, hspanned, h⟩ := Yields.bind h
  obtain ⟨rfl, rfl⟩ := h.pure
  refine ⟨hspanned.reads_spanned fun c₂ h ↦ ?_, rfl⟩
  obtain ⟨token, c₃, htoken, h⟩ := h.bind
  obtain ⟨path', c₄, hpath, h⟩ := h.bind
  obtain ⟨u, c₅, hend, h⟩ := h.bind
  obtain ⟨-, rfl⟩ := h.pure
  have hfirst : Reads t c₂ [token.span] c₃ := reads_oneSign ["module", "#module"] htoken
  exact ⟨token, (hfirst.before hpath.commit.skips_modulePath).before hend.commit.skips_lineEnd⟩

theorem reads_importItem {item : Item} (h : importItem.Yields c item c') :
    Reads t c item.outerSpans c' ∧ item.decl? = none := by
  obtain ⟨⟨⟨tree, dialect⟩, span⟩, c₁, hspanned, h⟩ := Yields.bind h
  obtain ⟨rfl, rfl⟩ := h.pure
  refine ⟨hspanned.reads_spanned fun c₂ h ↦ ?_, rfl⟩
  obtain ⟨p, hp, h⟩ := h.firstOf
  simp only [List.mem_cons, List.not_mem_nil, or_false] at hp
  rcases hp with rfl | rfl
  · obtain ⟨token, c₃, htoken, h⟩ := h.bind
    obtain ⟨tree', c₄, htree, h⟩ := h.bind
    obtain ⟨u, c₅, hend, h⟩ := h.bind
    obtain ⟨-, rfl⟩ := h.pure
    exact ⟨token, (htoken.reads_sign.before htree.commit.skips_importFrom).before
      hend.commit.skips_lineEnd⟩
  · obtain ⟨token, c₃, htoken, h⟩ := h.bind
    obtain ⟨tree', c₄, htree, h⟩ := h.bind
    obtain ⟨u, c₅, hend, h⟩ := h.bind
    obtain ⟨-, rfl⟩ := h.pure
    exact ⟨token, (htoken.reads_sign.before htree.commit.skips_importTree).before
      hend.commit.skips_lineEnd⟩

theorem reads_exportItem {item : Item} (h : exportItem.Yields c item c') :
    Reads t c item.outerSpans c' ∧ item.decl? = none := by
  obtain ⟨⟨params, span⟩, c₁, hspanned, h⟩ := Yields.bind h
  obtain ⟨rfl, rfl⟩ := h.pure
  refine ⟨hspanned.reads_spanned fun c₂ h ↦ ?_, rfl⟩
  obtain ⟨token, c₃, htoken, h⟩ := h.bind
  obtain ⟨params', c₄, hparams, h⟩ := h.bind
  obtain ⟨u, c₅, hend, h⟩ := h.bind
  obtain ⟨-, rfl⟩ := h.pure
  exact ⟨token, (htoken.reads_sign.before hparams.skips_exportParams).before
    (hend.skips_optional fun _ _ _ h ↦ h.skips_lineEnd)⟩

theorem reads_textItem {item : Item} (h : textItem.Yields c item c') :
    Reads t c item.outerSpans c' ∧ item.decl? = none := by
  obtain ⟨⟨⟨⟩, span⟩, c₁, hspanned, h⟩ := Yields.bind h
  obtain ⟨rfl, rfl⟩ := h.pure
  refine ⟨hspanned.reads_spanned fun c₂ h ↦ ?_, rfl⟩
  obtain ⟨p, hp, h⟩ := h.firstOf
  simp only [List.mem_cons, List.not_mem_nil, or_false] at hp
  rcases hp with rfl | rfl
  · obtain ⟨token, c₃, htoken, h⟩ := h.bind
    obtain ⟨-, rfl⟩ := h.pure
    exact ⟨token, htoken.reads_sign⟩
  · obtain ⟨token, c₃, htoken, h⟩ := h.bind
    obtain ⟨events, c₄, hevents, h⟩ := h.bind
    obtain ⟨-, rfl⟩ := h.pure
    have hfirst : Reads t c₂ [token.span] c₃ :=
      reads_oneSign ["enable", "requires", "diagnostic", "const_assert"] htoken
    exact ⟨token, hfirst.before hevents.reads_bodyUntil⟩

/-! ### Declarations -/

/-- The elements of the attributes stand in front of the name, all others behind it. -/
theorem reads_unmarkedDecl {kind : DeclKind} {declared : Token} {events : List Event}
    (h : unmarkedDecl.Yields c (kind, declared, events) c') :
    ∃ front back, childSpans events = front ++ back ∧
      Reads t c (front ++ declared.span :: back) c' := by
  obtain ⟨marks, rest, c₁, rfl, hmarks, c₂, c₃, hword, hname, hrest⟩ :=
    (eventClosed_reads t).unmarkedDecl h
  have hdecl : Reads t c₁ (declared.span :: childSpans rest) c' :=
    (hname.reads_name.trans hrest).after hword
  exact ⟨childSpans marks, childSpans rest, childSpans_append _ _, hmarks.trans hdecl⟩

/-- A declaration notes its span, and its name and references lie inside, in order. -/
theorem reads_spannedDecl {kind : DeclKind} {declared : Token} {events : List Event} {span : Span}
    {l : Lexicon} (h : (Parser.spanned l unmarkedDecl).Yields c ((kind, declared, events), span) c')
    (hin : c.In t) :
    (c'.In t ∧ t.Ascending c.offset [span] c'.offset) ∧
      ∃ front back, childSpans events = front ++ back ∧
        t.Ascending span.start (front ++ declared.span :: back) span.stop := by
  obtain ⟨u, c₁, hskip, hdecl, rfl⟩ := h.spanned
  obtain ⟨front, back, hchildren, hread⟩ := hdecl.reads_unmarkedDecl (t := t)
  refine ⟨((hread.cover (by simp)).after hskip.reads_skipIgnored) hin,
    front, back, hchildren, ?_⟩
  obtain ⟨hin₁, -⟩ := hskip.reads_skipIgnored hin
  obtain ⟨-, hascending⟩ := hread hin₁
  rwa [Span.stop_between hascending.le]

/-- A declaration behind the word `export` or without it. -/
theorem exists_of_declItem {item : Item} (h : declItem.Yields c item c') :
    ∃ mark kind declared events span c₁,
      (Parser.optional (Parser.spanned .shader (sign "export"))).Yields c mark c₁ ∧
      (Parser.spanned .shader unmarkedDecl).Yields c₁ ((kind, declared, events), span) c' ∧
      item = .decl ⟨kind, declared, span, mark.map Prod.snd, events⟩ := by
  obtain ⟨mark, c₁, hmark, h⟩ := Yields.bind h
  dsimp only at h
  split at h
  · obtain ⟨⟨⟨kind, declared, events⟩, span⟩, c₂, hdecl, h⟩ := h.bind
    obtain ⟨rfl, rfl⟩ := h.pure
    exact ⟨mark, kind, declared, events, span, c₁, hmark, hdecl.insist, rfl⟩
  · obtain ⟨⟨⟨kind, declared, events⟩, span⟩, c₂, hdecl, h⟩ := h.bind
    obtain ⟨rfl, rfl⟩ := h.pure
    exact ⟨mark, kind, declared, events, span, c₁, hmark, hdecl, rfl⟩

theorem reads_exportWord {mark : Option (Token × Span)} {l : Lexicon} {text : String}
    (h : (Parser.optional (Parser.spanned l (sign text))).Yields c mark c') :
    Reads t c (mark.map Prod.snd).toList c' := by
  have hread := h.reads_optional (t := t) (fun r ↦ [r.2])
    fun _ _ _ h ↦ h.reads_spanned fun _ h ↦ ⟨_, h.reads_sign⟩
  cases mark <;> simpa using hread

/-- So does a declaration with its mark, which stands in front of it. -/
theorem reads_declItem {item : Item} (h : declItem.Yields c item c') (hin : c.In t) :
    ∃ d, item = .decl d ∧ (c'.In t ∧ t.Ascending c.offset item.outerSpans c'.offset) ∧
      d.InOrder t := by
  obtain ⟨mark, kind, declared, events, span, c₁, hmark, hspanned, rfl⟩ := exists_of_declItem h
  obtain ⟨hin₁, hmarked⟩ := hmark.reads_exportWord hin
  obtain ⟨⟨hin', hdecl⟩, hinside⟩ := hspanned.reads_spannedDecl hin₁
  refine ⟨_, rfl, ⟨hin', ?_⟩, hinside⟩
  cases mark with
  | none => exact hmarked.append hdecl
  | some mark => exact hmarked.extend hdecl

/-- An item takes its stretches of text, and what it declares is in order. -/
theorem reads_item {item : Item} (h : Parser.item.Yields c item c') (hin : c.In t) :
    (c'.In t ∧ t.Ascending c.offset item.outerSpans c'.offset) ∧
      ∀ d, item.decl? = some d → d.InOrder t := by
  have hplain (hreads : Reads t c item.outerSpans c' ∧ item.decl? = none) :
      (c'.In t ∧ t.Ascending c.offset item.outerSpans c'.offset) ∧
        ∀ d, item.decl? = some d → d.InOrder t :=
    ⟨hreads.1 hin, fun d hd ↦ absurd (hreads.2 ▸ hd) nofun⟩
  obtain ⟨p, hp, h⟩ := h.firstOf
  simp only [List.mem_cons, List.not_mem_nil, or_false] at hp
  rcases hp with rfl | rfl | rfl | rfl | rfl | rfl
  · exact hplain h.reads_moduleItem
  · exact hplain h.reads_importItem
  · exact hplain h.reads_exportItem
  · exact hplain h.reads_textItem
  · obtain ⟨d, rfl, hreads, hd⟩ := h.reads_declItem hin
    refine ⟨hreads, fun d' hd' ↦ ?_⟩
    obtain rfl : d = d' := Option.some.inj hd'
    exact hd
  · obtain ⟨token, htoken, rfl⟩ := h.map
    exact hplain ⟨htoken.reads_token.skip, rfl⟩

/-- What an item declares is read as a declaration without marks, behind what leaves nothing. -/
theorem exists_unmarkedDecl {item : Item} (h : Parser.item.Yields c item c') {d : DeclItem}
    (hd : item.decl? = some d) :
    ∃ c₁, Reads t c [] c₁ ∧ unmarkedDecl.Yields c₁ (d.kind, d.name, d.events) c' := by
  obtain ⟨p, hp, h⟩ := h.firstOf
  simp only [List.mem_cons, List.not_mem_nil, or_false] at hp
  rcases hp with rfl | rfl | rfl | rfl | rfl | rfl
  · rw [(h.reads_moduleItem (t := t)).2] at hd
    cases hd
  · rw [(h.reads_importItem (t := t)).2] at hd
    cases hd
  · rw [(h.reads_exportItem (t := t)).2] at hd
    cases hd
  · rw [(h.reads_textItem (t := t)).2] at hd
    cases hd
  · obtain ⟨mark, kind, declared, events, span, c₁, hmark, hspanned, rfl⟩ := exists_of_declItem h
    obtain rfl := Option.some.inj hd
    obtain ⟨u, c₂, hskip, hdecl, -⟩ := hspanned.spanned
    exact ⟨c₂, hmark.reads_exportWord.skip.trans hskip.reads_skipIgnored, hdecl⟩
  · obtain ⟨token, -, rfl⟩ := h.map
    cases hd

end Yields

/-- Each declaration among the items was read somewhere in the text. -/
theorem Repeats.exists_unmarkedDecl {t : Text} {c c' : Cursor} {items : List Item}
    (h : item.Repeats c items c') (hin : c.In t) :
    ∀ d ∈ items.filterMap Item.decl?, ∃ c₁ c₂, c₁.In t ∧
      unmarkedDecl.Yields c₁ (d.kind, d.name, d.events) c₂ := by
  induction h with
  | nil c => exact List.forall_mem_nil _
  | cons head tail ih =>
    intro d hd
    obtain ⟨item, hitem, hdeclares⟩ := List.mem_filterMap.1 hd
    rcases List.mem_cons.1 hitem with rfl | hitem
    · obtain ⟨c₁, hreads, hdecl⟩ := head.exists_unmarkedDecl (t := t) hdeclares
      exact ⟨c₁, _, (hreads hin).1, hdecl⟩
    · exact ih (head.reads_item hin).1.1 d (List.mem_filterMap.2 ⟨item, hitem, hdeclares⟩)

/-- What the items of a text declare is read as declarations without marks. -/
theorem exists_unmarkedDecl_of_items {t : Text} {steps : Nat} {all : List Item} {c' : Cursor}
    {e : Effort} (h : items.run steps t = (.accepted all c', e)) :
    ∀ d ∈ all.filterMap Item.decl?, ∃ c₁ c₂, c₁.In t ∧
      unmarkedDecl.Yields c₁ (d.kind, d.name, d.events) c₂ := by
  obtain ⟨all', c₁, hall, h⟩ := Yields.bind (Yields.of_run h)
  obtain ⟨u, c₂, -, h⟩ := h.bind
  obtain ⟨rfl, -⟩ := h.pure
  exact hall.many.exists_unmarkedDecl (Cursor.In.start t)

/-- The items that are read one after another stand one behind the other. -/
theorem Repeats.items {t : Text} {c c' : Cursor} {items : List Item}
    (h : item.Repeats c items c') (hin : c.In t) :
    (c'.In t ∧ t.Ascending c.offset (items.flatMap Item.outerSpans) c'.offset) ∧
      ∀ d ∈ items.filterMap Item.decl?, d.InOrder t := by
  induction h with
  | nil c => exact ⟨Reads.refl t c hin, by simp⟩
  | cons head tail ih =>
    obtain ⟨⟨hin₁, hfirst⟩, hdecl⟩ := head.reads_item hin
    obtain ⟨⟨hin', hrest⟩, hdecls⟩ := ih hin₁
    refine ⟨⟨hin', by rw [List.flatMap_cons]; exact hfirst.append hrest⟩, fun d hd ↦ ?_⟩
    obtain ⟨item, hitem, hdeclares⟩ := List.mem_filterMap.1 hd
    rcases List.mem_cons.1 hitem with rfl | hitem
    · exact hdecl d hdeclares
    · exact hdecls d (List.mem_filterMap.2 ⟨item, hitem, hdeclares⟩)

/-- The items of a text stand one behind the other in it, and so does all that they declare. -/
theorem items_inOrder {t : Text} {steps : Nat} {all : List Item} {c' : Cursor} {e : Effort}
    (h : items.run steps t = (.accepted all c', e)) :
    t.Ascending 0 (all.flatMap Item.outerSpans) t.size ∧
      ∀ d ∈ all.filterMap Item.decl?, d.InOrder t := by
  obtain ⟨all', c₁, hall, h⟩ := Yields.bind (Yields.of_run h)
  obtain ⟨u, c₂, hend, h⟩ := h.bind
  obtain rfl := hend.absent
  obtain ⟨rfl, rfl⟩ := h.pure
  obtain ⟨⟨hin, hascending⟩, hdecls⟩ := hall.many.items (Cursor.In.start t)
  exact ⟨hascending.weaken le_rfl hin.isBoundary.le_size, hdecls⟩

end Parser

end ShaderLink
