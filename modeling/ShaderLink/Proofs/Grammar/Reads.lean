import ShaderLink.Proofs.Grammar.Yields
import ShaderLink.Proofs.Text.Cut

/-!
# What a parser leaves behind

A cursor is *in* a text if it has read a beginning of the text and has the rest before it. Then
`Reads t c spans c'` says that reading from `c` on leads to `c'`, again in the text, and that the
spans stand in order between the two. Stretches of reading compose (`Reads.trans`), spans that
nobody asks about can be dropped (`Reads.sublist`), and a stretch with a token in it can be covered
by one span (`Reads.cover`). This is all that proofs about grammar rules need to know of texts.
-/

namespace ShaderLink

/-- The cursor has read a beginning of the text, and the rest of the text is left. -/
def Cursor.In (t : Text) (c : Cursor) : Prop :=
  ∃ front, t = front ++ c.rest ∧ front.size = c.offset

namespace Cursor

variable {t : Text} {c c' : Cursor} {token : Token}

theorem In.start (t : Text) : (Cursor.start t).In t :=
  ⟨[], rfl, rfl⟩

/-- A cursor stands between two characters. -/
theorem In.isBoundary (h : c.In t) : t.IsBoundary c.offset := by
  obtain ⟨front, ht, hsize⟩ := h
  exact ⟨front, c.rest, ht, hsize⟩

/-- It stays in the text when it passes a token. -/
theorem In.passes (h : c.In t) (hp : c.Passes token c') : c'.In t := by
  obtain ⟨front, rfl, hsize⟩ := h
  obtain ⟨lexeme, hrest, -, hoffset, -⟩ := hp
  exact ⟨front ++ lexeme, by rw [hrest, List.append_assoc],
    by rw [Text.size_append, hsize, hoffset]⟩

/-- A token starts where it is met, -/
theorem Passes.start_span (h : c.Passes token c') : token.span.start = c.offset := by
  obtain ⟨lexeme, -, -, -, hspan, -⟩ := h
  rw [hspan]

/-- and stops where the cursor goes on. -/
theorem Passes.stop_span (h : c.Passes token c') : token.span.stop = c'.offset := by
  obtain ⟨lexeme, -, -, hoffset, hspan, -⟩ := h
  rw [hspan, hoffset, Span.stop]

/-- It is not empty. -/
theorem Passes.offset_lt {token : Token} (h : c.Passes token c') : c.offset < c'.offset := by
  obtain ⟨lexeme, -, hne, hoffset, -⟩ := h
  have hpos : 0 < lexeme.size := Nat.pos_of_ne_zero fun hzero ↦ hne (Text.size_eq_zero_iff.1 hzero)
  omega

/-- It is a part of the text. -/
theorem Passes.fits (h : c.Passes token c') (hin : c.In t) : t.Fits token.span where
  start := by rw [h.start_span]; exact hin.isBoundary
  stop := by rw [h.stop_span]; exact (hin.passes h).isBoundary
  size_pos := by
    obtain ⟨lexeme, -, hne, -, hspan, -⟩ := h
    rw [hspan]
    exact Nat.pos_of_ne_zero fun hzero ↦ hne (Text.size_eq_zero_iff.1 hzero)

/-- What a token spans in the text is the token. -/
theorem Passes.slice? (h : c.Passes token c') (hin : c.In t) :
    t.slice? token.span = some token.text.toList := by
  obtain ⟨front, rfl, hsize⟩ := hin
  obtain ⟨lexeme, hrest, -, -, hspan, htext⟩ := h
  rw [hspan, hrest, ← hsize, ← List.append_assoc, Text.slice?_append, htext, String.toList_ofList]

end Cursor

/-- Reading from `c` on in the text leads to `c'` and past the spans, one behind the other. -/
def Reads (t : Text) (c : Cursor) (spans : List Span) (c' : Cursor) : Prop :=
  c.In t → c'.In t ∧ t.Ascending c.offset spans c'.offset

namespace Reads

variable {t : Text} {c c₁ c' : Cursor} {xs ys : List Span}

theorem refl (t : Text) (c : Cursor) : Reads t c [] c :=
  fun hin ↦ ⟨hin, .nil le_rfl⟩

/-- What is read in turn is in order. -/
theorem trans (h : Reads t c xs c₁) (h' : Reads t c₁ ys c') : Reads t c (xs ++ ys) c' := by
  intro hin
  obtain ⟨hin₁, hxs⟩ := h hin
  obtain ⟨hin', hys⟩ := h' hin₁
  exact ⟨hin', hxs.append hys⟩

/-- Spans may be left out. -/
theorem sublist (h : Reads t c ys c') (hsub : xs.Sublist ys) : Reads t c xs c' := by
  intro hin
  obtain ⟨hin', hys⟩ := h hin
  exact ⟨hin', hys.sublist hsub⟩

/-- The spans do not matter. -/
theorem skip (h : Reads t c xs c') : Reads t c [] c' :=
  h.sublist (List.nil_sublist xs)

/-- What was read before something does not matter to it. -/
theorem after (h : Reads t c₁ ys c') (hskip : Reads t c xs c₁) : Reads t c ys c' :=
  hskip.skip.trans h

/-- What was read behind something does not matter to it. -/
theorem before (h : Reads t c xs c₁) (hskip : Reads t c₁ ys c') : Reads t c xs c' := by
  have hboth := h.trans hskip.skip
  rwa [List.append_nil] at hboth

/-- A stretch that is not empty is a span by itself. -/
theorem cover (h : Reads t c xs c') (hne : xs ≠ []) :
    Reads t c [Span.between c.offset c'.offset] c' := by
  intro hin
  obtain ⟨hin', hxs⟩ := h hin
  have hfits := hxs.cover hne hin.isBoundary hin'.isBoundary
  refine ⟨hin', ?_⟩
  have hone := Text.Ascending.singleton hfits
  rwa [Span.stop_between hxs.le] at hone

/-- A token that is passed is read. -/
theorem passes {token : Token} (h : c.Passes token c') : Reads t c [token.span] c' := by
  intro hin
  refine ⟨hin.passes h, ?_⟩
  have hone := Text.Ascending.singleton (h.fits hin)
  rwa [h.start_span, h.stop_span] at hone

end Reads

namespace Parser

variable {α β : Type} {t : Text} {c c' : Cursor}

/-- Whatever one value leaves behind, the values that are accepted one after another leave behind
one after another. -/
theorem Repeats.reads {p : Parser α} {as : List α} (h : p.Repeats c as c') (spans : α → List Span)
    (hp : ∀ c a c', p.Yields c a c' → Reads t c (spans a) c') :
    Reads t c (as.flatMap spans) c' := by
  induction h with
  | nil c => exact .refl t c
  | cons head tail ih =>
    rw [List.flatMap_cons]
    exact (hp _ _ _ head).trans ih

/-- A repetition of what leaves no spans behind leaves none. -/
theorem Repeats.skips {p : Parser α} {as : List α} (h : p.Repeats c as c')
    (hp : ∀ c a c', p.Yields c a c' → Reads t c [] c') : Reads t c [] c' := by
  have hreads := h.reads (fun _ ↦ []) hp
  exact hreads.skip

namespace Yields

variable {l : Lexicon} {token : Token}

/-- Ignored tokens are read in front of the token itself. -/
theorem passes_tokenWithin {n : Nat} (h : (tokenWithin l n).Yields c token c') :
    ∃ c₁, Reads t c [] c₁ ∧ c₁.Passes token c' := by
  induction n generalizing c with
  | zero => exact h.not_refuse.elim
  | succ n ih =>
    obtain ⟨next, c₁, hlex, hrest⟩ := Yields.bind h
    split at hrest
    · obtain ⟨c₂, hskip, hpasses⟩ := ih hrest
      exact ⟨c₂, hskip.after (.passes hlex.lex), hpasses⟩
    · obtain ⟨rfl, rfl⟩ := hrest.pure
      exact ⟨c, .refl t c, hlex.lex⟩

/-- Ignored text is read first, and then the token is passed. -/
theorem passes_token (h : (Parser.token l).Yields c token c') :
    ∃ c₁, Reads t c [] c₁ ∧ c₁.Passes token c' := by
  obtain ⟨n, c₁, hn, hwithin⟩ := Yields.bind h
  obtain rfl := hn.rounds
  exact hwithin.passes_tokenWithin

theorem reads_token (h : (Parser.token l).Yields c token c') : Reads t c [token.span] c' := by
  obtain ⟨c₁, hskip, hpasses⟩ := h.passes_token (t := t)
  exact (Reads.passes hpasses).after hskip

theorem reads_tokenIf {accepts : Token → Bool} (h : (Parser.tokenIf l accepts).Yields c token c') :
    Reads t c [token.span] c' :=
  h.tokenIf.1.reads_token

theorem reads_skipIgnored {u : Unit} (h : (Parser.skipIgnored l).Yields c u c') :
    Reads t c [] c' := by
  obtain ⟨us, hus⟩ := h.skipIgnored
  refine hus.skips fun c u c' hu ↦ ?_
  obtain ⟨token, c₁, hlex, hrest⟩ := hu.bind
  split at hrest
  · obtain ⟨-, rfl⟩ := hrest.pure
    exact (Reads.passes hlex.lex).skip
  · exact hrest.not_refuse.elim

/-- An optional value leaves behind what the value does, if there is one. -/
theorem reads_optional {p : Parser α} {r : Option α} (h : (Parser.optional p).Yields c r c')
    (spans : α → List Span)
    (hp : ∀ c a c', p.Yields c a c' → Reads t c (spans a) c') :
    Reads t c (r.toList.flatMap spans) c' := by
  rcases h.optional with ⟨a, ha, rfl⟩ | ⟨rfl, rfl⟩
  · rw [Option.toList_some, List.flatMap_singleton]
    exact hp c a c' ha
  · exact .refl t c

/-- An optional value of a parser that leaves nothing behind leaves nothing behind. -/
theorem skips_optional {p : Parser α} {r : Option α} (h : (Parser.optional p).Yields c r c')
    (hp : ∀ c a c', p.Yields c a c' → Reads t c [] c') : Reads t c [] c' := by
  rcases h.optional with ⟨a, ha, rfl⟩ | ⟨rfl, rfl⟩
  · exact hp c a c' ha
  · exact .refl t c

/-- A list of parts of which nothing is noted is read without noting anything. -/
theorem skips_separated₁ {p : Parser α} {separator : Parser β} {as : List α}
    (h : (Parser.separated₁ p separator).Yields c as c')
    (hp : ∀ c a c', p.Yields c a c' → Reads t c [] c')
    (hs : ∀ c b c', separator.Yields c b c' → Reads t c [] c') : Reads t c [] c' := by
  obtain ⟨first, c₁, rest, hfirst, hrest, rfl⟩ := h.separated₁
  refine (hp _ _ _ hfirst).trans (hrest.skips fun c a c' ha ↦ ?_)
  obtain ⟨b, c₂, hb, ha⟩ := ha.seqRight
  exact (hs _ _ _ hb).trans (hp _ _ _ ha)

theorem skips_separated {p : Parser α} {separator : Parser β} {as : List α}
    (h : (Parser.separated p separator).Yields c as c')
    (hp : ∀ c a c', p.Yields c a c' → Reads t c [] c')
    (hs : ∀ c b c', separator.Yields c b c' → Reads t c [] c') : Reads t c [] c' := by
  rcases h.separated with h | ⟨-, rfl⟩
  · exact h.skips_separated₁ hp hs
  · exact .refl t c

end Yields

end Parser

end ShaderLink
