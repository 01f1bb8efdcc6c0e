import ShaderLink.Grammar.Parser
import ShaderLink.Proofs.Token.Lexeme

/-!
# What a parser can accept

`p.Yields c a c'` says that the parser can accept the value `a` between the cursors `c` and `c'`,
whatever the limits and the effort spent before. Limits and effort decide whether a parse is given
up, never what it reads, so facts about accepted values need no more than this relation.

There is one inversion lemma for each combinator. With them a parser is opened from the outside in:
a proof about a grammar rule takes an accepted value apart into the values of the rule's parts.
-/

namespace ShaderLink

namespace Parser

variable {α β : Type}

/-- The parser can accept `a` between `c` and `c'`. -/
def Yields (p : Parser α) (c : Cursor) (a : α) (c' : Cursor) : Prop :=
  ∃ limits e e', p limits c e = (.accepted a c', e')

namespace Yields

variable {p q : Parser α} {c c' : Cursor} {a : α} {b : β}

/-- What a whole run accepts is accepted from the start of the text on. -/
theorem of_run {steps : Nat} {t : Text} {e : Effort} (h : p.run steps t = (.accepted a c', e)) :
    p.Yields (Cursor.start t) a c' :=
  ⟨_, _, _, h⟩

/-! ### Sequencing -/

/-- Both parts of a sequence accept something, the second where the first stopped. -/
theorem bind {f : α → Parser β} (h : (p >>= f).Yields c b c') :
    ∃ a c₁, p.Yields c a c₁ ∧ (f a).Yields c₁ b c' := by
  obtain ⟨limits, e, e', h⟩ := h
  simp only [Bind.bind] at h
  split at h
  · rename_i a c₁ e₁ hp
    exact ⟨a, c₁, ⟨limits, e, e₁, hp⟩, ⟨limits, e₁, e', h⟩⟩
  · cases h
  · cases h

/-- Nothing is read for a value that is there already. -/
theorem pure {a' : α} (h : (Pure.pure a' : Parser α).Yields c a c') : a' = a ∧ c = c' := by
  obtain ⟨limits, e, e', h⟩ := h
  obtain ⟨⟨rfl, rfl⟩, rfl⟩ : (a' = a ∧ c = c') ∧ e = e' := by
    simpa [Pure.pure] using h
  exact ⟨rfl, rfl⟩

/-- The value was made of one that was read. -/
theorem map {f : α → β} (h : (f <$> p).Yields c b c') : ∃ a, p.Yields c a c' ∧ f a = b := by
  obtain ⟨a, c₁, hp, hpure⟩ := Yields.bind (f := fun a ↦ Pure.pure (f a)) h
  obtain ⟨rfl, rfl⟩ := hpure.pure
  exact ⟨a, hp, rfl⟩

theorem seqRight {q : Parser β} (h : (p *> q).Yields c b c') :
    ∃ a c₁, p.Yields c a c₁ ∧ q.Yields c₁ b c' :=
  Yields.bind (f := fun _ ↦ q) h

/-- What only refuses accepts nothing. -/
theorem not_refuse (h : (refuse : Parser α).Yields c a c') : False := by
  obtain ⟨limits, e, e', h⟩ := h
  simp [refuse] at h

/-- What gives up accepts nothing. -/
theorem not_abort {label : Label} (h : (abort label : Parser α).Yields c a c') : False := by
  obtain ⟨limits, e, e', h⟩ := h
  simp [abort] at h

theorem offset {n : Nat} (h : Parser.offset.Yields c n c') : c.offset = n ∧ c = c' := by
  obtain ⟨limits, e, e', h⟩ := h
  obtain ⟨⟨rfl, rfl⟩, -⟩ : (c.offset = n ∧ c = c') ∧ e = e' := by simpa [Parser.offset] using h
  exact ⟨rfl, rfl⟩

theorem here {before : Cursor} (h : Parser.here.Yields c before c') : c = before ∧ c = c' := by
  obtain ⟨limits, e, e', h⟩ := h
  obtain ⟨⟨rfl, rfl⟩, -⟩ : (c = before ∧ c = c') ∧ e = e' := by simpa [Parser.here] using h
  exact ⟨rfl, rfl⟩

/-- Going back leads to the cursor that was remembered. -/
theorem goBack {before : Cursor} {u : Unit} (h : (Parser.goBack before).Yields c u c') :
    before = c' := by
  obtain ⟨limits, e, e', h⟩ := h
  obtain ⟨rfl, -⟩ : before = c' ∧ e = e' := by simpa [Parser.goBack] using h
  rfl

/-- Asking for the number of rounds reads nothing. -/
theorem rounds {n : Nat} (h : Parser.rounds.Yields c n c') : c = c' := by
  obtain ⟨limits, e, e', h⟩ := h
  obtain ⟨⟨-, rfl⟩, -⟩ : (limits.rounds = n ∧ c = c') ∧ e = e' := by simpa [Parser.rounds] using h
  rfl

/-! ### Choice -/

/-- One of the alternatives accepts the value. Nothing is said about the other one. -/
theorem orElse (h : (p.orElse q).Yields c a c') : p.Yields c a c' ∨ q.Yields c a c' := by
  obtain ⟨limits, e, e', h⟩ := h
  rw [Parser.orElse] at h
  split at h
  · rename_i e₁ hp
    exact .inr ⟨limits, e₁, e', h⟩
  · exact .inl ⟨limits, e, e', h⟩

/-- One of the parsers accepts the value, not necessarily the first that could. -/
theorem firstOf {ps : List (Parser α)} (h : (Parser.firstOf ps).Yields c a c') :
    ∃ p ∈ ps, p.Yields c a c' := by
  induction ps with
  | nil => exact h.not_refuse.elim
  | cons p ps ih =>
    rcases h.orElse with h | h
    · exact ⟨p, List.mem_cons_self, h⟩
    · obtain ⟨q, hq, h⟩ := ih h
      exact ⟨q, List.mem_cons_of_mem p hq, h⟩

/-- Either the parser accepts something, or nothing is read. -/
theorem optional {r : Option α} (h : (Parser.optional p).Yields c r c') :
    (∃ a, p.Yields c a c' ∧ some a = r) ∨ (none = r ∧ c = c') := by
  rcases h.orElse with h | h
  · exact .inl h.map
  · exact .inr h.pure

/-- Looking ahead reads nothing. -/
theorem peek (h : (Parser.peek p).Yields c a c') : c = c' := by
  obtain ⟨limits, e, e', h⟩ := h
  rw [Parser.peek] at h
  split at h
  · obtain ⟨⟨-, rfl⟩, -⟩ : (_ = a ∧ c = c') ∧ _ = e' := by simpa using h
    rfl
  · rename_i hne
    exact absurd h (hne a c' e')

/-- Making sure that something is absent reads nothing. -/
theorem absent {u : Unit} (h : (Parser.absent p).Yields c u c') : c = c' := by
  obtain ⟨limits, e, e', h⟩ := h
  rw [Parser.absent] at h
  split at h
  · cases h
  · obtain ⟨rfl, -⟩ : c = c' ∧ _ = e' := by simpa using h
    rfl
  · cases h

/-- Being committed only matters when the parser fails. -/
theorem commit {what : String} (h : (Parser.commit p what).Yields c a c') : p.Yields c a c' := by
  obtain ⟨limits, e, e', h⟩ := h
  rw [Parser.commit] at h
  split at h
  · cases h
  · cases h
  · exact ⟨limits, e, e', h⟩

theorem insist (h : (Parser.insist p).Yields c a c') : p.Yields c a c' := by
  obtain ⟨limits, e, e', h⟩ := h
  rw [Parser.insist] at h
  split at h
  · cases h
  · exact ⟨limits, e, e', h⟩

end Yields

/-! ### Repetition -/

/-- The parser can accept the values one after another. -/
inductive Repeats (p : Parser α) : Cursor → List α → Cursor → Prop
  | nil (c : Cursor) : Repeats p c [] c
  | cons {c c₁ c' : Cursor} {a : α} {as : List α} (head : p.Yields c a c₁)
    (tail : Repeats p c₁ as c') : Repeats p c (a :: as) c'

namespace Yields

variable {p : Parser α} {c c' : Cursor} {as : List α}

/-- The values are read one after another, whatever made the reading stop. -/
theorem manyWithin {n : Nat} (h : (Parser.manyWithin p n).Yields c as c') :
    p.Repeats c as c' := by
  induction n generalizing c as with
  | zero =>
    obtain ⟨rfl, rfl⟩ := h.pure
    exact .nil _
  | succ n ih =>
    rw [Parser.manyWithin] at h
    obtain ⟨r, c₁, hr, hrest⟩ := h.bind
    rcases hr.optional with ⟨a, ha, rfl⟩ | ⟨rfl, rfl⟩
    · obtain ⟨rest, c₂, hmore, hpure⟩ := hrest.bind
      obtain ⟨rfl, rfl⟩ := hpure.pure
      exact .cons ha (ih hmore)
    · obtain ⟨rfl, rfl⟩ := hrest.pure
      exact .nil _

theorem many (h : (Parser.many p).Yields c as c') : p.Repeats c as c' := by
  obtain ⟨n, c₁, hn, hmany⟩ := Yields.bind h
  obtain rfl := hn.rounds
  exact hmany.manyWithin

/-- The first value stands alone, and each other one behind a separator. -/
theorem separated₁ {separator : Parser β} (h : (Parser.separated₁ p separator).Yields c as c') :
    ∃ first c₁ rest, p.Yields c first c₁ ∧ (separator *> p).Repeats c₁ rest c' ∧
      first :: rest = as := by
  obtain ⟨first, c₁, hfirst, h⟩ := Yields.bind h
  obtain ⟨rest, c₂, hrest, h⟩ := h.bind
  obtain ⟨rfl, rfl⟩ := h.pure
  exact ⟨first, c₁, rest, hfirst, hrest.many, rfl⟩

/-- There may be no values at all. -/
theorem separated {separator : Parser β} (h : (Parser.separated p separator).Yields c as c') :
    (Parser.separated₁ p separator).Yields c as c' ∨ ([] = as ∧ c = c') := by
  obtain ⟨r, c₁, hr, h⟩ := Yields.bind h
  obtain ⟨rfl, rfl⟩ := h.pure
  rcases hr.optional with ⟨as, has, rfl⟩ | ⟨rfl, rfl⟩
  · exact .inl has
  · exact .inr ⟨rfl, rfl⟩

/-! ### Tokens -/

theorem lexed {l : Lexicon} {t : Token} (h : (Parser.lex l).Yields c t c') :
    l.lex c = .token t c' := by
  obtain ⟨limits, e, e', h⟩ := h
  rw [Parser.lex] at h
  split at h
  · cases h
  · split at h
    · cases h
    · cases h
    · rename_i t' next hlex
      obtain ⟨⟨rfl, rfl⟩, -⟩ : (t' = t ∧ next = c') ∧ _ = e' := by simpa using h
      exact hlex

/-- The cursor passes a token that is read. -/
theorem lex {l : Lexicon} {t : Token} (h : (Parser.lex l).Yields c t c') : c.Passes t c' :=
  Lexicon.passes_of_lex h.lexed

/-- The token is one that the condition accepts. -/
theorem tokenIf {l : Lexicon} {accepts : Token → Bool} {t : Token}
    (h : (Parser.tokenIf l accepts).Yields c t c') :
    (Parser.token l).Yields c t c' ∧ accepts t = true := by
  obtain ⟨t', c₁, ht, h⟩ := Yields.bind h
  split at h
  · rename_i hacc
    obtain ⟨rfl, rfl⟩ := h.pure
    exact ⟨ht, hacc⟩
  · exact h.not_refuse.elim

/-- Only ignored tokens stand between the cursors. -/
theorem skipIgnored {l : Lexicon} {u : Unit} (h : (Parser.skipIgnored l).Yields c u c') :
    ∃ us, Parser.Repeats (do
      let t ← Parser.lex l
      if l.ignores t.kind then return () else refuse) c us c' := by
  obtain ⟨us, c₁, hus, h⟩ := Yields.bind h
  obtain ⟨rfl, rfl⟩ := h.pure
  exact ⟨us, hus.many⟩

/-- The span goes from the first token that is not ignored to where the parser stopped. -/
theorem spanned {l : Lexicon} {p : Parser α} {a : α} {span : Span}
    (h : (Parser.spanned l p).Yields c (a, span) c') :
    ∃ u c₁, (Parser.skipIgnored l).Yields c u c₁ ∧ p.Yields c₁ a c' ∧
      Span.between c₁.offset c'.offset = span := by
  obtain ⟨u, c₁, hskip, h⟩ := Yields.bind h
  obtain ⟨start, c₂, hstart, h⟩ := h.bind
  obtain ⟨rfl, rfl⟩ := hstart.offset
  obtain ⟨a, c₃, ha, h⟩ := h.bind
  obtain ⟨stop, c₄, hstop, h⟩ := h.bind
  obtain ⟨rfl, rfl⟩ := hstop.offset
  obtain ⟨heq, rfl⟩ := h.pure
  obtain ⟨rfl, rfl⟩ := Prod.mk.inj heq
  exact ⟨u, _, hskip, ha, rfl⟩

end Yields

end Parser

end ShaderLink
