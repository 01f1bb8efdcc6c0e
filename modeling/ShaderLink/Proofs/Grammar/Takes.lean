import ShaderLink.Proofs.Grammar.Directive

/-!
# Parsers of directives on spelled-out texts

`p.Takes n xs P ys` is the specification of a parser of directives: from any text that spells out
the lexemes `xs` it reads a value that satisfies `P`, and what it leaves spells out `ys`. Blanks and
cursors are out of sight, so that a parser is followed lexeme by lexeme. `p.Declines n xs` says that
the parser refuses there. The rules are those of `Parser.Meets`.
-/

namespace ShaderLink

open Lexeme

namespace Parser

variable {α β : Type}

/-- From a text of the lexemes `xs` on, the parser reads a value with the property and leaves a text
of the lexemes `ys`. -/
def Takes (p : Parser α) (n : Nat) (xs : List Lexeme) (P : α → Prop) (ys : List Lexeme) : Prop :=
  ∀ c : Cursor, Spaced xs c.rest → ∃ a c', P a ∧ p.Meets n c (.accepted a c') ∧ Spaced ys c'.rest

/-- In front of a text of the lexemes, the parser refuses. -/
def Declines (p : Parser α) (n : Nat) (xs : List Lexeme) : Prop :=
  ∀ c : Cursor, Spaced xs c.rest → p.Meets n c .refused

variable {p q : Parser α} {n : Nat} {xs ys zs : List Lexeme} {P : α → Prop} {Q : β → Prop} {a : α}

namespace Takes

/-- Nothing of the text is taken for a value that is there already. -/
theorem pure (h : P a) : (Pure.pure a : Parser α).Takes n xs P xs :=
  fun c hc ↦ ⟨a, c, h, .pure a n c, hc⟩

/-- What has the property may be known by less. -/
theorem mono {R : α → Prop} (h : p.Takes n xs P ys) (hR : ∀ a, P a → R a) :
    p.Takes n xs R ys := by
  intro c hc
  obtain ⟨a, c', ha, hp, hc'⟩ := h c hc
  exact ⟨a, c', hR a ha, hp, hc'⟩

theorem rounds : Parser.rounds.Takes n xs (· = n) xs :=
  fun c hc ↦ ⟨n, c, rfl, .rounds, hc⟩

/-- The second part starts at the lexemes that the first leaves, whichever value that read. -/
theorem bind {f : α → Parser β} (hp : p.Takes n xs P ys)
    (hf : ∀ a, P a → (f a).Takes n ys Q zs) : (p >>= f).Takes n xs Q zs := by
  intro c hc
  obtain ⟨a, c₁, ha, hp, hc₁⟩ := hp c hc
  obtain ⟨b, c', hb, hf, hc'⟩ := hf a ha c₁ hc₁
  exact ⟨b, c', hb, hp.bind hf, hc'⟩

/-- The property of the new value follows from that of the old one. -/
theorem map {f : α → β} (hp : p.Takes n xs P ys) (hf : ∀ a, P a → Q (f a)) :
    (f <$> p).Takes n xs Q ys :=
  hp.bind (f := fun a ↦ Pure.pure (f a)) fun a ha ↦ pure (hf a ha)

theorem seqRight {q : Parser β} (hp : p.Takes n xs P ys) (hq : q.Takes n ys Q zs) :
    (p *> q).Takes n xs Q zs :=
  hp.bind fun _ _ ↦ hq

/-- A commitment makes no difference to what is taken. -/
theorem commit (h : p.Takes n xs P ys) (what : String) :
    (Parser.commit p what).Takes n xs P ys := by
  intro c hc
  obtain ⟨a, c', ha, hp, hc'⟩ := h c hc
  exact ⟨a, c', ha, hp.commit what, hc'⟩

/-- The second alternative is not asked. -/
theorem orElse_left (h : p.Takes n xs P ys) : (p.orElse q).Takes n xs P ys := by
  intro c hc
  obtain ⟨a, c', ha, hp, hc'⟩ := h c hc
  exact ⟨a, c', ha, hp.orElse_left, hc'⟩

/-- The second alternative starts at the same lexemes. -/
theorem orElse_right (hp : p.Declines n xs) (hq : q.Takes n xs P ys) :
    (p.orElse q).Takes n xs P ys := by
  intro c hc
  obtain ⟨a, c', ha, hq, hc'⟩ := hq c hc
  exact ⟨a, c', ha, .orElse_right (hp c hc) hq, hc'⟩

/-- What is optional is taken where it can be. -/
theorem optional_some (h : p.Takes n xs P ys) :
    (Parser.optional p).Takes n xs (fun a? ↦ ∃ a, P a ∧ a? = some a) ys :=
  orElse_left (h.map fun a ha ↦ ⟨a, ha, rfl⟩)

/-- Where it is declined, all lexemes are left. -/
theorem optional_none (h : p.Declines n xs) : (Parser.optional p).Takes n xs (· = none) xs :=
  orElse_right (fun c hc ↦ (h c hc).map_refused some) (pure rfl)

/-- Something optional decides how the reading goes on, for instance a sign that opens a list. -/
theorem ifSome {q r : Parser β} (h : p.Takes n xs P ys) (hq : q.Takes n ys Q zs) :
    (Parser.optional p >>= fun a? ↦ if a?.isSome then q else r).Takes n xs Q zs := by
  refine h.optional_some.bind fun a? ha ↦ ?_
  obtain ⟨a, -, rfl⟩ := ha
  exact hq

/-- Without it the reading goes on in the other way. -/
theorem ifNone {q r : Parser β} (h : p.Declines n xs) (hr : r.Takes n xs Q zs) :
    (Parser.optional p >>= fun a? ↦ if a?.isSome then q else r).Takes n xs Q zs := by
  refine (optional_none h).bind fun a? ha ↦ ?_
  rw [ha]
  exact hr

/-- The first parser that does not decline decides. -/
theorem firstOf (h : p.Takes n xs P ys) (ps qs : List (Parser α))
    (hps : ∀ p ∈ ps, p.Declines n xs) : (Parser.firstOf (ps ++ p :: qs)).Takes n xs P ys := by
  intro c hc
  obtain ⟨a, c', ha, hp, hc'⟩ := h c hc
  exact ⟨a, c', ha, hp.firstOf ps qs fun p hp ↦ hps p hp c hc, hc'⟩

/-- A loop ends where the parser declines. -/
theorem manyWithin_nil (h : p.Declines n xs) (m : Nat) :
    (manyWithin p (m + 1)).Takes n xs (· = []) xs :=
  fun c hc ↦ ⟨[], c, rfl, .manyWithin_nil (h c hc) m, hc⟩

/-- A loop takes one value and what the other rounds take. -/
theorem manyWithin_cons {R S : List α → Prop} {m : Nat} (h : p.Takes n xs P ys)
    (hrest : (manyWithin p m).Takes n ys R zs) (hS : ∀ a as, P a → R as → S (a :: as)) :
    (manyWithin p (m + 1)).Takes n xs S zs := by
  intro c hc
  obtain ⟨a, c₁, ha, hp, hc₁⟩ := h c hc
  obtain ⟨as, c', has, hrest, hc'⟩ := hrest c₁ hc₁
  exact ⟨a :: as, c', hS a as ha has, hp.manyWithin_cons hrest, hc'⟩

/-- The values behind the first are read in the rounds of a loop. -/
theorem separated₁ {separator : Parser β} {R S : List α → Prop} (h : p.Takes n xs P ys)
    (hmore : (manyWithin (separator *> p) n).Takes n ys R zs)
    (hS : ∀ a as, P a → R as → S (a :: as)) : (Parser.separated₁ p separator).Takes n xs S zs := by
  have hmany : (many (separator *> p)).Takes n ys R zs :=
    rounds.bind fun m hm ↦ by rw [hm]; exact hmore
  exact h.bind fun a ha ↦ hmany.bind fun as has ↦ pure (hS a as ha has)

/-- Without a first value nothing is taken. -/
theorem separated_nil {separator : Parser β} (h : p.Declines n xs) :
    (Parser.separated p separator).Takes n xs (· = []) xs := by
  refine (optional_none fun c hc ↦ (h c hc).bind_refused).bind fun values hvalues ↦ ?_
  rw [hvalues]
  exact pure rfl

/-- With one, it is the values with their separators that are taken. -/
theorem separated {separator : Parser β} {S : List α → Prop}
    (h : (Parser.separated₁ p separator).Takes n xs S ys) :
    (Parser.separated p separator).Takes n xs S ys := by
  refine h.optional_some.bind fun values hvalues ↦ ?_
  obtain ⟨as, has, rfl⟩ := hvalues
  exact pure has

end Takes

namespace Declines

/-- A sequence declines where its first part does. -/
theorem bind {f : α → Parser β} (h : p.Declines n xs) : (p >>= f).Declines n xs :=
  fun c hc ↦ (h c hc).bind_refused

theorem orElse (hp : p.Declines n xs) (hq : q.Declines n xs) : (p.orElse q).Declines n xs :=
  fun c hc ↦ .orElse_right (hp c hc) (hq c hc)

theorem firstOf {ps : List (Parser α)} (hps : ∀ p ∈ ps, p.Declines n xs) :
    (Parser.firstOf ps).Declines n xs :=
  fun c hc ↦ .firstOf_refused fun p hp ↦ hps p hp c hc

end Declines

/-! ### Tokens -/

variable {x : Lexeme} {s : String} {kind : TokenKind} {accepts : Token → Bool}

/-- The first lexeme is the next token. -/
theorem Takes.tokenIf (hn : 1 < n) (hx : x.Stands xs)
    (h : ∀ offset, accepts (x.token offset) = true) :
    (tokenIf .directive accepts).Takes n (x :: xs) (fun t ↦ ∃ offset, t = x.token offset) xs := by
  intro c hc
  obtain ⟨c', hstep, hc'⟩ := Cursor.exists_step hc hx
  obtain ⟨offset, htoken⟩ := Meets.token_of_step hstep hn
  exact ⟨_, c', ⟨offset, rfl⟩, htoken.tokenIf_of_token (h offset), hc'⟩

/-- A token that is not accepted is declined. -/
theorem Declines.tokenIf (hn : 1 < n) (hx : x.Stands xs)
    (h : ∀ offset, accepts (x.token offset) = false) :
    (tokenIf .directive accepts).Declines n (x :: xs) := by
  intro c hc
  obtain ⟨c', hstep, -⟩ := Cursor.exists_step hc hx
  obtain ⟨offset, htoken⟩ := Meets.token_of_step hstep hn
  exact htoken.tokenIf_refused_of_token (h offset)

/-- At the end of a text there is no token. -/
theorem Declines.tokenIf_nil (hn : 1 < n) : (Parser.tokenIf .directive accepts).Declines n [] :=
  fun _ hc ↦ (Meets.token_refused_of_spacing hc hn).bind_refused

/-- A lexeme is taken by its kind. -/
theorem Takes.ofKind (hn : 1 < n) (hx : x.Stands xs) (h : x.kind = kind) :
    (ofKind .directive kind).Takes n (x :: xs) (fun t ↦ ∃ offset, t = x.token offset) xs :=
  tokenIf hn hx fun _ ↦ beq_iff_eq.2 h

theorem Declines.ofKind (hn : 1 < n) (hx : x.Stands xs) (h : x.kind ≠ kind) :
    (ofKind .directive kind).Declines n (x :: xs) :=
  tokenIf hn hx fun _ ↦ beq_eq_false_iff_ne.2 h

/-- A sign or keyword is taken by its text. -/
theorem Takes.mark (hn : 1 < n) (hx : x.Stands xs) (h : x.Is s) :
    (mark s).Takes n (x :: xs) (fun t ↦ ∃ offset, t = x.token offset) xs := by
  refine tokenIf hn hx fun _ ↦ ?_
  simp only [Bool.and_eq_true, beq_iff_eq, List.contains_iff_mem]
  exact h

theorem Declines.mark (hn : 1 < n) (hx : x.Stands xs) (h : ¬x.Is s) :
    (mark s).Declines n (x :: xs) := by
  refine tokenIf hn hx fun _ ↦ Bool.eq_false_iff.2 ?_
  simp only [Bool.and_eq_true, beq_iff_eq, List.contains_iff_mem, ne_eq]
  exact h

/-- The text of a word is its value. -/
theorem Takes.directiveWord {w : Text} (hn : 1 < n) (hw : w.IsIdentifier) :
    directiveWord.Takes n (⟨.word, w⟩ :: xs) (· = String.ofList w) xs :=
  (ofKind hn (.word hw) rfl).map fun _ ⟨_, ht⟩ ↦ congrArg Token.text ht

end Parser

end ShaderLink
