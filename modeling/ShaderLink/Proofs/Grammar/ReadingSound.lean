import ShaderLink.Proofs.Grammar.CodeSound

/-!
# Declarations are read by the rules

Between the cursors that a rule of the grammar reads between stand tokens (`Cursor.Tokens`), and
what is read of them is what the relations of `Reading` say (`Run.Body.reading` and, for whole
declarations, `Parser.Comes.reading_unmarkedDecl`).
-/

namespace ShaderLink

open Lexeme

/-- Lexemes that are all ignored leave no tokens. -/
theorem Lexeme.tokensFrom_eq_nil {xs : List Lexeme} (h : Ignored xs) (offset : Nat) :
    tokensFrom offset xs = [] := by
  induction xs generalizing offset with
  | nil => rfl
  | cons x xs ih =>
    obtain ⟨hx, hxs⟩ := List.forall_mem_cons.1 h
    rw [tokensFrom, if_pos hx, ih hxs]

/-! ### Tokens between cursors -/

/-- Between the cursors the tokens are read. -/
def Cursor.Tokens (c : Cursor) (ts : List Token) (c' : Cursor) : Prop :=
  (Parser.token .shader).Repeats c ts c'

namespace Cursor.Tokens

variable {c c₁ c₂ c' : Cursor} {t u : Token} {ts us : List Token}

theorem refl (c : Cursor) : c.Tokens [] c :=
  .nil c

theorem cons (h : (Parser.token .shader).Yields c t c₁) (h' : c₁.Tokens ts c') :
    c.Tokens (t :: ts) c' :=
  Parser.Repeats.cons h h'

/-- Tokens that are read in turn are read together. -/
theorem trans (h : c.Tokens ts c₁) (h' : c₁.Tokens us c') : c.Tokens (ts ++ us) c' := by
  induction h with
  | nil => exact h'
  | cons head _ ih => exact .cons head (ih h')

/-- Reading tokens leaves no more of the text. -/
theorem length_le (h : c.Tokens ts c') : c'.rest.length ≤ c.rest.length := by
  induction h with
  | nil => exact Nat.le_refl _
  | cons head _ ih =>
    obtain ⟨x, -, hx, -⟩ := head.next
    exact ih.trans hx.length_le

/-- The tokens are what is left of lexemes without the ignored ones. -/
theorem exists_lexes (h : c.Tokens ts c') :
    ∃ xs, c.Lexes xs c' ∧ ts = tokensFrom c.offset xs := by
  induction h with
  | nil c => exact ⟨[], .refl c, rfl⟩
  | cons head _ ih =>
    obtain ⟨xs, x, hxs, hignored, hkept, rfl⟩ := head.lexes_token
    obtain ⟨ys, hys, rfl⟩ := ih
    refine ⟨_, hxs.trans hys, ?_⟩
    rw [tokensFrom_append, ← hxs.offset, tokensFrom_append, tokensFrom_eq_nil hignored, tokensFrom,
      if_neg (by rw [hkept]; decide), tokensFrom]
    rfl

/-- At a cursor there is only one token, and one cursor behind it. -/
theorem unique (h : (Parser.token .shader).Yields c t c₁)
    (h' : (Parser.token .shader).Yields c u c₂) : t = u ∧ c₁ = c₂ := by
  obtain ⟨xs, x, hxs, hignored, hkept, rfl⟩ := h.lexes_token
  obtain ⟨ys, y, hys, hignored', hkept', rfl⟩ := h'.lexes_token
  obtain ⟨rfl, rfl⟩ := Next.unique ⟨xs, hxs, hignored, hkept⟩ ⟨ys, hys, hignored', hkept'⟩
  refine ⟨?_, rfl⟩
  have hoffset := hxs.offset.symm.trans hys.offset
  rw [join_append, join_append, Text.size_append, Text.size_append] at hoffset
  rw [show c.offset + (join xs).size = c.offset + (join ys).size by omega]

/-- The first token is read first. -/
theorem uncons (h : c.Tokens (t :: ts) c') :
    ∃ c₁, (Parser.token .shader).Yields c t c₁ ∧ c₁.Tokens ts c' := by
  cases h with
  | cons head h => exact ⟨_, head, h⟩

/-- There is only one next token. -/
theorem head?_eq (h : c.Tokens ts c') (hne : ts ≠ [])
    (hu : (Parser.token .shader).Yields c u c₂) : ts.head? = some u := by
  cases h with
  | nil => exact absurd rfl hne
  | cons head _ => rw [List.head?_cons, (unique head hu).1]

/-- Where no word behind a separator is next in the text, none is among the tokens. -/
theorem not_goesOn {separator : String} (h : c.Tokens ts c') (hstep : ¬c.StartsStep separator) :
    ¬Reading.GoesOn separator ts := by
  rintro ⟨mark, x, us, rfl, hmark, hx⟩
  obtain ⟨c₁, hyields, h⟩ := h.uncons
  obtain ⟨c₂, hword, -⟩ := h.uncons
  exact hstep ⟨x.lexeme, c₁, c₂, hx, Token.lexeme_eq_symbol.2 hmark ▸ hyields.next_token,
    hword.next_token⟩

end Cursor.Tokens

namespace Parser

variable {n : Nat} {c c' : Cursor} {token : Token}

/-! ### Single tokens -/

namespace Yields

theorem length_le_token (h : (Parser.token .shader).Yields c token c') :
    c'.rest.length ≤ c.rest.length :=
  Cursor.Tokens.length_le (.cons h (.refl c'))

/-- A sign that is no word is read as the symbol. -/
theorem token_symbol {s : String} (h : (sign s).Yields c token c')
    (hs : ¬Text.StartsWord s.toList ∧ s.toList.head? ≠ some '#') :
    (Parser.token .shader).Yields c token c' ∧ token.IsSymbol s := by
  obtain ⟨htoken, haccepts⟩ := h.tokenIf
  obtain ⟨x, offset, hnext, rfl⟩ := htoken.next
  simp only [Bool.and_eq_true, beq_iff_eq, List.contains_iff_mem] at haccepts
  obtain rfl := (hnext.heads.is_iff_symbol hs.1 hs.2).1 haccepts
  exact ⟨htoken, rfl, haccepts.1⟩

/-- A sign that is a word is read as the reserved word. -/
theorem token_reserved {s : String} (h : (sign s).Yields c token c')
    (hs : Text.StartsWord s.toList) :
    (Parser.token .shader).Yields c token c' ∧ token.IsReserved s := by
  obtain ⟨htoken, haccepts⟩ := h.tokenIf
  obtain ⟨x, offset, hnext, rfl⟩ := htoken.next
  simp only [Bool.and_eq_true, beq_iff_eq, List.contains_iff_mem] at haccepts
  obtain rfl := (hnext.heads.is_iff_keyword hs).1 haccepts
  exact ⟨htoken, rfl, haccepts.1⟩

theorem token_word (h : Parser.word.Yields c token c') :
    (Parser.token .shader).Yields c token c' ∧ token.kind = .word := by
  obtain ⟨htoken, haccepts⟩ := h.tokenIf
  exact ⟨htoken, beq_iff_eq.1 haccepts⟩

theorem token_name (h : Parser.name.Yields c token c') :
    (Parser.token .shader).Yields c token c' ∧ token.IsName := by
  obtain ⟨htoken, haccepts⟩ := h.tokenIf
  simp only [Bool.and_eq_true, beq_iff_eq, Bool.not_eq_true'] at haccepts
  exact ⟨htoken, haccepts⟩

/-- Words behind separators. -/
theorem tokens_words {separator : String} {words : List Token}
    (hs : ¬Text.StartsWord separator.toList ∧ separator.toList.head? ≠ some '#')
    (h : (Parser.many (sign separator *> word)).Yields c words c') :
    ∃ ts, c.Tokens ts c' ∧ Reading.Words separator ts words := by
  have hrepeats := h.many
  clear h
  induction hrepeats with
  | nil c => exact ⟨[], .refl c, .nil⟩
  | cons head _ ih =>
    obtain ⟨mark, c₂, hmark, hword⟩ := head.seqRight
    obtain ⟨hmark, hsymbol⟩ := hmark.token_symbol hs
    obtain ⟨hword, hkind⟩ := hword.token_word
    obtain ⟨ts, hts, hwords⟩ := ih
    exact ⟨_, .cons hmark (.cons hword hts), .cons hsymbol hkind hwords⟩

end Yields

namespace Comes

/-! ### Refused tokens -/

/-- Where a token is refused, another one is next. -/
theorem head?_of_refused {accepts : Token → Bool} {ts : List Token} (hc : c.rest.length < n)
    (h : (Parser.tokenIf .shader accepts).Comes n c .refused) (hts : c.Tokens ts c') :
    ∀ x ∈ ts.head?, accepts x = false := by
  intro x hx
  cases hts with
  | nil => cases hx
  | cons head _ =>
    obtain rfl := Option.some.inj hx
    obtain ⟨y, offset, hnext, -⟩ := head.next
    obtain ⟨offset', hmeets⟩ := Meets.token hnext hc
    obtain ⟨rfl, -⟩ := Cursor.Tokens.unique head hmeets.yields
    refine Bool.eq_false_iff.2 fun haccepts ↦ ?_
    cases (hmeets.tokenIf_of_token haccepts).eq_of_comes (.tokenIf _ _) h nofun

/-- If a sign is refused, the next token is not that symbol. -/
theorem not_isSymbol_of_refused {s : String} {ts : List Token} (hc : c.rest.length < n)
    (h : (sign s).Comes n c .refused) (hts : c.Tokens ts c') : ∀ x ∈ ts.head?, ¬x.IsSymbol s := by
  intro x hx hsymbol
  have hfalse := h.head?_of_refused hc hts x hx
  simp [hsymbol.1, hsymbol.2] at hfalse

/-! ### Paths -/

/-- Behind words that stand behind dots, all that there are, no parenthesis is next. -/
theorem not_calls {dots ts : List Token} (hc : c.rest.length < n)
    (hdots : (Parser.many (sign "." *> word)).Comes n c (.accepted dots c₁))
    (hrefused : (sign "(").Comes n c₁ .refused) (hts : c.Tokens ts c') : ¬Reading.Calls ts := by
  obtain ⟨us, hus, -⟩ := hdots.yields.tokens_words (by decide)
  have hc₁ := hus.length_le.trans_lt hc
  have hend : ¬c₁.StartsStep "." := not_startsStep_of_many (by decide) hc hdots
  have hrepeats := hdots.many
  clear hdots hus hc us
  rintro ⟨us, words, paren, vs, rfl, hwords, hparen⟩
  induction hrepeats generalizing us words with
  | nil c =>
    cases hwords with
    | nil => exact hrefused.not_isSymbol_of_refused hc₁ hts paren rfl hparen
    | cons hmark hx _ => exact hts.not_goesOn hend ⟨_, _, _, rfl, hmark, hx⟩
  | cons head _ ih =>
    obtain ⟨mark, c₂, hmark, hword⟩ := head.comes.yields.seqRight
    obtain ⟨hmark, hsymbol⟩ := hmark.token_symbol (by decide)
    obtain ⟨hword, -⟩ := hword.token_word
    cases hwords with
    | nil =>
      obtain ⟨c₃, hyields, -⟩ := hts.uncons
      exact absurd (((Cursor.Tokens.unique hmark hyields).1 ▸ hsymbol).unique hparen) (by decide)
    | cons _ _ hwords =>
      obtain ⟨c₃, hyields, hts⟩ := hts.uncons
      obtain ⟨rfl, rfl⟩ := Cursor.Tokens.unique hmark hyields
      obtain ⟨c₄, hyields', hts⟩ := hts.uncons
      obtain ⟨rfl, rfl⟩ := Cursor.Tokens.unique hword hyields'
      exact ih hrefused hc₁ hend _ _ hts hwords

/-- The rest of a path goes on as far as it can. -/
theorem reading_path {first : Token} {path : List String} {span : Span} {called : Bool}
    (hc : c.rest.length < n)
    (h : (referencePath first).Comes n c (.accepted (path, span, called) c')) :
    ∃ us words, c.Tokens us c' ∧
      (∀ kind, .reference path span kind = first.reference words kind) ∧
      ∀ {vs : List Token} {c₁ : Cursor}, c'.Tokens vs c₁ →
        (∀ {paren : Token} {c₂ : Cursor}, vs = [] → (Parser.token .shader).Yields c' paren c₂ →
          ¬paren.IsSymbol "(") →
        Reading.Path called us words vs := by
  obtain ⟨colons, c₁, hcolons, h⟩ := Comes.bind h
  obtain ⟨dots, c₂, hdots, h⟩ := h.bind
  obtain ⟨heq, rfl⟩ := h.pure
  obtain ⟨rfl, hspan⟩ := Prod.mk.inj heq
  obtain ⟨rfl, rfl⟩ := Prod.mk.inj hspan
  obtain ⟨ts, hts, hwords⟩ := hcolons.yields.tokens_words (by decide)
  have hc₁ := hts.length_le.trans_lt hc
  rcases hdots.optional with ⟨tokens, htokens, rfl⟩ | ⟨rfl, rfl, hrefused⟩
  · obtain ⟨tokens', c₃, hmany, h⟩ := Comes.bind htokens
    obtain ⟨paren, c₄, hpeek, h⟩ := h.bind
    obtain ⟨rfl, c₅, hparen⟩ := hpeek.peek
    obtain ⟨rfl, rfl⟩ := h.pure
    obtain ⟨us, hus, hwords'⟩ := hmany.yields.tokens_words (by decide)
    obtain ⟨hparen, hsymbol⟩ := hparen.yields.token_symbol (by decide)
    refine ⟨_, _, hts.trans hus, fun _ ↦ rfl, fun {vs c₁} hvs hnil ↦ ?_⟩
    -- the parenthesis that was seen ahead is a token of what follows
    have hne : vs ≠ [] := fun h ↦ hnil h hparen hsymbol
    exact .called hwords hwords' ⟨paren, hvs.head?_eq hne hparen, hsymbol⟩
  · refine ⟨ts, colons, hts, fun _ ↦ by rw [Option.getD_none, List.append_nil]; rfl,
      fun {vs c₁} hvs _ ↦ ?_⟩
    refine .plain hwords (hvs.not_goesOn (not_startsStep_of_many (by decide) hc hcolons)) ?_
    rcases hrefused.bind_refused with hmany | ⟨dots, c₃, hmany, hrest⟩
    · exact hmany.not_many_refused.elim
    · rcases hrest.bind_refused with hpeek | ⟨paren, c₄, -, hpure⟩
      · exact not_calls hc₁ hmany hpeek.peek_refused hvs
      · exact hpure.not_pure_refused.elim

end Comes

end Parser

namespace Run

open ShaderLink.Parser

variable {n depth : Nat} {c c' : Cursor} {events pending : List Event} {kind : DeclKind}
  {declared : Token}

/-! ### Bodies -/

/-- A body is read by the rules up to the symbol that closes it. -/
theorem Body.reading {closer previous : String} {mode : BodyMode}
    (h : Run.Body n closer mode previous pending c events c') (hc : c.rest.length < n) :
    ∃ ts roles, c.Tokens ts c' ∧ Reading.Body closer mode previous pending ts roles events := by
  induction h with
  | close ht hsymbol => exact ⟨_, _, .cons ht (.refl _), .close hsymbol⟩
  | statement ht hsymbol hne _ ih =>
    obtain ⟨us, _, hus, h⟩ := ih (ht.length_le_token.trans_lt hc)
    exact ⟨_, _, .cons ht hus, .statement hsymbol hne h⟩
  | block ht hsymbol hne _ _ ihinside ih =>
    have hc₁ := ht.length_le_token.trans_lt hc
    obtain ⟨us, _, hus, hinside⟩ := ihinside hc₁
    obtain ⟨vs, _, hvs, h⟩ := ih (hus.length_le.trans_lt hc₁)
    exact ⟨_, _, .cons ht (hus.trans hvs), .block hsymbol hne hinside h⟩
  | group ht hsymbol hlast hne _ _ ihinside ih =>
    have hc₁ := ht.length_le_token.trans_lt hc
    obtain ⟨us, _, hus, hinside⟩ := ihinside hc₁
    obtain ⟨vs, _, hvs, h⟩ := ih (hus.length_le.trans_lt hc₁)
    exact ⟨_, _, .cons ht (hus.trans hvs), .group hsymbol hlast hne hinside h⟩
  | mark ht hsymbol hne hwhich hrefused _ ih =>
    obtain ⟨hwhich, hword⟩ := hwhich.token_word
    have hc₂ := hwhich.length_le_token.trans_lt (ht.length_le_token.trans_lt hc)
    obtain ⟨vs, _, hvs, h⟩ := ih hc₂
    exact ⟨_, _, .cons ht (.cons hwhich hvs),
      .attribute hsymbol hne hword (hrefused.not_isSymbol_of_refused hc₂ hvs) h⟩
  | arguments ht hsymbol hne hwhich hparen _ _ ihinside ih =>
    obtain ⟨hwhich, hword⟩ := hwhich.token_word
    obtain ⟨hparen, hsymbol'⟩ := hparen.token_symbol (by decide)
    have hc₂ := hwhich.length_le_token.trans_lt (ht.length_le_token.trans_lt hc)
    have hc₃ := hparen.length_le_token.trans_lt hc₂
    obtain ⟨us, _, hus, hinside⟩ := ihinside hc₃
    obtain ⟨vs, _, hvs, h⟩ := ih (hus.length_le.trans_lt hc₃)
    exact ⟨_, _, .cons ht (.cons hwhich (.cons hparen (hus.trans hvs))),
      .arguments hsymbol hne hword hsymbol' hinside h⟩
  | member ht hsymbol hne hx _ ih =>
    obtain ⟨hx, hword⟩ := hx.token_word
    have hc₁ := ht.length_le_token.trans_lt hc
    obtain ⟨vs, _, hvs, h⟩ := ih (hx.length_le_token.trans_lt hc₁)
    exact ⟨_, _, .cons ht (.cons hx hvs), .member hsymbol hne hword h⟩
  | dot ht hsymbol hne hrefused _ ih =>
    have hc₁ := ht.length_le_token.trans_lt hc
    obtain ⟨vs, _, hvs, h⟩ := ih hc₁
    refine ⟨_, _, .cons ht hvs, .dot hsymbol hne (fun x hx ↦ ?_) h⟩
    exact beq_eq_false_iff_ne.1 (hrefused.head?_of_refused hc₁ hvs x hx)
  | loop ht hfor hparen _ hbrace _ _ ihheader ihinside ih =>
    obtain ⟨hparen, hsymbol⟩ := hparen.token_symbol (by decide)
    have hc₂ := hparen.length_le_token.trans_lt (ht.length_le_token.trans_lt hc)
    obtain ⟨us, _, hus, hheader⟩ := ihheader hc₂
    have hc₃ := hus.length_le.trans_lt hc₂
    obtain ⟨hbrace, hsymbol'⟩ := hbrace.token_symbol (by decide)
    have hc₄ := hbrace.length_le_token.trans_lt hc₃
    obtain ⟨vs, _, hvs, hinside⟩ := ihinside hc₄
    obtain ⟨ws, _, hws, h⟩ := ih (hvs.length_le.trans_lt hc₄)
    exact ⟨_, _, .cons ht (.cons hparen (hus.trans (.cons hbrace (hvs.trans hws)))),
      .loop hfor hsymbol hheader hsymbol' hinside h⟩
  | declare ht hword hdeclares hx _ ih =>
    obtain ⟨hx, hname⟩ := hx.token_name
    have hc₁ := ht.length_le_token.trans_lt hc
    obtain ⟨vs, _, hvs, h⟩ := ih (hx.length_le_token.trans_lt hc₁)
    exact ⟨_, _, .cons ht (.cons hx hvs), .declare hword hdeclares hname h⟩
  | template ht hword hdeclares hbracket _ hx _ ihinside ih =>
    obtain ⟨hbracket, hsymbol⟩ := hbracket.token_symbol (by decide)
    obtain ⟨hx, hname⟩ := hx.token_name
    have hc₂ := hbracket.length_le_token.trans_lt (ht.length_le_token.trans_lt hc)
    obtain ⟨us, _, hus, hinside⟩ := ihinside hc₂
    have hc₃ := hus.length_le.trans_lt hc₂
    obtain ⟨vs, _, hvs, h⟩ := ih (hx.length_le_token.trans_lt hc₃)
    exact ⟨_, _, .cons ht (.cons hbracket (hus.trans (.cons hx hvs))),
      .template hword hdeclares hsymbol hinside hname h⟩
  | keyword ht hword hkeyword hfor hdeclares _ ih =>
    obtain ⟨vs, _, hvs, h⟩ := ih (ht.length_le_token.trans_lt hc)
    exact ⟨_, _, .cons ht hvs, .keyword hword hkeyword hfor hdeclares h⟩
  | parameter ht hname hcolon _ ih =>
    obtain ⟨hcolon, hsymbol⟩ := hcolon.token_symbol (by decide)
    obtain ⟨vs, _, hvs, h⟩ := ih (ht.length_le_token.trans_lt hc)
    exact ⟨_, _, .cons ht hvs, .parameter hname ⟨_, hvs.head?_eq h.ne_nil hcolon, hsymbol⟩ h⟩
  | reference ht hname hrefused hpath _ ih =>
    have hc₁ := ht.length_le_token.trans_lt hc
    obtain ⟨us, words, hus, heq, hpath⟩ := hpath.reading_path hc₁
    obtain ⟨vs, _, hvs, h⟩ := ih (hus.length_le.trans_lt hc₁)
    rw [heq]
    have hcolon := fun hmode ↦ (hrefused hmode).not_isSymbol_of_refused hc₁ (hus.trans hvs)
    exact ⟨_, _, .cons ht (hus.trans hvs),
      .reference hname hcolon (hpath hvs fun hnil ↦ absurd hnil h.ne_nil) h⟩
  | other ht hword hsymbol _ ih =>
    obtain ⟨vs, _, hvs, h⟩ := ih (ht.length_le_token.trans_lt hc)
    exact ⟨_, _, .cons ht hvs, .other hword hsymbol h⟩

/-! ### Attributes -/

/-- Arguments are read as the relation says, or are missing. -/
theorem Arguments.reading {which : String} (h : Run.Arguments n which c events c')
    (hc : c.rest.length < n) :
    ∃ ts roles, c.Tokens ts c' ∧ Reading.Arguments which ts roles events := by
  cases h with
  | none => exact ⟨[], [], .refl c, .none⟩
  | some hparen hinside =>
    obtain ⟨hparen, hsymbol⟩ := hparen.token_symbol (by decide)
    obtain ⟨us, _, hus, hinside⟩ := hinside.reading (hparen.length_le_token.trans_lt hc)
    exact ⟨_, _, .cons hparen hus, .some hsymbol hinside⟩

/-- So are attributes, -/
theorem Attributes.reading (h : Run.Attributes n c events c') (hc : c.rest.length < n) :
    ∃ ts roles, c.Tokens ts c' ∧ Reading.Attributes ts roles events := by
  induction h with
  | nil c => exact ⟨[], [], .refl c, .nil⟩
  | cons ht hwhich hargs _ ih =>
    obtain ⟨ht, hsymbol⟩ := ht.token_symbol (by decide)
    obtain ⟨hwhich, hword⟩ := hwhich.token_word
    have hc₂ := hwhich.length_le_token.trans_lt (ht.length_le_token.trans_lt hc)
    obtain ⟨us, _, hus, hargs⟩ := hargs.reading hc₂
    obtain ⟨vs, _, hvs, h⟩ := ih (hus.length_le.trans_lt hc₂)
    exact ⟨_, _, .cons ht (.cons hwhich (hus.trans hvs)), .cons hsymbol hword hargs h⟩

/-! ### Structs -/

/-- Behind the type of a member is what ends it. -/
theorem TypeEnd.endsType {t : Token} {c₁ : Cursor} (h : Run.TypeEnd c c')
    (ht : (token .shader).Yields c t c₁) : Reading.EndsType t := by
  cases h with
  | comma hyields hsymbol => exact .inl ((Cursor.Tokens.unique hyields ht).1 ▸ hsymbol)
  | brace hyields hsymbol => exact .inr ((Cursor.Tokens.unique hyields ht).1 ▸ hsymbol)

/-- types of members, up to where one ends, -/
theorem MemberType.reading {c₂ : Cursor} (h : Run.MemberType n depth c events c')
    (hend : Run.TypeEnd c' c₂) (hc : c.rest.length < n) :
    ∃ ts roles, c.Tokens ts c' ∧ Reading.MemberType depth ts roles events := by
  -- a token that leaves nothing, whichever rule has read it
  have hone {depth depth' : Nat} {c c₁ c' : Cursor} {t : Token} {events : List Event}
      (ht : (token .shader).Yields c t c₁) (hparen : ¬t.IsSymbol "(") (hname : ¬t.IsName)
      (hinside : depth = 0 → ¬Reading.EndsType t) (hdepth : Reading.nested depth t = depth')
      (h : ∃ ts roles, c₁.Tokens ts c' ∧ Reading.MemberType depth' ts roles events) :
      ∃ ts roles, c.Tokens ts c' ∧ Reading.MemberType depth ts roles events := by
    obtain ⟨vs, _, hvs, h⟩ := h
    exact ⟨_, _, .cons ht hvs, .other hparen hname hinside (hdepth ▸ h)⟩
  induction h with
  | nil c => exact ⟨[], [], .refl c, .nil⟩
  | opening ht hsymbol _ ih =>
    exact hone ht (hsymbol.not_isSymbol (by decide)) hsymbol.not_isName
      (fun _ hends ↦ hends.not_isSymbol (by decide) hsymbol) (Reading.nested_open hsymbol _)
      (ih hend (ht.length_le_token.trans_lt hc))
  | closing ht hsymbol _ ih =>
    exact hone ht (hsymbol.not_isSymbol (by decide)) hsymbol.not_isName
      (fun _ hends ↦ hends.not_isSymbol (by decide) hsymbol) (Reading.nested_close hsymbol _)
      (ih hend (ht.length_le_token.trans_lt hc))
  | @inner depth c c₁ c' t s events ht hsymbol hs hdepth _ ih =>
    have hne (s' : String) (hs' : s' ≠ "," ∧ s' ≠ "\x7d") : ¬t.IsSymbol s' :=
      hsymbol.not_isSymbol fun heq ↦ hs.elim (fun h ↦ hs'.1 (heq.symm.trans h))
        fun h ↦ hs'.2 (heq.symm.trans h)
    exact hone ht (hne _ (by decide)) hsymbol.not_isName (fun hzero ↦ absurd hzero hdepth)
      (Reading.nested_other (hne _ (by decide)) (hne _ (by decide)) _)
      (ih hend (ht.length_le_token.trans_lt hc))
  | group ht hsymbol hinside _ ih =>
    have hc₁ := ht.length_le_token.trans_lt hc
    obtain ⟨us, _, hus, hinside⟩ := hinside.reading hc₁
    obtain ⟨vs, _, hvs, h⟩ := ih hend (hus.length_le.trans_lt hc₁)
    exact ⟨_, _, .cons ht (hus.trans hvs), .group hsymbol hinside h⟩
  | reference ht hname hpath _ ih =>
    have hc₁ := ht.length_le_token.trans_lt hc
    obtain ⟨us, words, hus, heq, hpath⟩ := hpath.reading_path hc₁
    obtain ⟨vs, _, hvs, h⟩ := ih hend (hus.length_le.trans_lt hc₁)
    rw [heq]
    refine ⟨_, _, .cons ht (hus.trans hvs), .reference hname (hpath hvs ?_) h⟩
    rintro paren c₃ rfl hparen
    cases hvs
    exact (hend.endsType hparen).not_isSymbol (by decide)
  | @other depth c c₁ c' t events ht hname hsymbol _ ih =>
    have hne {s : String} (hs : s ∈ typeSymbols) : ¬t.IsSymbol s := fun h ↦
      hsymbol h.1 (h.2 ▸ hs)
    refine hone ht (hne (by decide)) hname (fun _ hends ↦ ?_)
      (Reading.nested_other (hne (by decide)) (hne (by decide)) _)
      (ih hend (ht.length_le_token.trans_lt hc))
    exact hends.elim (hne (by decide)) (hne (by decide))

/-- The members are read up to the brace that closes the struct. -/
theorem Members.reading (h : Run.Members n c events c') (hc : c.rest.length < n) :
    ∃ ts roles, c.Tokens ts c' ∧ Reading.Members ts roles events := by
  induction h with
  | close hbrace =>
    obtain ⟨ht, hsymbol⟩ := hbrace.token_symbol (by decide)
    exact ⟨_, _, .cons ht (.refl _), .close hsymbol⟩
  | @member c c₁ c₂ c₃ c₄ c₅ c' x colon marks type events _ hmarks hx hcolon htype hend h ih =>
    obtain ⟨ms, _, hms, hmarks⟩ := hmarks.reading hc
    obtain ⟨hx, hword⟩ := hx.token_word
    obtain ⟨hcolon, hsymbol⟩ := hcolon.token_symbol (by decide)
    have hfront := hms.trans (.cons hx (.cons hcolon (.refl _)))
    have hc₃ := hfront.length_le.trans_lt hc
    obtain ⟨ts, _, hts, htype⟩ := htype.reading hend hc₃
    have hc₄ := hts.length_le.trans_lt hc₃
    have hname : Reading.MemberName _ _ _ := .mk hmarks hword hsymbol
    have hevents : marks ++ .member x.text x.span :: (type ++ events) =
        (marks ++ [.member x.text x.span]) ++ (type ++ events) := by simp
    rw [hevents]
    cases hend with
    | comma ht hcomma =>
      obtain ⟨vs, _, hvs, h⟩ := ih (ht.length_le_token.trans_lt hc₄)
      exact ⟨_, _, hfront.trans (hts.trans (.cons ht hvs)), .member hname htype hcomma h⟩
    | brace ht hclose =>
      obtain ⟨rfl, brace, hbrace⟩ := h.eq_nil_of_brace hc₄ ht hclose
      obtain ⟨ht, hclose⟩ := hbrace.token_symbol (by decide)
      rw [List.append_nil]
      exact ⟨_, _, hfront.trans (hts.trans (.cons ht (.refl _))), .last hname htype hclose⟩

/-! ### Functions, structs, variables, aliases -/

/-- and declarations. -/
theorem Declaration.reading (h : Run.Declaration n kind declared c events c')
    (hc : c.rest.length < n) :
    ∃ ts roles, c.Tokens ts c' ∧ Reading.Declaration kind declared ts roles events := by
  cases h with
  | function hword hname hparen hparams hresult h =>
    obtain ⟨hword, hreserved⟩ := hword.token_reserved (by decide)
    obtain ⟨hname, hisName⟩ := hname.token_name
    obtain ⟨hparen, hsymbol⟩ := hparen.token_symbol (by decide)
    have hc₂ := hname.length_le_token.trans_lt (hword.length_le_token.trans_lt hc)
    have hc₃ := hparen.length_le_token.trans_lt hc₂
    obtain ⟨us, _, hus, hparams⟩ := hparams.reading hc₃
    have hc₄ := hus.length_le.trans_lt hc₃
    obtain ⟨vs, _, hvs, hresult⟩ := hresult.reading hc₄
    obtain ⟨ws, _, hws, h⟩ := h.reading (hvs.length_le.trans_lt hc₄)
    exact ⟨_, _, .cons hword (.cons hname (.cons hparen (hus.trans (hvs.trans hws)))),
      .function hreserved hisName hsymbol hparams hresult h⟩
  | struct hword hname hbrace h =>
    obtain ⟨hword, hreserved⟩ := hword.token_reserved (by decide)
    obtain ⟨hname, hisName⟩ := hname.token_name
    obtain ⟨hbrace, hsymbol⟩ := hbrace.token_symbol (by decide)
    have hfront : c.Tokens _ _ := .cons hword (.cons hname (.cons hbrace (.refl _)))
    obtain ⟨us, _, hus, h⟩ := h.reading (hfront.length_le.trans_lt hc)
    exact ⟨_, _, hfront.trans hus, .struct hreserved hisName hsymbol h⟩
  | value hkind hword hname h =>
    obtain ⟨hword, hreserved⟩ := hword.token_reserved (Reading.forall_mem_valueWords _ hkind).1
    obtain ⟨hname, hisName⟩ := hname.token_name
    have hfront : c.Tokens _ _ := .cons hword (.cons hname (.refl _))
    obtain ⟨us, _, hus, h⟩ := h.reading (hfront.length_le.trans_lt hc)
    exact ⟨_, _, hfront.trans hus, .value hreserved.1 (hreserved.2 ▸ hkind) hisName h⟩
  | template hkind hword hbracket hinside hname h =>
    -- what stands between the brackets is read as a body and forgotten
    obtain ⟨hword, hreserved⟩ := hword.token_reserved (Reading.forall_mem_valueWords _ hkind).1
    obtain ⟨hbracket, hsymbol⟩ := hbracket.token_symbol (by decide)
    obtain ⟨hname, hisName⟩ := hname.token_name
    have hc₂ := hbracket.length_le_token.trans_lt (hword.length_le_token.trans_lt hc)
    obtain ⟨us, _, hus, hinside⟩ := hinside.reading hc₂
    have hc₃ := hus.length_le.trans_lt hc₂
    obtain ⟨vs, _, hvs, h⟩ := h.reading (hname.length_le_token.trans_lt hc₃)
    exact ⟨_, _, .cons hword (.cons hbracket (hus.trans (.cons hname hvs))),
      .template hreserved.1 (hreserved.2 ▸ hkind) hsymbol hinside hisName h⟩
  | typeAlias hword hname hequals h =>
    obtain ⟨hword, hreserved⟩ := hword.token_reserved (by decide)
    obtain ⟨hname, hisName⟩ := hname.token_name
    obtain ⟨hequals, hsymbol⟩ := hequals.token_symbol (by decide)
    have hfront : c.Tokens _ _ := .cons hword (.cons hname (.cons hequals (.refl _)))
    obtain ⟨us, _, hus, h⟩ := h.reading (hfront.length_le.trans_lt hc)
    exact ⟨_, _, hfront.trans hus, .typeAlias hreserved hisName hsymbol h⟩

end Run

/-- A declaration is read by the rules, with its attributes. -/
theorem Parser.Comes.reading_unmarkedDecl {n : Nat} {c c' : Cursor} {events : List Event}
    {kind : DeclKind} {declared : Token} (hc : c.rest.length < n)
    (h : Parser.unmarkedDecl.Comes n c (.accepted (kind, declared, events) c')) :
    ∃ ts roles, c.Tokens ts c' ∧ Reading.Marked kind declared ts roles events := by
  obtain ⟨hmarks, h⟩ := h.run_unmarkedDecl
  obtain ⟨ms, _, hms, hmarks⟩ := hmarks.reading hc
  obtain ⟨ts, _, hts, h⟩ := h.reading (hms.length_le.trans_lt hc)
  exact ⟨_, _, hms.trans hts, .mk hmarks h⟩

end ShaderLink
