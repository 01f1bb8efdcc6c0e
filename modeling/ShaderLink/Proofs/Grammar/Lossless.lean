import ShaderLink.Proofs.Grammar.Gap

/-!
# Nothing is lost between tokens

The tokens of a text, and blanks and comments around them, are all of the text. A token shows the
characters in its span, no two tokens overlap, and what stands in front of the first, between two
and behind the last is **layout** (`Text.LayoutBefore`): runs of blanks, comments up to the end of
their line and comments that are closed as often as opened.

Reading tokens stops before the end of a text in three cases only: where a block comment is never
closed, where a hexadecimal number has the letter of an exponent but no digits for it, and when as
many lexemes have been read as there may be steps (`Cursor.Stops`).
-/

namespace ShaderLink

open Lexeme

/-! ### Exponents without digits -/

namespace Text

/-- Hexadecimal digits, of which there is at least one, perhaps with a point among them. -/
def IsMantissa (t : Text) : Prop :=
  (t ≠ [] ∧ ∀ c ∈ t, Scan.isHexDigit c = true) ∨
    ∃ whole fraction, t = whole ++ '.' :: fraction ∧ whole ++ fraction ≠ [] ∧
      ∀ c ∈ whole ++ fraction, Scan.isHexDigit c = true

/-- The letter of an exponent, behind which no digit stands, with or without a sign. -/
def IsBareExponent (t : Text) : Prop :=
  ∃ letter behind, t = letter :: behind ∧ letter ∈ ['p', 'P'] ∧
    ∀ sign ∈ [[], ['+'], ['-']], ∀ digit rest, behind = sign ++ digit :: rest →
      digit.isDigit = false

/-- The text starts with a hexadecimal number of which the exponent has no digits. -/
def LacksExponent (t : Text) : Prop :=
  ∃ (mark : Char) (mantissa exponent : Text), t = '0' :: mark :: (mantissa ++ exponent) ∧
    mark ∈ ['x', 'X'] ∧ mantissa.IsMantissa ∧ exponent.IsBareExponent

end Text

namespace Scan

variable {t : Text} {notes : List Note}

/-- Only an exponent without digits is broken. -/
theorem of_binaryExponent_broken {lexeme : Text} (h : binaryExponent lexeme t = .broken notes) :
    notes = [] ∧ t.IsBareExponent := by
  rw [binaryExponent] at h
  split at h
  · cases h
  · rename_i hnone
    split at h
    · rename_i hletter
      refine ⟨(Scan.broken.inj h).symm, ?_⟩
      cases t with
      | nil => cases hletter
      | cons letter behind =>
        have hletter : letter ∈ ['p', 'P'] := by simpa using hletter
        refine ⟨letter, behind, rfl, hletter, fun sign hsign digit rest hbehind ↦ ?_⟩
        by_contra hdigit
        rw [Bool.not_eq_false] at hdigit
        rw [exponent?, if_pos] at hnone
        · cases hnone
        refine ⟨hletter, ?_⟩
        -- the sign is split off, and the digit starts what is left
        have hnosign : digit ∉ ['+', '-'] := by
          rintro hmem
          simp only [List.mem_cons, List.not_mem_nil, or_false] at hmem
          rcases hmem with rfl | rfl <;> cases hdigit
        have hsplit : (splitOne ['+', '-'] behind).2 = digit :: rest := by
          rw [hbehind]
          simp only [List.mem_cons, List.not_mem_nil, or_false] at hsign
          rcases hsign with rfl | rfl | rfl
          · rw [List.nil_append, splitOne, if_neg hnosign]
          · rfl
          · rfl
        rw [hsplit, splitWhile, List.takeWhile_cons, if_pos hdigit]
        exact List.cons_ne_nil _ _
    · cases h

/-- A hexadecimal number is broken behind its mantissa. -/
theorem of_hexDigits_broken {mark : Text} (h : hexDigits mark t = .broken notes) :
    notes = [] ∧ ∃ mantissa exponent : Text, t = mantissa ++ exponent ∧ mantissa.IsMantissa ∧
      exponent.IsBareExponent := by
  have ht := splitWhile_append isHexDigit t
  generalize hsplit : splitWhile isHexDigit t = whole at ht
  obtain ⟨digits, tail⟩ := whole
  subst ht
  have hdigits := (splitWhile_eq_iff.1 hsplit).1
  by_cases hpoint : tail.head? = some '.'
  · obtain ⟨rest, rfl⟩ := List.head?_eq_some_iff.1 hpoint
    rw [hexDigits_point mark hsplit] at h
    split at h
    · cases h
    · rename_i hsome
      obtain ⟨hnotes, hexponent⟩ := of_binaryExponent_broken h
      refine ⟨hnotes, digits ++ '.' :: (splitWhile isHexDigit rest).1, _, ?_, .inr ⟨_, _, rfl, ?_,
        List.forall_mem_append.2 ⟨hdigits, fun c hc ↦ List.mem_takeWhile_imp hc⟩⟩, hexponent⟩
      · rw [List.append_assoc, List.cons_append, splitWhile_append]
      · rwa [ne_eq, List.append_eq_nil_iff]
  · rw [hexDigits_whole mark hsplit hpoint] at h
    split at h
    · cases h
    · rename_i hsome
      split at h
      · cases h
      · obtain ⟨hnotes, hexponent⟩ := of_binaryExponent_broken h
        exact ⟨hnotes, digits, tail, rfl, .inl ⟨hsome, hdigits⟩, hexponent⟩

/-- Decimal numbers are never broken, since an exponent without digits is not taken. -/
theorem decimal_ne_broken : decimal t ≠ .broken notes := by
  have ht := splitWhile_append Char.isDigit t
  generalize hsplit : splitWhile Char.isDigit t = whole at ht
  obtain ⟨digits, tail⟩ := whole
  subst ht
  by_cases hpoint : tail.head? = some '.'
  · obtain ⟨rest, rfl⟩ := List.head?_eq_some_iff.1 hpoint
    rw [decimal_point hsplit]
    split <;> simp
  · rw [decimal_whole hsplit hpoint]
    split
    · simp
    · split <;> simp

/-- The rule for numbers gives up only at an exponent without digits. -/
theorem of_number_broken (h : number t = .broken notes) : notes = [] ∧ t.LacksExponent := by
  rw [number] at h
  have hhex : hexadecimal t = .broken notes := by
    cases hscan : hexadecimal t with
    | missed =>
      rw [hscan] at h
      exact absurd h decimal_ne_broken
    | matched lexeme rest =>
      rw [hscan] at h
      cases h
    | broken notes' =>
      rw [hscan] at h
      exact h
  unfold hexadecimal at hhex
  split at hhex
  · obtain ⟨hnotes, mantissa, exponent, rfl, hmantissa, hexponent⟩ := of_hexDigits_broken hhex
    exact ⟨hnotes, 'x', mantissa, exponent, rfl, by simp, hmantissa, hexponent⟩
  · obtain ⟨hnotes, mantissa, exponent, rfl, hmantissa, hexponent⟩ := of_hexDigits_broken hhex
    exact ⟨hnotes, 'X', mantissa, exponent, rfl, by simp, hmantissa, hexponent⟩
  · cases hhex

theorem identifier_ne_broken : identifier t ≠ .broken notes := by
  cases t with
  | nil => exact nofun
  | cons c t =>
    simp only [identifier]
    split
    · split <;> simp
    · split <;> simp

theorem directiveWord_ne_broken : Lexicon.directiveWord t ≠ .broken notes := by
  unfold Lexicon.directiveWord
  split
  · rename_i t
    cases hscan : identifier t with
    | matched lexeme rest => simp
    | missed => simp
    | broken notes' => exact absurd hscan identifier_ne_broken
  · simp

theorem run_ne_broken (p : Char → Bool) : run p t ≠ .broken notes := by
  cases t with
  | nil => exact nofun
  | cons c t =>
    rw [run]
    split <;> simp

/-- A choice is broken only if one of the two is. -/
theorem orElse_ne_broken {first second : Scan} (hf : first ≠ .broken notes)
    (hs : second ≠ .broken notes) : first.orElse second ≠ .broken notes := by
  cases first with
  | missed => exact hs
  | matched lexeme rest => exact nofun
  | broken notes' => exact hf

theorem literal_ne_broken (lexeme : String) : literal lexeme t ≠ .broken notes := by
  rw [literal]
  split <;> simp

theorem one_ne_broken (p : Char → Bool) : one p t ≠ .broken notes := by
  cases t with
  | nil => exact nofun
  | cons c t =>
    rw [one]
    split <;> simp

theorem lineComment_ne_broken : lineComment t ≠ .broken notes := by
  unfold lineComment
  split <;> simp

end Scan

/-! ### Where reading stops -/

namespace Cursor

/-- What is broken at a cursor, a rule has given up on. -/
theorem exists_of_lexWith_broken {c : Cursor} {rules : List (TokenKind × (Text → Scan))}
    {notes : List Note} (h : c.lexWith rules = .broken notes) :
    ∃ rule ∈ rules, rule.2 c.rest = .broken notes := by
  induction rules with
  | nil =>
    rw [lexWith] at h
    split at h <;> cases h
  | cons rule rules ih =>
    obtain ⟨kind, rule⟩ := rule
    rw [lexWith] at h
    split at h
    · cases h
    · obtain ⟨rule', hmem, hrule'⟩ := ih h
      exact ⟨rule', List.mem_cons_of_mem _ hmem, hrule'⟩
    · rename_i hbroken
      obtain rfl := Lexed.broken.inj h
      exact ⟨_, List.mem_cons_self, hbroken⟩

/-- The only lexemes that cannot be finished are comments that are not closed and exponents without
digits. -/
theorem of_lex_broken {c : Cursor} {notes : List Note}
    (h : Lexicon.shader.lex c = .broken notes) :
    (c.rest.OpensComment ∧ notes = [.invalid .blockComment]) ∨
      (c.rest.LacksExponent ∧ notes = []) := by
  obtain ⟨rule, hrule, hbroken⟩ := exists_of_lexWith_broken h
  simp only [Lexicon.rules, List.mem_cons, List.not_mem_nil, or_false] at hrule
  rcases hrule with rfl | rfl | rfl | rfl | rfl | rfl
  · exact absurd hbroken (Scan.run_ne_broken isBlank)
  · by_cases hblock : Scan.blockComment c.rest = .broken notes
    · obtain ⟨hnotes, hopens⟩ := Scan.blockComment_eq_broken_iff.1 hblock
      exact .inl ⟨hopens, hnotes⟩
    · exact absurd hbroken (Scan.orElse_ne_broken Scan.lineComment_ne_broken hblock)
  · exact absurd hbroken Scan.directiveWord_ne_broken
  · obtain ⟨hnotes, hlacks⟩ := Scan.of_number_broken hbroken
    exact .inr ⟨hlacks, hnotes⟩
  · exact absurd hbroken Scan.identifier_ne_broken
  · exact absurd hbroken (Scan.orElse_ne_broken (Scan.literal_ne_broken _)
      (Scan.orElse_ne_broken (Scan.literal_ne_broken _) (Scan.one_ne_broken _)))

/-- With the notes no more is read at the cursor, after some steps of those that may be taken. -/
def Stops (c : Cursor) (limit steps : Nat) (notes : List Note) : Prop :=
  Lexicon.shader.lex c = .broken notes ∨ (limit ≤ steps ∧ notes = [.invalid .stepLimit])

end Cursor

namespace Parser

variable {α β : Type}

/-- Reading costs a step for each lexeme that is passed, and is given up only where it stops. -/
def Counts (p : Parser α) : Prop :=
  ∀ limits c e, match p limits c e with
    | (.accepted _ c', e') => ∃ xs, c.Lexes xs c' ∧ e'.steps = e.steps + xs.length
    | (.refused, _) => True
    | (.aborted notes, _) =>
      ∃ xs c', c.Lexes xs c' ∧ c'.Stops limits.steps (e.steps + xs.length) notes

namespace Counts

theorem pure (a : α) : (Pure.pure a : Parser α).Counts :=
  fun _ c _ ↦ ⟨[], .refl c, rfl⟩

theorem refuse : (Parser.refuse : Parser α).Counts :=
  fun _ _ _ ↦ trivial

/-- Two readers in turn cost a step for each lexeme that either passes. -/
theorem bind {p : Parser α} {f : α → Parser β} (hp : p.Counts) (hf : ∀ a, (f a).Counts) :
    (p >>= f).Counts := by
  intro limits c e
  have hfirst := hp limits c e
  simp only [Bind.bind]
  cases houtcome : p limits c e with
  | mk o e₁ =>
  rw [houtcome] at hfirst
  cases o with
  | refused => trivial
  | aborted notes => exact hfirst
  | accepted a c₁ =>
    obtain ⟨xs, hxs, hsteps⟩ := hfirst
    have hrest := hf a limits c₁ e₁
    dsimp only
    generalize f a limits c₁ e₁ = outcome at hrest ⊢
    obtain ⟨o, e'⟩ := outcome
    cases o with
    | refused => trivial
    | accepted b c' =>
      obtain ⟨ys, hys, hsteps'⟩ := hrest
      refine ⟨xs ++ ys, hxs.trans hys, ?_⟩
      rw [hsteps', hsteps, List.length_append, Nat.add_assoc]
    | aborted notes =>
      obtain ⟨ys, c', hys, hstops⟩ := hrest
      refine ⟨xs ++ ys, c', hxs.trans hys, ?_⟩
      rwa [hsteps, Nat.add_assoc, ← List.length_append] at hstops

theorem lex : (Parser.lex .shader).Counts := by
  intro limits c e
  rw [Parser.lex]
  by_cases hlimit : limits.steps < e.step.steps
  · rw [if_pos hlimit]
    exact ⟨[], c, .refl c, .inr ⟨Nat.le_of_lt_succ hlimit, rfl⟩⟩
  · rw [if_neg hlimit]
    cases hlex : Lexicon.shader.lex c with
    | finished => trivial
    | broken notes => exact ⟨[], c, .refl c, .inl hlex⟩
    | token token c' =>
      obtain ⟨x, hx, -⟩ := Cursor.Lexes.of_lex hlex
      refine ⟨[x], hx, ?_⟩
      split <;> rfl

theorem token : (Parser.token .shader).Counts := by
  refine bind (fun _ c _ ↦ ⟨[], .refl c, rfl⟩) fun n ↦ ?_
  induction n with
  | zero => exact refuse
  | succ n ih =>
    rw [tokenWithin]
    refine lex.bind fun t ↦ ?_
    split
    · exact ih
    · exact pure t

/-- A loop that counts is given up only where reading stops. -/
theorem manyWithin {p : Parser α} (hp : p.Counts) (n : Nat) (limits : Limits) (c : Cursor)
    (e : Effort) : match Parser.manyWithin p n limits c e with
    | (.accepted _ _, _) => True
    | (.refused, _) => False
    | (.aborted notes, _) =>
      ∃ xs c', c.Lexes xs c' ∧ c'.Stops limits.steps (e.steps + xs.length) notes := by
  induction n generalizing c e with
  | zero => trivial
  | succ n ih =>
    have hfirst := hp limits c e
    rw [Parser.manyWithin]
    cases houtcome : p limits c e with
    | mk o e₁ =>
    rw [houtcome] at hfirst
    simp only [Bind.bind, optional, orElse, Functor.map, houtcome]
    cases o with
    | refused => trivial
    | aborted notes => exact hfirst
    | accepted a c₁ =>
      obtain ⟨xs, hxs, hsteps⟩ := hfirst
      have hrest := ih c₁ e₁
      dsimp only [Function.comp, Pure.pure]
      generalize Parser.manyWithin p n limits c₁ e₁ = outcome at hrest ⊢
      obtain ⟨o, e'⟩ := outcome
      cases o with
      | accepted as c' => trivial
      | refused => exact hrest
      | aborted notes =>
        obtain ⟨ys, c', hys, hstops⟩ := hrest
        refine ⟨xs ++ ys, c', hxs.trans hys, ?_⟩
        rwa [hsteps, Nat.add_assoc, ← List.length_append] at hstops

end Counts

end Parser

/-- A text without tokens is read up to where reading stops. -/
theorem stops_of_tokenize {t : Text} {error : ParseError} (h : tokenize t = .error error) :
    ∃ xs c, (Cursor.start t).Lexes xs c ∧ c.Stops defaultSteps xs.length error.notes := by
  have hcounts := Parser.Counts.token.manyWithin (t.size + 1) (.of defaultSteps t)
    (Cursor.start t) .none
  have hrun : (Parser.many (Parser.token .shader)).run defaultSteps t =
      Parser.manyWithin (Parser.token .shader) (t.size + 1) (.of defaultSteps t)
        (Cursor.start t) .none := rfl
  rw [tokenize, hrun] at h
  generalize Parser.manyWithin (Parser.token .shader) (t.size + 1) (.of defaultSteps t)
    (Cursor.start t) .none = outcome at h hcounts
  obtain ⟨o, e⟩ := outcome
  cases o with
  | accepted tokens c => cases h
  | refused => exact hcounts.elim
  | aborted notes =>
    obtain rfl := Except.error.inj h
    obtain ⟨xs, c, hxs, hstops⟩ := hcounts
    exact ⟨xs, c, hxs, (Nat.zero_add xs.length) ▸ hstops⟩

namespace Parser

/-- Tokens one behind the other are lexemes, and others that are ignored. -/
theorem Repeats.lexes {c c' : Cursor} {tokens : List Token}
    (h : (token .shader).Repeats c tokens c') : ∃ xs, c.Lexes xs c' := by
  induction h with
  | nil c => exact ⟨[], .refl c⟩
  | cons head _ ih =>
    obtain ⟨xs, x, hxs, -⟩ := head.lexes_token
    obtain ⟨ys, hys⟩ := ih
    exact ⟨_, hxs.trans hys⟩

end Parser

/-- A text with tokens is a chain of lexemes, of which the tokens are those that are not ignored. -/
theorem exists_chain_of_tokenize {t : Text} {tokens : List Token} (h : tokenize t = .ok tokens) :
    ∃ xs, t = join xs ∧ Along Heads xs [] ∧ tokens = tokensFrom 0 xs := by
  suffices hchain : ∃ xs, t = join xs ∧ Along Heads xs [] by
    obtain ⟨xs, rfl, halong⟩ := hchain
    exact ⟨xs, rfl, halong, tokens_eq_of_tokenize halong h⟩
  rw [tokenize] at h
  split at h
  · rename_i tokens' c e hrun
    have hcomes : (Parser.many (Parser.token .shader)).Comes (t.size + 1) (Cursor.start t)
        (.accepted tokens' c) := ⟨_, _, _, hrun⟩
    obtain ⟨xs, hxs⟩ := hcomes.yields.many.lexes
    have hroom : c.rest.length < t.size + 1 :=
      Nat.lt_succ_of_le (hxs.length_le.trans (Text.length_le_size t))
    have hrefused := hcomes.many_refused (fun h ↦ by
      obtain ⟨x, -, hx, -⟩ := h.yields.next
      exact hx.length_lt) (Nat.lt_succ_of_le (Text.length_le_size t))
    obtain ⟨ys, c', hys, -, hend⟩ : c.Ends := by
      rcases hrefused.bind_refused with ⟨_, _, _, hrounds⟩ | ⟨m, c₁, hm, hwithin⟩
      · cases (Prod.mk.inj hrounds).1
      · obtain ⟨rfl, rfl⟩ := hm.rounds
        exact hwithin.tokenWithin_refused hroom
    have hall := hxs.trans hys
    have halong := hall.along
    rw [hend] at halong
    refine ⟨xs ++ ys, ?_, halong⟩
    have hrest : t = join (xs ++ ys) ++ c'.rest := hall.rest
    rw [hrest, hend, List.append_nil]
  · cases h
  · cases h

/-! ### Layout -/

namespace Text

/-- The text in front of the other is nothing but runs of blanks, each as long as it can be,
comments up to the end of their line, and comments that are closed as often as they are opened. -/
inductive LayoutBefore : Text → Text → Prop
  | nil (rest : Text) : LayoutBefore [] rest
  | blanks {s t rest : Text} (hne : s ≠ []) (hblank : ∀ c ∈ s, isBlank c = true)
      (hlong : (t ++ rest).head?.any isBlank = false) (htail : LayoutBefore t rest) :
      LayoutBefore (s ++ t) rest
  | lineComment {s t rest : Text} (hopen : s.OpenComment)
      (hbreak : ∀ c ∈ (t ++ rest).head?, isLineBreak c = true) (htail : LayoutBefore t rest) :
      LayoutBefore (s ++ t) rest
  | blockComment {s t rest : Text} (hclosed : s.IsBlockComment) (htail : LayoutBefore t rest) :
      LayoutBefore (s ++ t) rest

/-- The spans in front of, between and behind tokens, from an offset on up to another. -/
def gaps (start stop : Nat) : List Token → List Span
  | [] => [Span.between start stop]
  | token :: tokens => Span.between start token.span.start :: gaps token.span.stop stop tokens

/-- In the span there is nothing but layout. -/
def IsLayoutAt (t : Text) (s : Span) : Prop :=
  ∃ front inside behind, t = front ++ (inside ++ behind) ∧ s = ⟨front.size, inside.size⟩ ∧
    LayoutBefore inside behind

/-- The tokens and the layout between them are all of the text. -/
structure Lossless (t : Text) (tokens : List Token) : Prop where
  /-- Each token ends before the next starts. -/
  ascending : tokens.Pairwise fun a b ↦ a.span.stop ≤ b.span.start
  nonempty : ∀ token ∈ tokens, 0 < token.span.size
  spelled : ∀ token ∈ tokens, t.slice? token.span = some token.text.toList
  kept : ∀ token ∈ tokens, Lexicon.shader.ignores token.kind = false
  layout : ∀ gap ∈ gaps 0 t.size tokens, t.IsLayoutAt gap

end Text

namespace Lexeme

variable {x : Lexeme} {xs ys : List Lexeme} {rest : Text}

/-- Ignored lexemes are layout in front of what stands behind them. -/
theorem layoutBefore_join (h : Along Heads xs rest) (hxs : Ignored xs) :
    (join xs).LayoutBefore rest := by
  induction xs with
  | nil => exact .nil rest
  | cons x xs ih =>
    obtain ⟨hx, hrest⟩ := h
    obtain ⟨hignored, hxs⟩ := List.forall_mem_cons.1 hxs
    have htail := ih hrest hxs
    have hkind : x.kind = .space ∨ x.kind = .comment := by
      simpa [Lexicon.ignores] using hignored
    rcases hkind with hkind | hkind
    · obtain ⟨hblank, hlong⟩ := hx.blanks hkind
      exact .blanks hx.ne_nil hblank hlong htail
    · rcases hx.comment_matched hkind with hline | hblock
      · obtain ⟨v, hv, hall, hbreak⟩ := of_lineComment hline
        exact .lineComment ⟨v, hv, hall⟩ hbreak htail
      · exact .blockComment (Scan.blockComment_eq_matched_iff.1 hblock).2 htail

/-- Between the tokens of a chain there is layout. The ignored lexemes `ys` have been passed since
the last token. -/
theorem layout_of_chain (front : Text) (h : Along Heads (ys ++ xs) []) (hys : Ignored ys) :
    ∀ gap ∈ Text.gaps front.size (front ++ join (ys ++ xs)).size
      (tokensFrom (front.size + (join ys).size) xs), (front ++ join (ys ++ xs)).IsLayoutAt gap := by
  induction xs generalizing front ys with
  | nil =>
    rw [List.append_nil] at h ⊢
    refine List.forall_mem_singleton.2 ⟨front, join ys, [], ?_, ?_, layoutBefore_join h hys⟩
    · rw [List.append_nil]
    · rw [Text.size_append, Span.between, Nat.add_sub_cancel_left]
  | cons x xs ih =>
    -- what is ignored is added to the gap that is open, and a token ends it
    by_cases hx : Lexicon.shader.ignores x.kind = true
    · rw [List.append_cons] at h ⊢
      have hrest := ih front h
        (List.forall_mem_append.2 ⟨hys, List.forall_mem_singleton.2 hx⟩)
      have hstart : front.size + (join (ys ++ [x])).size =
          front.size + (join ys).size + x.text.size := by
        rw [join_append, Text.size_append, join_cons, join_nil, List.append_nil, Nat.add_assoc]
      rw [hstart] at hrest
      rwa [tokensFrom, if_pos hx]
    · obtain ⟨hfront, hrest⟩ := along_append.1 h
      rw [List.append_nil] at hfront
      rw [tokensFrom, if_neg hx]
      refine List.forall_mem_cons.2 ⟨⟨front, join ys, join (x :: xs), ?_, ?_,
        layoutBefore_join hfront hys⟩, ?_⟩
      · rw [join_append]
      · show Span.between front.size (front.size + (join ys).size) = _
        rw [Span.between, Nat.add_sub_cancel_left]
      · have hchain : Along Heads ([] ++ xs) [] := hrest.2
        have hbehind := ih (front ++ (join ys ++ x.text)) hchain (List.forall_mem_nil _)
        have hsize : (front ++ (join ys ++ x.text)).size =
            front.size + (join ys).size + x.text.size := by
          rw [Text.size_append, Text.size_append, Nat.add_assoc]
        have htext : front ++ (join ys ++ x.text) ++ join ([] ++ xs) =
            front ++ join (ys ++ x :: xs) := by
          rw [List.nil_append, join_append, join_cons, List.append_assoc, List.append_assoc]
        rwa [hsize, htext, join_nil, Text.size_nil, Nat.add_zero] at hbehind

/-- Each token is a lexeme at the place where it stands in the text. -/
theorem exists_of_mem_tokensFrom {token : Token} {offset : Nat} (h : token ∈ tokensFrom offset xs) :
    ∃ front x behind, xs = front ++ x :: behind ∧ Lexicon.shader.ignores x.kind = false ∧
      token = x.token (offset + (join front).size) := by
  induction xs generalizing offset with
  | nil => exact absurd h List.not_mem_nil
  | cons x xs ih =>
    have hrest (h : token ∈ tokensFrom (offset + x.text.size) xs) : ∃ front y behind,
        x :: xs = front ++ y :: behind ∧ Lexicon.shader.ignores y.kind = false ∧
          token = y.token (offset + (join front).size) := by
      obtain ⟨front, y, behind, rfl, hy, rfl⟩ := ih h
      refine ⟨x :: front, y, behind, rfl, hy, ?_⟩
      rw [join_cons, Text.size_append, Nat.add_assoc]
    rw [tokensFrom] at h
    split at h
    · exact hrest h
    · rename_i hx
      rcases List.mem_cons.1 h with rfl | h
      · exact ⟨[], x, xs, rfl, Bool.eq_false_iff.2 hx, rfl⟩
      · exact hrest h

/-- The tokens are in the order of the text. -/
theorem ascending_tokensFrom (offset : Nat) (xs : List Lexeme) :
    (tokensFrom offset xs).Pairwise fun a b ↦ a.span.stop ≤ b.span.start := by
  induction xs generalizing offset with
  | nil => exact .nil
  | cons x xs ih =>
    rw [tokensFrom]
    split
    · exact ih _
    · refine List.pairwise_cons.2 ⟨fun token htoken ↦ ?_, ih _⟩
      obtain ⟨front, y, behind, -, -, rfl⟩ := exists_of_mem_tokensFrom htoken
      exact Nat.le_add_right (offset + x.text.size) _

/-- The tokens of a chain are read off its text without a loss. -/
theorem lossless_of_chain (h : Along Heads xs []) : (join xs).Lossless (tokensFrom 0 xs) where
  ascending := ascending_tokensFrom 0 xs
  nonempty token htoken := by
    obtain ⟨front, x, behind, rfl, -, rfl⟩ := exists_of_mem_tokensFrom htoken
    have hne := (along_append.1 h).2.1.ne_nil
    exact Nat.pos_of_ne_zero fun hzero ↦ hne (Text.size_eq_zero_iff.1 hzero)
  spelled token htoken := by
    obtain ⟨front, x, behind, rfl, -, rfl⟩ := exists_of_mem_tokensFrom htoken
    have hslice := Text.slice?_append (join front) x.text (join behind)
    rw [join_append, join_cons, ← List.append_assoc]
    simpa [token] using hslice
  kept token htoken := by
    obtain ⟨front, x, behind, -, hx, rfl⟩ := exists_of_mem_tokensFrom htoken
    exact hx
  layout :=
    have hchain : Along Heads ([] ++ xs) [] := h
    layout_of_chain [] hchain (List.forall_mem_nil _)

end Lexeme

/-- A text that has tokens is read without a loss. One that has none is a chain of lexemes up to a
comment that is not closed, to an exponent without digits, or to the last step that may be taken. -/
theorem tokenize_lossless (t : Text) :
    match tokenize t with
    | .ok tokens => t.Lossless tokens
    | .error error => ∃ xs rest, t = join xs ++ rest ∧ Along Heads xs rest ∧
      ((rest.OpensComment ∧ error.notes = [.invalid .blockComment]) ∨
        (rest.LacksExponent ∧ error.notes = []) ∨
        (defaultSteps ≤ xs.length ∧ error.notes = [.invalid .stepLimit])) := by
  cases htokens : tokenize t with
  | ok tokens =>
    obtain ⟨xs, rfl, halong, rfl⟩ := exists_chain_of_tokenize htokens
    exact lossless_of_chain halong
  | error error =>
    obtain ⟨xs, c, hxs, hstops⟩ := stops_of_tokenize htokens
    refine ⟨xs, c.rest, hxs.rest, hxs.along, ?_⟩
    rcases hstops with hbroken | hlimit
    · exact (Cursor.of_lex_broken hbroken).imp_right .inl
    · exact .inr (.inr hlimit)

end ShaderLink
