import ShaderLink.Proofs.Token.Number

/-!
# Lexemes do not depend on what stands behind them

A lexeme is read the same in front of all texts of the same start (`Lexeme.Heads.of_sameStart`):
each of the rules for shader code finds there what it found before, or again nothing (`Scan.Stays`).

Numbers are the exception. What a number may go on with, as the letter of an exponent, also starts
identifiers, and so nothing is said about a number directly in front of an identifier.
-/

namespace ShaderLink

namespace Scan

open Text

variable {p : Char → Bool} {s t u u' : Text}

/-! ### Rules -/

/-- A rule that finds `s` in front of `u`, or nothing there, finds the same in front of `u'`. -/
structure Stays (rule : Text → Scan) (s u u' : Text) : Prop where
  missed : rule (s ++ u) = missed → rule (s ++ u') = missed
  matched : rule (s ++ u) = matched s u → rule (s ++ u') = matched s u'

/-- If the first rule finds nothing in front of the one text, it finds nothing in front of the
other, and the second rule decides for both. -/
theorem Stays.orElse {first second : Text → Scan} (hf : Stays first s u u')
    (hs : Stays second s u u') : Stays (fun t ↦ (first t).orElse (second t)) s u u' where
  missed h := by
    obtain ⟨hfirst, hsecond⟩ := orElse_eq_missed_iff.1 h
    exact orElse_eq_missed_iff.2 ⟨hf.missed hfirst, hs.missed hsecond⟩
  matched h := by
    cases hfirst : first (s ++ u) with
    | matched lexeme rest =>
      rw [hfirst] at h
      rw [hf.matched (hfirst.trans h)]
      rfl
    | missed =>
      rw [hfirst] at h
      rw [hf.missed hfirst]
      exact hs.matched h
    | broken notes =>
      rw [hfirst] at h
      cases h

/-- A single character is there or not, whatever is behind it. -/
theorem stays_one (hne : s ≠ []) : Stays (one p) s u u' := by
  cases s with
  | nil => exact absurd rfl hne
  | cons c s =>
    constructor
    · simp only [List.cons_append, one]
      split <;> simp
    · simp only [List.cons_append, one]
      split
      · intro hone
        obtain ⟨hs, -⟩ := matched.inj hone
        obtain rfl := (List.cons.inj hs).2
        rfl
      · rintro ⟨⟩

/-- Two fixed characters, the second of which starts no identifier, stand at the start of both
texts or of none. -/
theorem exists_pair_iff (h : SameStart u u') (hne : s ≠ []) {a b : Char}
    (hb : isIdentifierStart b = false ∧ b ≠ '_') :
    (∃ rest, s ++ u = a :: b :: rest) ↔ ∃ rest, s ++ u' = a :: b :: rest := by
  have hsecond : u.head?.any (· == b) = u'.head?.any (· == b) := by
    refine h.any_head? (fun c hc ↦ beq_eq_false_iff_ne.2 ?_) (beq_eq_false_iff_ne.2 hb.2.symm)
    rintro rfl
    rw [hc] at hb
    cases hb.1
  cases s with
  | nil => exact absurd rfl hne
  | cons c s =>
    cases s with
    | nil =>
      have hiff (v : Text) : (∃ rest, [c] ++ v = a :: b :: rest) ↔
          c = a ∧ v.head?.any (· == b) = true := by
        cases v <;> simp
      rw [hiff, hiff, hsecond]
    | cons d s => simp

/-- An identifier that starts goes on as far as it can. -/
theorem identifier_of_startsWord {c : Char} (hstarts : StartsWord (c :: t)) :
    identifier (c :: t) = matched (c :: (splitWhile isIdentifierRest t).1)
      (splitWhile isIdentifierRest t).2 := by
  rw [identifier]
  rcases hstarts with hc | ⟨rfl, hmore⟩
  · have hne : c ≠ '_' := by
      rintro rfl
      cases hc
    rw [if_neg hne, if_pos hc]
  · cases t with
    | nil => cases hmore
    | cons d t =>
      have hd : isIdentifierRest d = true := hmore
      simp [splitWhile, hd]

theorem identifier_of_not_startsWord (hstarts : ¬t.StartsWord) : identifier t = missed := by
  cases t with
  | nil => rfl
  | cons c t =>
    rw [identifier]
    by_cases hc : c = '_'
    · subst hc
      have hnone : t.head?.any isIdentifierRest = false :=
        Bool.eq_false_iff.2 fun hmore ↦ hstarts (.inr ⟨rfl, hmore⟩)
      have hsplit : splitWhile isIdentifierRest ([] ++ t) = ([], t) :=
        splitWhile_eq_iff.2 ⟨by simp, hnone⟩
      rw [List.nil_append] at hsplit
      simp [hsplit]
    · rw [if_neg hc, if_neg fun hstart ↦ hstarts (.inl hstart)]

theorem identifier_eq_missed_iff : identifier t = missed ↔ ¬t.StartsWord := by
  refine ⟨fun h hstarts ↦ ?_, identifier_of_not_startsWord⟩
  cases t with
  | nil => exact hstarts
  | cons c t =>
    rw [identifier_of_startsWord hstarts] at h
    cases h

/-- An identifier ends where no identifier can go on. -/
theorem exists_of_identifier (h : identifier (s ++ u) = matched s u) :
    ∃ c s', s = c :: s' ∧ (s ++ u).StartsWord ∧
      splitWhile isIdentifierRest (s' ++ u) = (s', u) := by
  cases s with
  | nil => exact absurd rfl (splits_identifier _ _ _ h).2
  | cons c s =>
    have hstarts : StartsWord ((c :: s) ++ u) := by
      refine not_imp_comm.1 identifier_of_not_startsWord ?_
      rw [h]
      rintro ⟨⟩
    have hfound := (identifier_of_startsWord hstarts).symm.trans h
    obtain ⟨hs, hu⟩ := matched.inj hfound
    exact ⟨c, s, rfl, hstarts, Prod.ext (List.cons.inj hs).2 hu⟩

/-- Only two slashes start a line comment. -/
theorem lineComment_eq_missed_iff :
    lineComment t = missed ↔ ¬∃ rest, t = '/' :: '/' :: rest := by
  rw [lineComment.eq_def]
  split
  · simp
  · rename_i hnot
    simpa using hnot

/-- Only a slash and an asterisk start a block comment. -/
theorem blockComment_eq_missed_iff :
    blockComment t = missed ↔ ¬∃ rest, t = '/' :: '*' :: rest := by
  rw [blockComment.eq_def]
  split
  · split <;> simp
  · rename_i hnot
    simpa using hnot

theorem blockComment_of_close {body rest : Text}
    (h : (closeComment t).map Subtype.val = some (body, rest)) :
    blockComment ('/' :: '*' :: t) = matched ('/' :: '*' :: body) rest := by
  obtain ⟨p, hp, hval⟩ := Option.map_eq_some_iff.1 h
  rw [blockComment, hp]
  dsimp only
  rw [hval]

/-- A comment inside of a comment is closed before the one around it. -/
theorem closeComment_nested {inside behind outside rest : Text}
    (hinside : (closeComment t).map Subtype.val = some (inside, behind))
    (houtside : (closeComment behind).map Subtype.val = some (outside, rest)) :
    (closeComment ('/' :: '*' :: t)).map Subtype.val =
      some ('/' :: '*' :: (inside ++ outside), rest) := by
  obtain ⟨⟨p, hp⟩, hclose, rfl⟩ := Option.map_eq_some_iff.1 hinside
  obtain ⟨⟨q, hq⟩, hclose', rfl⟩ := Option.map_eq_some_iff.1 houtside
  rw [closeComment.eq_3, hclose]
  dsimp only at hclose' ⊢
  rw [hclose']
  rfl

/-- A character that neither opens nor closes is passed. -/
theorem closeComment_cons {c : Char} {body rest : Text}
    (hclose : ∀ t', c = '*' → t = '/' :: t' → False)
    (hopen : ∀ t', c = '/' → t = '*' :: t' → False)
    (h : (closeComment t).map Subtype.val = some (body, rest)) :
    (closeComment (c :: t)).map Subtype.val = some (c :: body, rest) := by
  obtain ⟨⟨p, hp⟩, hbody, rfl⟩ := Option.map_eq_some_iff.1 h
  rw [closeComment.eq_4 c t hclose hopen, hbody]
  rfl

/-- The place where a comment is closed does not depend on what stands behind it. -/
theorem closeComment_local {body rest : Text}
    (h : (closeComment t).map Subtype.val = some (body, rest)) (u' : Text) :
    (closeComment (body ++ u')).map Subtype.val = some (body, u') := by
  fun_induction closeComment t generalizing body rest u' with
  | case1 => cases h
  | case2 t =>
    obtain ⟨rfl, -⟩ := Prod.mk.inj (Option.some.inj h)
    show (closeComment ('*' :: '/' :: u')).map Subtype.val = some (['*', '/'], u')
    rw [closeComment.eq_2]
    rfl
  | case3 t hnone ih => cases h
  | case4 => cases h
  | case5 t inside behind hlt hinside _ outside rest _ houtside ihinside ihoutside =>
    -- a comment inside is closed first, and then the one around it
    obtain ⟨rfl, -⟩ := Prod.mk.inj (Option.some.inj h)
    have hin := ihinside (by rw [hinside]; rfl) (outside ++ u')
    have hout := ihoutside (by rw [houtside]; rfl) u'
    have hnested := closeComment_nested hin hout
    rwa [← List.append_assoc] at hnested
  | case6 => cases h
  | case7 c t hclose hopen inside behind hlt hinside ih =>
    obtain ⟨rfl, -⟩ := Prod.mk.inj (Option.some.inj h)
    have ht : inside ++ behind = t := closeComment_append _ _ hinside
    cases inside with
    | nil =>
      rw [← ht] at hlt
      exact absurd hlt (Nat.lt_irrefl _)
    | cons d inside =>
      have hclose' : ∀ t', c = '*' → d :: inside ++ u' = '/' :: t' → False :=
        fun t' hc heq ↦ hclose (inside ++ behind) hc (by rw [← ht, (List.cons.inj heq).1]; rfl)
      have hopen' : ∀ t', c = '/' → d :: inside ++ u' = '*' :: t' → False :=
        fun t' hc heq ↦ hopen (inside ++ behind) hc (by rw [← ht, (List.cons.inj heq).1]; rfl)
      exact closeComment_cons hclose' hopen' (ih (by rw [hinside]; rfl) u')

/-- The word of a directive is an identifier behind a number sign. -/
theorem directiveWord_eq_missed_iff :
    Lexicon.directiveWord t = missed ↔ ∀ rest, t = '#' :: rest → ¬StartsWord rest := by
  rw [Lexicon.directiveWord.eq_def]
  split
  · rename_i t
    have hiff : (∀ rest, '#' :: t = '#' :: rest → ¬StartsWord rest) ↔ ¬StartsWord t :=
      ⟨fun h ↦ h t rfl, fun h rest heq ↦ (List.cons.inj heq).2 ▸ h⟩
    rw [hiff, ← identifier_eq_missed_iff]
    cases identifier t <;> simp
  · rename_i hnot
    exact iff_of_true rfl fun rest heq ↦ absurd heq (hnot rest)

theorem literal_eq_missed_iff {w : String} {a b : Char} (hw : w.toList = [a, b]) :
    literal w t = missed ↔ ¬∃ rest, t = a :: b :: rest := by
  rw [literal, Text.dropPrefix?, hw]
  have hiff : [a, b].isPrefixOf t = true ↔ ∃ rest, t = a :: b :: rest := by
    rw [List.isPrefixOf_iff_prefix]
    exact exists_congr fun rest ↦ eq_comm
  by_cases hprefix : [a, b].isPrefixOf t = true
  · rw [if_pos hprefix]
    exact iff_of_false (by rintro ⟨⟩) (not_not_intro (hiff.1 hprefix))
  · rw [if_neg hprefix]
    exact iff_of_true rfl fun hexists ↦ hprefix (hiff.2 hexists)

variable (h : SameStart u u')

include h

/-- A run stops where an identifier starts, if no identifier starts with one of its characters. -/
theorem stays_run (hne : s ≠ []) (hstart : ∀ c, isIdentifierStart c = true → p c = false)
    (hunderscore : p '_' = false) : Stays (run p) s u u' := by
  cases s with
  | nil => exact absurd rfl hne
  | cons c s =>
    constructor
    · simp only [List.cons_append, run]
      split <;> simp
    · intro hrun
      rw [List.cons_append, run] at hrun ⊢
      split at hrun
      · rename_i hc
        obtain ⟨hs, hu⟩ := matched.inj hrun
        have hsplit : splitWhile p (s ++ u) = (s, u) := Prod.ext (List.cons.inj hs).2 hu
        have hsplit' := splitWhile_of_any (h.any_head? hstart hunderscore) hsplit
        obtain ⟨hs', hu'⟩ := Prod.mk.inj hsplit'
        rw [if_pos hc, hs', hu']
      · cases hrun

/-- What follows an identifier cannot go on with it in either text. -/
theorem stays_identifier : Stays identifier s u u' where
  missed hmissed := by
    rw [identifier_eq_missed_iff] at hmissed ⊢
    rwa [← (h.append s).startsWord_iff]
  matched hmatched := by
    obtain ⟨c, s, rfl, hstarts, hsplit⟩ := exists_of_identifier hmatched
    have hstarts' : StartsWord (c :: (s ++ u')) := (h.append (c :: s)).startsWord_iff.1 hstarts
    have hnot : ¬u.StartsWord :=
      not_startsWord (fun _ hstart ↦ isIdentifierRest_of_isIdentifierStart hstart) rfl
        (splitWhile_eq_iff.1 hsplit).2
    rw [List.cons_append, identifier_of_startsWord hstarts',
      splitWhile_of_head? (h.head?_eq hnot) hsplit]

/-- A line comment stops at the line break, which starts no identifier. -/
theorem stays_lineComment (hne : s ≠ []) : Stays lineComment s u u' where
  missed hmissed := by
    rw [lineComment_eq_missed_iff] at hmissed ⊢
    rwa [← exists_pair_iff h hne (by decide)]
  matched hmatched := by
    generalize s ++ u = t at hmatched
    rw [lineComment.eq_def] at hmatched
    split at hmatched
    · rename_i t
      obtain ⟨rfl, rfl⟩ := matched.inj hmatched
      generalize hline : splitWhile (fun c ↦ !isLineBreak c) t = line at h ⊢
      obtain ⟨line, behind⟩ := line
      obtain rfl : line ++ behind = t := by
        have happend := splitWhile_append (fun c ↦ !isLineBreak c) t
        rwa [hline] at happend
      have hnot : ¬behind.StartsWord := by
        refine not_startsWord (fun c hstart ↦ ?_) rfl (splitWhile_eq_iff.1 hline).2
        have hblank := isBlank_eq_false hstart
        -- a line break is a blank, and no identifier starts with one
        have hbreak : isLineBreak c = false := Bool.eq_false_iff.2 fun hbreak ↦ by
          rw [isBlank_of_isLineBreak hbreak] at hblank
          cases hblank
        rw [hbreak, Bool.not_false]
      show lineComment ('/' :: '/' :: (line ++ u')) = matched ('/' :: '/' :: line) u'
      rw [lineComment, splitWhile_of_head? (h.head?_eq hnot) hline]
    · cases hmatched

/-- A block comment is closed inside of the lexeme. -/
theorem stays_blockComment (hne : s ≠ []) : Stays blockComment s u u' where
  missed hmissed := by
    rw [blockComment_eq_missed_iff] at hmissed ⊢
    rwa [← exists_pair_iff h hne (by decide)]
  matched hmatched := by
    generalize s ++ u = t at hmatched
    rw [blockComment.eq_def] at hmatched
    split at hmatched
    · rename_i t
      split at hmatched
      · rename_i p hclose
        obtain ⟨rfl, rfl⟩ := matched.inj hmatched
        exact blockComment_of_close (closeComment_local (by rw [hclose]; rfl) u')
      · cases hmatched
    · cases hmatched

theorem stays_directiveWord (hne : s ≠ []) : Stays Lexicon.directiveWord s u u' where
  missed hmissed := by
    rw [directiveWord_eq_missed_iff] at hmissed ⊢
    intro rest heq
    cases s with
    | nil => exact absurd rfl hne
    | cons c s =>
      obtain ⟨rfl, rfl⟩ := List.cons.inj heq
      exact fun hstarts ↦ hmissed _ rfl ((h.append s).startsWord_iff.2 hstarts)
  matched hmatched := by
    cases s with
    | nil => exact absurd rfl hne
    | cons c s =>
      generalize ht : (c :: s) ++ u = t at hmatched
      rw [Lexicon.directiveWord.eq_def] at hmatched
      split at hmatched
      · obtain ⟨rfl, rfl⟩ := List.cons.inj ht
        split at hmatched
        · rename_i lexeme rest hidentifier
          obtain ⟨hs, rfl⟩ := matched.inj hmatched
          obtain rfl := (List.cons.inj hs).2
          have hstays := (stays_identifier h).matched hidentifier
          show Lexicon.directiveWord ('#' :: (lexeme ++ u')) = matched ('#' :: lexeme) u'
          rw [Lexicon.directiveWord, hstays]
        · rename_i hother
          exact absurd hmatched (hother _ _)
      · cases hmatched

theorem stays_literal {w : String} {a b : Char} (hw : w.toList = [a, b])
    (hb : isIdentifierStart b = false ∧ b ≠ '_') (hne : s ≠ []) : Stays (literal w) s u u' where
  missed hmissed := by
    rw [literal_eq_missed_iff hw] at hmissed ⊢
    rwa [← exists_pair_iff h hne hb]
  matched hmatched := by
    rw [literal, Text.dropPrefix?] at hmatched
    split at hmatched
    · obtain ⟨rfl, -⟩ := matched.inj hmatched
      have hprefix : w.toList.isPrefixOf (w.toList ++ u') = true :=
        List.isPrefixOf_iff_prefix.2 (List.prefix_append _ _)
      rw [literal, Text.dropPrefix?, if_pos hprefix, List.drop_left]
    · cases hmatched

/-- Where no number starts, the first characters tell so. -/
theorem missed_number (hne : s ≠ []) (hmissed : number (s ++ u) = missed) :
    number (s ++ u') = missed := by
  rw [number_eq_missed_iff, decimal_eq_missed_iff] at hmissed ⊢
  obtain ⟨hdigit, hpoint⟩ := hmissed
  cases s with
  | nil => exact absurd rfl hne
  | cons c s =>
    refine ⟨hdigit, fun rest heq ↦ ?_⟩
    obtain ⟨rfl, rfl⟩ := List.cons.inj heq
    have hbehind := hpoint (s ++ u) rfl
    cases s with
    | nil =>
      have hany := h.any_head? (fun _ hstart ↦ isDigit_eq_false hstart) (by decide)
      exact hany.symm.trans hbehind
    | cons d s => exact hbehind

end Scan

/-! ### Lexemes -/

/-- A token without the place where it stands. -/
structure Lexeme where
  kind : TokenKind
  text : Text
deriving DecidableEq

namespace Lexeme

/-- The token that a lexeme is at an offset. -/
def token (x : Lexeme) (offset : Nat) : Token :=
  ⟨x.kind, String.ofList x.text, ⟨offset, x.text.size⟩⟩

/-- Kind and text of a lexeme can be seen in its token. -/
theorem token_injective {x y : Lexeme} {offset : Nat} (h : x.token offset = y.token offset) :
    x = y := by
  obtain ⟨kind, text⟩ := x
  obtain ⟨kind', text'⟩ := y
  obtain ⟨rfl, htext, -⟩ := Token.mk.inj h
  obtain rfl : text = text' := String.ofList_inj.1 htext
  rfl

/-- The first rule that finds something in front of the text finds the lexeme there, or none does
and the lexeme is a single character. -/
def FoundBy (x : Lexeme) (rest : Text) : List (TokenKind × (Text → Scan)) → Prop
  | [] => x.kind = .unknown ∧ x.text.length = 1
  | rule :: rules =>
    (x.kind = rule.1 ∧ rule.2 (x.text ++ rest) = .matched x.text rest) ∨
      (rule.2 (x.text ++ rest) = .missed ∧ x.FoundBy rest rules)

/-- The lexeme is read in front of the text. -/
def Heads (x : Lexeme) (rest : Text) : Prop :=
  x.FoundBy rest Lexicon.shader.rules

variable {x : Lexeme} {r r' rest : Text}

/-- The token that is read is a lexeme that some rule has found, or a single character. -/
theorem FoundBy.of_lexWith {rules : List (TokenKind × (Text → Scan))} {c next : Cursor}
    {token : Token} (hrules : ∀ rule ∈ rules, Scan.Splits c.rest (rule.2 c.rest))
    (h : c.lexWith rules = .token token next) :
    ∃ x : Lexeme, c.rest = x.text ++ next.rest ∧ x.FoundBy next.rest rules ∧
      token = x.token c.offset ∧ next.offset = c.offset + x.text.size := by
  induction rules with
  | nil =>
    rw [Cursor.lexWith] at h
    split at h
    · cases h
    · rename_i char rest hrest
      obtain ⟨rfl, rfl⟩ := Lexed.token.inj h
      exact ⟨⟨.unknown, [char]⟩, hrest, ⟨rfl, rfl⟩, rfl, rfl⟩
  | cons rule rules ih =>
    obtain ⟨kind, rule⟩ := rule
    rw [Cursor.lexWith] at h
    obtain ⟨hrule, hrules⟩ := List.forall_mem_cons.1 hrules
    split at h
    · rename_i lexeme rest hscan
      obtain ⟨rfl, rfl⟩ := Lexed.token.inj h
      have hsplit := (hrule lexeme rest hscan).1
      refine ⟨⟨kind, lexeme⟩, hsplit.symm, .inl ⟨rfl, ?_⟩, rfl, rfl⟩
      show rule (lexeme ++ rest) = .matched lexeme rest
      rw [hsplit, hscan]
    · rename_i hmissed
      obtain ⟨x, hrest, hfound, htoken, hnext⟩ := ih hrules h
      exact ⟨x, hrest, .inr ⟨by rwa [← hrest], hfound⟩, htoken, hnext⟩
    · cases h

/-- The other way round, a lexeme that the rules find is the token that is read. -/
theorem FoundBy.lexWith {rules : List (TokenKind × (Text → Scan))} (h : x.FoundBy rest rules)
    (offset : Nat) : (⟨x.text ++ rest, offset⟩ : Cursor).lexWith rules =
      .token (x.token offset) ⟨rest, offset + x.text.size⟩ := by
  induction rules with
  | nil =>
    obtain ⟨kind, text⟩ := x
    obtain ⟨rfl, hlength⟩ := h
    obtain ⟨char, rfl⟩ := List.length_eq_one_iff.1 hlength
    rfl
  | cons rule rules ih =>
    obtain ⟨kind, rule⟩ := rule
    rw [Cursor.lexWith]
    rcases h with ⟨hkind, hmatched⟩ | ⟨hmissed, hfound⟩
    · dsimp only at hkind hmatched
      rw [hmatched, ← hkind]
      rfl
    · dsimp only at hmissed
      rw [hmissed]
      exact ih hfound

/-- What is lexed is a lexeme in front of the rest. -/
theorem exists_of_lex {c next : Cursor} {token : Token}
    (h : Lexicon.shader.lex c = .token token next) :
    ∃ x : Lexeme, c.rest = x.text ++ next.rest ∧ x.Heads next.rest ∧ token = x.token c.offset ∧
      next.offset = c.offset + x.text.size :=
  FoundBy.of_lexWith (Lexicon.shader.splits_rule c.rest) h

/-- A lexeme in front of the rest is lexed. -/
theorem Heads.lex (h : x.Heads rest) (offset : Nat) :
    Lexicon.shader.lex ⟨x.text ++ rest, offset⟩ =
      .token (x.token offset) ⟨rest, offset + x.text.size⟩ :=
  FoundBy.lexWith h offset

/-- The rules find the lexeme in front of another text if each of them finds there what it found
before. -/
theorem FoundBy.congr {rules : List (TokenKind × (Text → Scan))} (h : x.FoundBy r rules)
    (hrules : ∀ rule ∈ rules, (rule.2 (x.text ++ r) = .missed → rule.2 (x.text ++ r') = .missed) ∧
      (x.kind = rule.1 → rule.2 (x.text ++ r) = .matched x.text r →
        rule.2 (x.text ++ r') = .matched x.text r')) : x.FoundBy r' rules := by
  induction rules with
  | nil => exact h
  | cons rule rules ih =>
    obtain ⟨⟨hmissed, hmatched⟩, hrules⟩ := List.forall_mem_cons.1 hrules
    rcases h with ⟨hkind, hfound⟩ | ⟨hnone, hfound⟩
    · exact .inl ⟨hkind, hmatched hkind hfound⟩
    · exact .inr ⟨hmissed hnone, ih hfound hrules⟩

theorem FoundBy.ne_nil {rules : List (TokenKind × (Text → Scan))} (h : x.FoundBy rest rules)
    (hrules : ∀ rule ∈ rules, Scan.Splits (x.text ++ rest) (rule.2 (x.text ++ rest))) :
    x.text ≠ [] := by
  induction rules with
  | nil =>
    intro hnil
    rw [FoundBy, hnil] at h
    cases h.2
  | cons rule rules ih =>
    obtain ⟨hrule, hrules⟩ := List.forall_mem_cons.1 hrules
    rcases h with ⟨-, hmatched⟩ | ⟨-, hfound⟩
    · exact (hrule _ _ hmatched).2
    · exact ih hfound hrules

theorem Heads.ne_nil (h : x.Heads rest) : x.text ≠ [] :=
  FoundBy.ne_nil h (Lexicon.shader.splits_rule _)

/-- A lexeme heads all texts of the same start, unless it is a number in front of an identifier. -/
theorem Heads.of_sameStart (h : x.Heads r) (hsame : r.SameStart r')
    (hnumber : x.kind = .number → ¬r.StartsWord) : x.Heads r' := by
  have hne := h.ne_nil
  have hstays {rule : Text → Scan} (hstays : Scan.Stays rule x.text r r') (kind : TokenKind) :
      (rule (x.text ++ r) = .missed → rule (x.text ++ r') = .missed) ∧
        (x.kind = kind → rule (x.text ++ r) = .matched x.text r →
          rule (x.text ++ r') = .matched x.text r') :=
    ⟨hstays.missed, fun _ ↦ hstays.matched⟩
  have hspace := Scan.stays_run hsame hne (fun c hc ↦ isBlank_eq_false hc) (by decide)
  have hcomment := (Scan.stays_lineComment hsame hne).orElse (Scan.stays_blockComment hsame hne)
  have hsymbol : Scan.Stays (Lexicon.symbol ["::", "->"] Lexicon.shaderSymbols) x.text r r' :=
    (Scan.stays_literal hsame rfl (by decide) hne).orElse
      ((Scan.stays_literal hsame rfl (by decide) hne).orElse (Scan.stays_one hne))
  refine FoundBy.congr h ?_
  simp only [Lexicon.rules, List.forall_mem_cons, List.not_mem_nil, false_imp_iff, implies_true,
    and_true]
  refine ⟨hstays hspace _, hstays hcomment _, hstays (Scan.stays_directiveWord hsame hne) _,
    ⟨Scan.missed_number hsame hne, fun hkind hmatched ↦ ?_⟩,
    hstays (Scan.stays_identifier hsame) _, hstays hsymbol _⟩
  have hnot := hnumber hkind
  exact Scan.number_of_head? (hsame.head?_eq hnot) (Text.any_isIdentifierStart_eq_false hnot)
    hmatched

end Lexeme

end ShaderLink
