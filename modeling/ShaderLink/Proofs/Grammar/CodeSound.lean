import ShaderLink.Proofs.Grammar.Body

/-!
# Bodies are read as code

All that the rules for bodies read is in the language of bodies, whatever names are put in the place
of the references (`Run.Body.covers`). The proof is by induction on the run, one case for each thing
that a body can go on with.
-/

namespace ShaderLink

open Lexeme

/-! ### Tokens and lexemes -/

namespace Token

variable {t : Token} {s : String}

/-- The lexeme that a token is read from. -/
def lexeme (t : Token) : Lexeme :=
  ⟨t.kind, t.text.toList⟩

@[simp] theorem ofList_text_lexeme (t : Token) : String.ofList t.lexeme.text = t.text :=
  String.ofList_toList

/-- A token remembers its lexeme. -/
theorem lexeme_token (x : Lexeme) (offset : Nat) : (x.token offset).lexeme = x := by
  show (⟨x.kind, (String.ofList x.text).toList⟩ : Lexeme) = x
  rw [String.toList_ofList]

theorem lexeme_eq_symbol : t.lexeme = symbol s ↔ t.IsSymbol s :=
  ⟨fun h ↦ ⟨(Lexeme.mk.inj h).1, String.toList_inj.1 (Lexeme.mk.inj h).2⟩,
    fun h ↦ eq_symbol h.1 (t.ofList_text_lexeme.trans h.2)⟩

theorem IsSymbol.ne {closer : String} (h : t.IsSymbol s) (hne : t.text ≠ closer) : s ≠ closer :=
  fun heq ↦ hne (h.2.trans heq)

/-- A name is a path of one segment. -/
theorem IsName.mem_paths (h : t.IsName) {ts : List Lexeme}
    (hts : ts ∈ ({[t.lexeme]} : Language Lexeme)) : ts ∈ paths :=
  ⟨t.lexeme, [], [], ⟨h.1, by rw [ofList_text_lexeme]; exact h.2⟩, .nil, .nil, Eq.symm hts⟩

end Token

theorem Reading.forall_mem_groups : ∀ p ∈ groups, p ∈ brackets ∧ p.2 ≠ "(" := by
  decide

/-- Between the cursors stand words behind separators. The last of them ends where the second cursor
stands, and with a word in front they end with a word. -/
structure Cursor.LexesSteps (separator : String) (c : Cursor) (tokens : List Token)
    (xs : List Lexeme) (c' : Cursor) : Prop where
  lexes : c.Lexes xs c'
  steps : Steps separator (significant xs)
  stop : ∀ last : Token, last.span.stop = c.offset →
    (tokens.getLastD last).span.stop = c'.offset
  word : ∀ x : Lexeme, x.kind = .word → ∃ y ∈ (x :: xs).getLast?, y.kind = .word

namespace Cursor.LexesSteps

variable {separator separator' : String} {c c₁ c' : Cursor} {tokens tokens' : List Token}
  {xs ys : List Lexeme}

theorem nil (c : Cursor) : c.LexesSteps separator [] [] c :=
  ⟨.refl c, .nil, fun _ h ↦ h, fun x hx ↦ ⟨x, rfl, hx⟩⟩

/-- A path ends where the cursor stands behind its last word. -/
theorem stop_append (h : c.LexesSteps separator tokens xs c₁)
    (h' : c₁.LexesSteps separator' tokens' ys c') {first : Token}
    (hfirst : first.span.stop = c.offset) :
    ((first :: (tokens ++ tokens')).getLastD first).span.stop = c'.offset := by
  rw [List.getLastD_cons, List.getLastD_eq_getLast?, List.getLast?_append, Option.getD_or,
    ← List.getLastD_eq_getLast?, ← List.getLastD_eq_getLast?]
  exact h'.stop _ (h.stop _ hfirst)

/-- A path ends with a word. -/
theorem word_append (h : c.LexesSteps separator tokens xs c₁)
    (h' : c₁.LexesSteps separator' tokens' ys c') {x : Lexeme} (hx : x.kind = .word) :
    ∃ y ∈ (x :: (xs ++ ys)).getLast?, y.kind = .word := by
  obtain ⟨y, hy, hyword⟩ := h.word x hx
  obtain ⟨z, hz, hzword⟩ := h'.word y hyword
  refine ⟨z, ?_, hzword⟩
  obtain ⟨front, hfront⟩ := List.getLast?_eq_some_iff.1 hy
  rw [← List.cons_append, hfront, List.append_assoc, List.getLast?_append]
  show (((y :: ys).getLast?).or _) = some z
  rw [hz]
  rfl

end Cursor.LexesSteps

namespace Parser

variable {n : Nat} {c c₀ c₁ c' : Cursor} {token : Token}

/-! ### Words and paths -/

namespace Yields

/-- The token that is read is the next lexeme. -/
theorem next_token (h : (Parser.token .shader).Yields c token c') : c.Next token.lexeme c' := by
  obtain ⟨x, offset, hnext, rfl⟩ := h.next
  rwa [Token.lexeme_token]

/-- A symbol covers itself and nothing can take its place. -/
theorem covers_isSymbol {s : String} (h : (Parser.token .shader).Yields c token c')
    (hsymbol : token.IsSymbol s) : c.Covers {[symbol s]} [] c' := by
  rw [← Token.lexeme_eq_symbol.2 hsymbol]
  exact .next h.next_token

theorem covers_isReserved {s : String} (h : (Parser.token .shader).Yields c token c')
    (hreserved : token.IsReserved s) : c.Covers {[keyword s]} [] c' := by
  rw [← eq_keyword (x := token.lexeme) hreserved.1 (token.ofList_text_lexeme.trans hreserved.2)]
  exact .next h.next_token

theorem covers_symbol {s : String} (h : (sign s).Yields c token c')
    (hs : ¬Text.StartsWord s.toList ∧ s.toList.head? ≠ some '#') :
    c.Covers {[symbol s]} [] c' :=
  .next (h.next_symbol hs)

/-- The group of a single word. -/
theorem covers_word (h : Parser.word.Yields c token c') : c.Covers words [token.span] c' := by
  obtain ⟨htoken, haccepts⟩ := h.tokenIf
  obtain ⟨xs, x, hlexes, hxs, -, rfl⟩ := htoken.lexes_token
  have hx : x.kind = .word := beq_iff_eq.1 haccepts
  have hgroup := Cursor.Covers.of_group (g := ⟨[x], true, fun _ ↦ ⟨⟨x, rfl, hx⟩, x, rfl, hx⟩⟩)
    hlexes hxs rfl
  rw [join_cons, join_nil, List.append_nil] at hgroup
  refine hgroup.mono ?_ (.refl _)
  rintro ts (rfl | ⟨y, hy, rfl⟩)
  · refine ⟨x, hx, (significant_singleton ?_).symm⟩
    rw [hx]
    rfl
  · exact ⟨y, hy.1, rfl⟩

/-- A name can be replaced by every other. -/
theorem covers_name (h : Parser.name.Yields c token c') : c.Covers names [token.span] c' := by
  obtain ⟨htoken, haccepts⟩ := h.tokenIf
  obtain ⟨xs, x, hlexes, hxs, -, rfl⟩ := htoken.lexes_token
  simp only [Bool.and_eq_true, beq_iff_eq, Bool.not_eq_true'] at haccepts
  have hx : x.IsName := haccepts
  have hgroup := Cursor.Covers.of_group
    (g := ⟨[x], true, fun _ ↦ ⟨⟨x, rfl, hx.1⟩, x, rfl, hx.1⟩⟩) hlexes hxs rfl
  rw [join_cons, join_nil, List.append_nil] at hgroup
  refine hgroup.mono ?_ (.refl _)
  rintro ts (rfl | ⟨y, hy, rfl⟩)
  · refine ⟨x, hx, (significant_singleton ?_).symm⟩
    rw [hx.1]
    rfl
  · exact ⟨y, hy, rfl⟩

/-- Words behind separators, the last of which ends where the cursor stands. -/
theorem lexes_steps {separator : String} {tokens : List Token}
    (hs : ¬Text.StartsWord separator.toList ∧ separator.toList.head? ≠ some '#')
    (h : (Parser.many (sign separator *> word)).Yields c tokens c') :
    ∃ xs, Cursor.LexesSteps separator c tokens xs c' := by
  have hrepeats := h.many
  clear h
  induction hrepeats with
  | nil c => exact ⟨[], .nil c⟩
  | cons head tail ih =>
    rename_i c c₁ c' token tokens
    obtain ⟨mark, c₂, hmark, hword⟩ := head.seqRight
    obtain ⟨ys, hys, hignored, hkept⟩ := hmark.next_symbol hs
    obtain ⟨htoken, haccepts⟩ := hword.tokenIf
    obtain ⟨zs, x, hzs, hignored', hkept', rfl⟩ := htoken.lexes_token
    obtain ⟨xs, hxs⟩ := ih
    have hx : x.kind = .word := beq_iff_eq.1 haccepts
    -- what is ignored in front of the separator and of the word is passed as well
    refine ⟨(ys ++ [symbol separator]) ++ (zs ++ [x]) ++ xs, (hys.trans hzs).trans hxs.lexes, ?_,
      fun last _ ↦ ?_, fun y _ ↦ ?_⟩
    · simp only [significant_append, significant_eq_nil hignored, significant_eq_nil hignored',
        significant_singleton hkept, significant_singleton hkept']
      exact .cons hx hxs.steps
    · rw [List.getLastD_cons]
      refine hxs.stop _ ?_
      show c₂.offset + (join zs).size + x.text.size = c₁.offset
      rw [hzs.offset, join_append, Text.size_append, Nat.add_assoc]
      simp
    · obtain ⟨z, hz, hzword⟩ := hxs.word x hx
      refine ⟨z, ?_, hzword⟩
      rw [List.append_assoc, List.append_assoc zs, ← List.append_assoc, ← List.cons_append,
        List.getLast?_append]
      show (((x :: xs).getLast?).or _) = some z
      rw [hz]
      rfl

end Yields

namespace Comes

variable {separator : String}

/-- A word behind a separator takes up some of the text. -/
theorem length_lt_of_step (h : (sign separator *> word).Yields c token c') :
    c'.rest.length < c.rest.length := by
  obtain ⟨mark, c₁, hmark, hword⟩ := h.seqRight
  obtain ⟨x, hx, -⟩ := hmark.next_sign
  obtain ⟨y, hy, -⟩ := hword.next_word
  exact hy.length_lt.trans hx.length_lt

/-- Where no word behind a separator is read, none is next. -/
theorem not_startsStep (hs : ¬Text.StartsWord separator.toList ∧ separator.toList.head? ≠ some '#')
    (hc : c.rest.length < n) (h : (sign separator *> word).Comes n c .refused) :
    ¬c.StartsStep separator := by
  rintro ⟨x, c₁, c₂, hx, hmark, hword⟩
  obtain ⟨offset, hsign⟩ :=
    Meets.sign hmark hc ((hmark.heads.is_iff_symbol hs.1 hs.2).2 rfl)
  obtain ⟨offset', hmeets⟩ := Meets.word hword (hmark.length_le.trans_lt hc) hx
  cases (hsign.seqRight hmeets).eq_of_comes
    ((Steady.tokenIf _ _).bind fun _ ↦ .tokenIf _ _) h (by simp)

/-- The words behind separators are read to the last. -/
theorem not_startsStep_of_many {tokens : List Token}
    (hs : ¬Text.StartsWord separator.toList ∧ separator.toList.head? ≠ some '#')
    (hc : c.rest.length < n)
    (h : (Parser.many (sign separator *> word)).Comes n c (.accepted tokens c')) :
    ¬c'.StartsStep separator := by
  obtain ⟨xs, hxs⟩ := h.yields.lexes_steps hs
  exact not_startsStep hs (hxs.lexes.length_le.trans_lt hc)
    (h.many_refused (fun h ↦ length_lt_of_step h.yields) hc)

/-- The group of a path, which does not go on behind it. -/
theorem covers_path {first : Token} {path : List String} {span : Span} {called : Bool}
    (hfirst : (Parser.token .shader).Yields c₀ first c) (hword : first.kind = .word)
    (hname : isKeyword first.text = false) (hc : c.rest.length < n)
    (h : (referencePath first).Comes n c (.accepted (path, span, called) c')) :
    c₀.Covers paths [span] c' ∧ ¬c'.StartsStep "::" := by
  obtain ⟨xs, x, hlexes, hxs, -, rfl⟩ := hfirst.lexes_token
  obtain ⟨colons, c₁, hcolons, h⟩ := Comes.bind h
  obtain ⟨dots, c₂, hdots, h⟩ := h.bind
  obtain ⟨heq, rfl⟩ := h.pure
  obtain ⟨-, hspan⟩ := Prod.mk.inj heq
  obtain ⟨rfl, -⟩ := Prod.mk.inj hspan
  have hend : ¬c₁.StartsStep "::" := not_startsStep_of_many (by decide) hc hcolons
  obtain ⟨ys, hys⟩ := hcolons.yields.lexes_steps (by decide)
  -- whether dots were taken or not, no further separator follows
  have hdots : ¬c₂.StartsStep "::" ∧ ∃ zs, c₁.LexesSteps "." (dots.getD []) zs c₂ := by
    rcases hdots.optional with ⟨tokens, htokens, rfl⟩ | ⟨rfl, rfl, -⟩
    · obtain ⟨tokens', c₃, hmany, h⟩ := Comes.bind htokens
      obtain ⟨paren, c₄, hpeek, h⟩ := h.bind
      obtain ⟨rfl, c₅, hparen⟩ := hpeek.peek
      obtain ⟨rfl, rfl⟩ := h.pure
      have hnext := hparen.yields.next_symbol (by decide)
      exact ⟨hnext.not_startsStep (by decide), hmany.yields.lexes_steps (by decide)⟩
    · exact ⟨hend, [], .nil c₁⟩
  obtain ⟨hpath, zs, hzs⟩ := hdots
  refine ⟨?_, hpath⟩
  have hall := (hlexes.trans hys.lexes).trans hzs.lexes
  rw [List.append_assoc, List.append_assoc, List.singleton_append] at hall
  -- the path is one group, which a single word can take the place of
  have hgroup := Cursor.Covers.of_group (g := ⟨x :: (ys ++ zs), true, fun _ ↦
    ⟨⟨x, rfl, hword⟩, hys.word_append hzs hword⟩⟩) hall hxs rfl
  have hsize : (join (x :: (ys ++ zs))).size = c₂.offset - (c₀.offset + (join xs).size) := by
    rw [hall.offset, join_append, Text.size_append]
    omega
  have hfirst : (x.token (c₀.offset + (join xs).size)).span.stop = c.offset := by
    show c₀.offset + (join xs).size + x.text.size = c.offset
    rw [hlexes.offset, join_append, Text.size_append, Nat.add_assoc]
    simp
  refine hgroup.mono ?_ ?_
  · rintro ts (rfl | ⟨y, hy, rfl⟩)
    · have hsig : significant (x :: (ys ++ zs)) = x :: (significant ys ++ significant zs) := by
        rw [← significant_append, significant, List.filter_cons_of_pos (by
          rw [show x.kind = .word from hword]; rfl)]
        rfl
      exact ⟨x, _, _, ⟨hword, hname⟩, hys.steps, hzs.steps, hsig.symm⟩
    · exact ⟨y, [], [], hy, .nil, .nil, rfl⟩
  · rw [hys.stop_append hzs hfirst, hsize]
    exact .refl _

end Comes

/-! ### Parts that may be missing -/

/-- Arguments may be missing. -/
theorem covers_no_arguments (c : Cursor) : c.Covers arguments [] c :=
  (Cursor.Covers.refl c).mono (fun _ hts ↦ .inl hts) (.refl _)

/-- Parentheses around a body are arguments. -/
theorem covers_arguments {spans : List Span} (hparen : (sign "(").Yields c token c₁)
    (hinside : c₁.Covers (bodies ")") spans c') : c.Covers arguments spans c' :=
  ((hparen.covers_symbol (by decide)).trans hinside).mono
    (fun _ hts ↦ .inr (exists_of_mem_bracketed hts)) (.refl _)

theorem covers_no_template (c : Cursor) : c.Covers templates [] c :=
  (Cursor.Covers.refl c).mono (fun _ hts ↦ .inl hts) (.refl _)

theorem covers_template {spans : List Span} (hbracket : (sign "<").Yields c token c₁)
    (hinside : c₁.Covers (bodies ">") spans c') : c.Covers templates spans c' :=
  ((hbracket.covers_symbol (by decide)).trans hinside).mono (fun _ hts ↦ .inr hts) (.refl _)

end Parser

/-! ### Bodies -/

/-- A declaration that is held back leads to no element. -/
theorem forall_mem_held_child? {pending : List Event} (h : ∀ e ∈ pending, e.child? = none)
    (x : Token) : ∀ e ∈ pending ++ [.declare x.text x.span], e.child? = none :=
  List.forall_mem_append.2 ⟨h, List.forall_mem_singleton.2 rfl⟩

/-- What is left of a list of spans if those of some of its events may be left out. -/
theorem childSpans_ite_sublist (p : Prop) [Decidable p] (events : List Event) :
    (childSpans (if p then events else [])).Sublist (childSpans events) := by
  split
  · exact .refl _
  · exact List.nil_sublist _

namespace Run

open ShaderLink.Parser

variable {n : Nat} {c c' : Cursor} {events pending : List Event}

/-- A body is read as code up to the symbol that closes it. -/
theorem Body.covers {closer previous : String} {mode : BodyMode}
    (h : Run.Body n closer mode previous pending c events c') (hcloser : closer ≠ "(")
    (hpending : ∀ e ∈ pending, e.child? = none) (hc : c.rest.length < n) :
    c.Covers (bodies closer) (childSpans events) c' := by
  induction h with
  | close ht hsymbol =>
    refine (ht.covers_isSymbol hsymbol).mono (fun ts hts ↦ ⟨[], .nil, Eq.symm hts⟩) ?_
    rw [childSpans, List.filterMap_eq_nil_iff.2 hpending]
  | statement ht hsymbol hne _ ih =>
    have hread := ht.covers_isSymbol hsymbol
    have hrest := ih hcloser (List.forall_mem_nil _) (hread.length_le.trans_lt hc)
    rw [childSpans_append, childSpans, List.filterMap_eq_nil_iff.2 hpending]
    refine (hread.trans hrest).mono (plain_mul_bodies ⟨by decide, by rintro ⟨⟩⟩ ?_) (.refl _)
    exact fun heq ↦ hsymbol.ne hne (symbol_inj.1 heq)
  | block ht hsymbol hne _ _ ihinside ih =>
    have hread := ht.covers_isSymbol hsymbol
    have hc₁ := hread.length_le.trans_lt hc
    have hinside := ihinside (by decide) (List.forall_mem_nil _) hc₁
    have hrest := ih hcloser hpending (hinside.length_le.trans_lt hc₁)
    refine ((hread.trans hinside).trans hrest).mono
      (bracketed_mul_bodies (by decide) (hsymbol.ne hne)) ?_
    simp [Event.child?]
  | group ht hsymbol hlast hne _ _ ihinside ih =>
    have hread := ht.covers_isSymbol ⟨hsymbol, rfl⟩
    have hc₁ := hread.length_le.trans_lt hc
    obtain ⟨hbracket, hopen⟩ := Reading.forall_mem_groups _ hlast
    have hinside := ihinside hopen (List.forall_mem_nil _) hc₁
    have hrest := ih hcloser hpending (hinside.length_le.trans_lt hc₁)
    rw [childSpans_append]
    exact ((hread.trans hinside).trans hrest).mono (bracketed_mul_bodies hbracket hne) (.refl _)
  | mark ht hsymbol _ hwhich _ _ ih =>
    have hfront := (ht.covers_isSymbol hsymbol).trans hwhich.covers_word
    have hrest := ih hcloser hpending (hfront.length_le.trans_lt hc)
    exact ((hfront.trans (covers_no_arguments _)).trans hrest).mono (mark_mul_bodies hcloser)
      (List.sublist_append_right _ _)
  | arguments ht hsymbol _ hwhich hparen _ _ ihinside ih =>
    have hfront := (ht.covers_isSymbol hsymbol).trans hwhich.covers_word
    have hc₂ := hfront.length_le.trans_lt hc
    have hc₃ := (hparen.covers_symbol (by decide)).length_le.trans_lt hc₂
    have hargs := covers_arguments hparen (ihinside (by decide) (List.forall_mem_nil _) hc₃)
    have hrest := ih hcloser hpending (hargs.length_le.trans_lt hc₂)
    refine ((hfront.trans hargs).trans hrest).mono (mark_mul_bodies hcloser) ?_
    rw [childSpans_append]
    exact ((childSpans_ite_sublist _ _).trans (List.sublist_append_right _ _)).append (.refl _)
  | member ht hsymbol _ hx _ ih =>
    have hfront := (ht.covers_isSymbol hsymbol).trans hx.covers_word
    have hrest := ih hcloser hpending (hfront.length_le.trans_lt hc)
    exact (hfront.trans hrest).mono member_mul_bodies (List.sublist_append_right _ _)
  | dot ht hsymbol _ hrefused _ ih =>
    have hread := ht.covers_isSymbol hsymbol
    have hc₁ := hread.length_le.trans_lt hc
    have hrest := ih hcloser hpending hc₁
    -- the body goes on, and not with a word, since the reader has refused one
    obtain ⟨y, c₂, hnext⟩ := hrest.exists_next (by rintro ⟨us, -, heq⟩; simp at heq)
    have hword : y.kind ≠ .word := fun hword ↦ by
      obtain ⟨offset, hmeets⟩ := Meets.word hnext hc₁ hword
      cases hmeets.eq_of_comes (.tokenIf _ _) hrefused (by simp)
    exact (hread.trans (hrest.notWordFirst hnext hword)).mono dot_mul_bodies (.refl _)
  | loop ht hfor hparen _ hbrace _ _ ihheader ihinside ih =>
    have hread := ht.covers_isReserved hfor
    have hc₁ := hread.length_le.trans_lt hc
    have hparen := hparen.covers_symbol (by decide)
    have hc₂ := hparen.length_le.trans_lt hc₁
    have hheader := ihheader (by decide) (List.forall_mem_nil _) hc₂
    have hc₃ := hheader.length_le.trans_lt hc₂
    have hbrace := hbrace.covers_symbol (by decide)
    have hc₄ := hbrace.length_le.trans_lt hc₃
    have hinside := ihinside (by decide) (List.forall_mem_nil _) hc₄
    have hrest := ih hcloser hpending (hinside.length_le.trans_lt hc₄)
    refine (((hread.trans (hparen.trans hheader)).trans (hbrace.trans hinside)).trans hrest).mono
      loop_mul_bodies ?_
    simp [Event.child?]
  | declare ht hword hdeclares hx _ ih =>
    have hread := ht.covers_isReserved ⟨hword, rfl⟩
    have hx := hx.covers_name
    have hfront := (hread.trans (covers_no_template _)).trans hx
    have hrest := ih hcloser (forall_mem_held_child? hpending _) (hfront.length_le.trans_lt hc)
    exact (hfront.trans hrest).mono (declare_mul_bodies hdeclares) (List.sublist_append_right _ _)
  | template ht hword hdeclares hbracket _ hx _ ihinside ih =>
    have hread := ht.covers_isReserved ⟨hword, rfl⟩
    have hc₁ := hread.length_le.trans_lt hc
    have hc₂ := (hbracket.covers_symbol (by decide)).length_le.trans_lt hc₁
    have hargs := covers_template hbracket (ihinside (by decide) (List.forall_mem_nil _) hc₂)
    have hfront := (hread.trans hargs).trans hx.covers_name
    have hrest := ih hcloser (forall_mem_held_child? hpending _) (hfront.length_le.trans_lt hc)
    exact (hfront.trans hrest).mono (declare_mul_bodies hdeclares) (List.sublist_append_right _ _)
  | keyword ht hword hkeyword hfor hdeclares _ ih =>
    have hread := Cursor.Covers.next ht.next_token
    have hrest := ih hcloser hpending (hread.length_le.trans_lt hc)
    refine (hread.trans hrest).mono (plain_mul_bodies ⟨fun hsymbol ↦ ?_, fun _ ↦ ?_⟩ ?_) (.refl _)
    · cases hword.symm.trans hsymbol
    · rw [Token.ofList_text_lexeme]
      exact ⟨hkeyword, hfor, hdeclares⟩
    · intro heq
      cases hword.symm.trans (congrArg Lexeme.kind heq)
  | parameter ht hname hcolon _ ih =>
    have hread :=
      (Cursor.Covers.next ht.next_token).mono (fun ts hts ↦ hname.mem_paths hts) (.refl _)
    -- the colon behind a parameter is no separator of paths
    have hend := (hcolon.next_symbol (by decide)).not_startsStep
      (show symbol ":" ≠ symbol "::" by decide)
    have hrest := ih hcloser hpending (hread.length_le.trans_lt hc)
    exact (hread.trans (hrest.notStepFirst hend)).mono path_mul_bodies (.refl _)
  | reference ht hname _ hpath _ ih =>
    have hc₁ := ht.next_token.length_le.trans_lt hc
    obtain ⟨hpath, hend⟩ := hpath.covers_path ht hname.1 hname.2 hc₁
    have hrest := ih hcloser hpending (hpath.length_le.trans_lt hc)
    exact (hpath.trans (hrest.notStepFirst hend)).mono path_mul_bodies (.refl _)
  | other ht hword hsymbol _ ih =>
    have hread := Cursor.Covers.next ht.next_token
    have hrest := ih hcloser hpending (hread.length_le.trans_lt hc)
    refine (hread.trans hrest).mono (plain_mul_bodies ⟨fun hkind ↦ ?_, fun h ↦ absurd h hword⟩ ?_)
      (.refl _)
    · rw [Token.ofList_text_lexeme]
      exact fun hmem ↦ hsymbol hkind (List.mem_cons_of_mem _ (List.mem_cons_of_mem _ hmem))
    · intro heq
      obtain ⟨hkind, htext⟩ := Token.lexeme_eq_symbol.1 heq
      exact hsymbol hkind (htext ▸ List.mem_cons_self)

end Run

/-- What is read as a body stays one, whatever names are put in for its references. -/
theorem Parser.Comes.covers_bodyUntil {n : Nat} {c c' : Cursor} {events : List Event}
    {closer : String} {mode : Parser.BodyMode} (hcloser : closer ≠ "(") (hc : c.rest.length < n)
    (h : (Parser.bodyUntil closer mode).Comes n c (.accepted events c')) :
    c.Covers (bodies closer) (childSpans events) c' :=
  h.run_bodyUntil.covers hcloser (List.forall_mem_nil _) hc

end ShaderLink
