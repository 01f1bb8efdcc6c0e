import ShaderLink.Grammar.Body
import ShaderLink.Grammar.Error
import ShaderLink.Proofs.Grammar.Meets
import ShaderLink.Proofs.Grammar.Yields
import ShaderLink.Proofs.Text.Cut
import ShaderLink.Proofs.Token.Chain

/-!
# What is read is a chain of lexemes

Reading a token of shader code passes ignored lexemes and one that is not (`Cursor.Next`). The other
way round, where such lexemes stand in a chain, the token is read (`Parser.Meets.token`). So if a
text has tokens at all, they are those of its chain (`tokens_eq_of_tokenize`).
-/

namespace ShaderLink

open Lexeme

/-- Between the cursors the lexemes are read. -/
structure Cursor.Lexes (c : Cursor) (xs : List Lexeme) (c' : Cursor) : Prop where
  rest : c.rest = join xs ++ c'.rest
  offset : c'.offset = c.offset + (join xs).size
  along : Along Heads xs c'.rest

namespace Cursor.Lexes

variable {c c₁ c' : Cursor} {x : Lexeme} {xs ys : List Lexeme} {token : Token}

theorem refl (c : Cursor) : c.Lexes [] c :=
  ⟨rfl, rfl, trivial⟩

/-- Lexemes that are read one behind the other are read in turn. -/
theorem trans (h : c.Lexes xs c₁) (h' : c₁.Lexes ys c') : c.Lexes (xs ++ ys) c' where
  rest := by rw [h.rest, h'.rest, join_append, List.append_assoc]
  offset := by rw [h'.offset, h.offset, join_append, Text.size_append, Nat.add_assoc]
  along := along_append.2 ⟨by rw [← h'.rest]; exact h.along, h'.along⟩

/-- Without lexemes the cursor stays where it is. -/
theorem eq_of_nil (h : c.Lexes [] c') : c = c' := by
  obtain ⟨rest, offset⟩ := c
  obtain ⟨rest', offset'⟩ := c'
  obtain rfl : rest = rest' := h.rest
  obtain rfl : offset' = offset := h.offset
  rfl

/-- Between any two of the lexemes there is a cursor. -/
theorem split (h : c.Lexes (xs ++ ys) c') : ∃ c₁, c.Lexes xs c₁ ∧ c₁.Lexes ys c' := by
  obtain ⟨hrest, hoffset, halong⟩ := h
  rw [join_append] at hrest hoffset
  obtain ⟨hxs, hys⟩ := along_append.1 halong
  refine ⟨⟨join ys ++ c'.rest, c.offset + (join xs).size⟩, ⟨?_, rfl, hxs⟩, rfl, ?_, hys⟩
  · rw [hrest, List.append_assoc]
  · rw [hoffset, Text.size_append, Nat.add_assoc]

/-- The first lexeme is read first. -/
theorem uncons (h : c.Lexes (x :: xs) c') : ∃ c₁, c.Lexes [x] c₁ ∧ c₁.Lexes xs c' :=
  (show c.Lexes ([x] ++ xs) c' from h).split

theorem length_le (h : c.Lexes xs c') : c'.rest.length ≤ c.rest.length := by
  rw [h.rest, List.length_append]
  exact Nat.le_add_left _ _

/-- A lexeme is not empty. -/
theorem length_lt (h : c.Lexes [x] c') : c'.rest.length < c.rest.length := by
  have hpos := List.length_pos_iff.2 h.along.1.ne_nil
  rw [h.rest, join_cons, List.length_append, List.length_append]
  omega

theorem offset_lt (h : c.Lexes xs c') (hne : xs ≠ []) :
    c.offset < c'.offset := by
  obtain ⟨x, xs, rfl⟩ := List.exists_cons_of_ne_nil hne
  have hpos : 0 < x.text.size :=
    Nat.pos_of_ne_zero fun hzero ↦ h.along.1.ne_nil (Text.size_eq_zero_iff.1 hzero)
  rw [h.offset, join_cons, Text.size_append]
  omega

/-- No lexeme is empty. -/
theorem length_le_length_rest (h : c.Lexes xs c') : xs.length ≤ c.rest.length := by
  rw [h.rest, List.length_append]
  exact (length_le_length_join h.along).trans (Nat.le_add_right _ _)

/-- A single lexeme is what the lexer finds. -/
theorem lex_eq (h : c.Lexes [x] c') :
    Lexicon.shader.lex c = .token (x.token c.offset) c' := by
  obtain ⟨hrest, hoffset, hx, -⟩ := h
  obtain ⟨rest, offset⟩ := c
  obtain ⟨rest', offset'⟩ := c'
  dsimp only [join_cons, join_nil, List.nil_append] at hrest hoffset hx
  rw [List.append_nil] at hrest hoffset
  rw [hrest, hoffset]
  exact hx.lex offset

/-- And what the lexer finds is a single lexeme. -/
theorem of_lex (h : Lexicon.shader.lex c = .token token c') :
    ∃ x, c.Lexes [x] c' ∧ token = x.token c.offset := by
  obtain ⟨x, hrest, hx, htoken, hoffset⟩ := Lexeme.exists_of_lex h
  exact ⟨x, ⟨by rw [hrest]; simp, by rw [hoffset]; simp, hx, trivial⟩, htoken⟩

/-- At a cursor there is only one lexeme. -/
theorem unique {y : Lexeme} {c₂ : Cursor} (h : c.Lexes (x :: xs) c₁) (h' : c.Lexes (y :: ys) c₂) :
    x = y ∧ ∃ c₃ : Cursor, c₃.Lexes xs c₁ ∧ c₃.Lexes ys c₂ := by
  obtain ⟨c₃, hx, hxs⟩ := h.uncons
  obtain ⟨c₄, hy, hys⟩ := h'.uncons
  obtain ⟨htoken, rfl⟩ := Lexed.token.inj (hx.lex_eq.symm.trans hy.lex_eq)
  exact ⟨token_injective htoken, c₃, hxs, hys⟩

end Cursor.Lexes

namespace Lexeme

/-- A symbol as a lexeme. -/
def symbol (s : String) : Lexeme :=
  ⟨.symbol, s.toList⟩

/-- A reserved word as a lexeme. -/
def keyword (s : String) : Lexeme :=
  ⟨.word, s.toList⟩

/-- The lexeme is a word that is not reserved. -/
def IsName (x : Lexeme) : Prop :=
  x.kind = .word ∧ isKeyword (String.ofList x.text) = false

/-- The lexeme is the given word, symbol or directive. -/
def Is (x : Lexeme) (s : String) : Prop :=
  String.ofList x.text = s ∧ x.kind ∈ [TokenKind.word, .symbol, .directive]

/-- A symbol is known by its text. -/
theorem eq_symbol {x : Lexeme} {s : String} (hkind : x.kind = .symbol)
    (htext : String.ofList x.text = s) : x = symbol s := by
  rw [symbol, ← hkind, ← htext, String.toList_ofList]

/-- So is a reserved word. -/
theorem eq_keyword {x : Lexeme} {s : String} (hkind : x.kind = .word)
    (htext : String.ofList x.text = s) : x = keyword s := by
  rw [keyword, ← hkind, ← htext, String.toList_ofList]

theorem is_symbol (s : String) : (symbol s).Is s :=
  ⟨String.ofList_toList, by simp [symbol]⟩

theorem symbol_inj {s s' : String} : symbol s = symbol s' ↔ s = s' :=
  ⟨fun h ↦ String.toList_inj.1 (Lexeme.mk.inj h).2, congrArg symbol⟩

theorem symbol_ne_keyword (s s' : String) : symbol s ≠ keyword s' := by
  simp [symbol, keyword]

theorem is_keyword (s : String) : (keyword s).Is s :=
  ⟨String.ofList_toList, by simp [keyword]⟩

/-- What starts no word and no directive is a symbol. -/
theorem Heads.is_iff_symbol {x : Lexeme} {s : String} {rest : Text} (h : x.Heads rest)
    (hstarts : ¬Text.StartsWord s.toList) (hhead : s.toList.head? ≠ some '#') :
    x.Is s ↔ x = symbol s := by
  constructor
  · rintro ⟨htext, hkind⟩
    have hlist : x.text = s.toList := by rw [← htext, String.toList_ofList]
    simp only [List.mem_cons, List.not_mem_nil, or_false] at hkind
    rcases hkind with hkind | hkind | hkind
    · rw [← hlist] at hstarts
      exact absurd (h.isIdentifier hkind).1.1 hstarts
    · exact eq_symbol hkind htext
    · rw [← hlist] at hhead
      exact absurd (h.head?_eq hkind) hhead
  · rintro rfl
    exact ⟨String.ofList_toList, by simp [symbol]⟩

/-- What starts a word is a word. -/
theorem Heads.is_iff_keyword {x : Lexeme} {s : String} {rest : Text} (h : x.Heads rest)
    (hstarts : Text.StartsWord s.toList) : x.Is s ↔ x = keyword s := by
  constructor
  · rintro ⟨htext, -⟩
    have hlist : x.text = s.toList := by rw [← htext, String.toList_ofList]
    rw [← hlist] at hstarts
    exact eq_keyword (h.kind_eq_word (hstarts.append rest)) htext
  · rintro rfl
    exact ⟨String.ofList_toList, by simp [keyword]⟩

/-! ### Closing symbols -/

/-- The symbols that declarations and statements end with. -/
def IsClosing (s : String) : Prop :=
  s = "\x7d" ∨ s = ";"

variable {s : String} {r : Text}

/-- A closing symbol is a lexeme by itself. -/
theorem IsClosing.heads (h : IsClosing s) (rest : Text) : (symbol s).Heads rest := by
  rcases h with rfl | rfl
  · exact .inr ⟨rfl, .inr ⟨rfl, .inr ⟨rfl, .inr ⟨rfl, .inr ⟨rfl, .inl ⟨rfl, rfl⟩⟩⟩⟩⟩⟩
  · exact .inr ⟨rfl, .inr ⟨rfl, .inr ⟨rfl, .inr ⟨rfl, .inr ⟨rfl, .inl ⟨rfl, rfl⟩⟩⟩⟩⟩⟩

/-- In front of a closing symbol it does not matter what stands behind it. -/
theorem IsClosing.sameStart (h : IsClosing s) (r r' : Text) :
    Text.SameStart (s.toList ++ r) (s.toList ++ r') := by
  have hstart {c : Char} (hc : isIdentifierStart c = false ∧ c ≠ '_') (t : Text) :
      ¬Text.StartsWord (c :: t) := by
    rintro (hstart | ⟨heq, -⟩)
    · rw [hc.1] at hstart
      cases hstart
    · exact hc.2 heq
  rcases h with rfl | rfl
  · exact .inr ⟨hstart (by decide) r, hstart (by decide) r', rfl⟩
  · exact .inr ⟨hstart (by decide) r, hstart (by decide) r', rfl⟩

/-- What stands behind a closing symbol does not matter to a chain. -/
theorem Along.of_closing {xs : List Lexeme}
    (hlast : ∃ s, IsClosing s ∧ xs.getLast? = some (symbol s))
    (h : Along Loose xs r) (r' : Text) : Along Loose xs r' := by
  obtain ⟨s, hs, hlast⟩ := hlast
  obtain ⟨front, rfl⟩ := List.getLast?_eq_some_iff.1 hlast
  obtain ⟨hfront, -⟩ := along_append.1 h
  refine along_append.2 ⟨hfront.of_sameStart ?_, ⟨hs.heads r', nofun⟩, trivial⟩
  rw [join_cons, join_nil, List.append_nil]
  exact hs.sameStart r r'

end Lexeme

/-- The lexemes leave no token. -/
def Ignored (xs : List Lexeme) : Prop :=
  ∀ x ∈ xs, Lexicon.shader.ignores x.kind = true

namespace Cursor

/-- Behind ignored lexemes, the lexeme stands between the cursors. -/
def Next (c : Cursor) (x : Lexeme) (c' : Cursor) : Prop :=
  ∃ xs, c.Lexes (xs ++ [x]) c' ∧ Ignored xs ∧ Lexicon.shader.ignores x.kind = false

/-- Only ignored lexemes are left. -/
def Ends (c : Cursor) : Prop :=
  ∃ xs c', c.Lexes xs c' ∧ Ignored xs ∧ c'.rest = []

/-- The next lexeme is read in front of what is left. -/
theorem Next.heads {c c' : Cursor} {x : Lexeme} (h : c.Next x c') : x.Heads c'.rest := by
  obtain ⟨xs, hlexes, -⟩ := h
  exact (along_append.1 hlexes.along).2.1

/-- Something is read for the next lexeme. -/
theorem Next.length_lt {c c' : Cursor} {x : Lexeme} (h : c.Next x c') :
    c'.rest.length < c.rest.length := by
  obtain ⟨xs, hlexes, -⟩ := h
  have hpos := List.length_pos_iff.2 (along_append.1 hlexes.along).2.1.ne_nil
  rw [hlexes.rest, join_append, join_cons, List.length_append, List.length_append,
    List.length_append]
  omega

theorem Next.length_le {c c' : Cursor} {x : Lexeme} (h : c.Next x c') :
    c'.rest.length ≤ c.rest.length :=
  h.length_lt.le

end Cursor

namespace Parser

namespace Yields

variable {c c' : Cursor} {token : Token}

/-- A token is the first lexeme that is not ignored. -/
theorem lexes_tokenWithin {n : Nat} (h : (tokenWithin .shader n).Yields c token c') :
    ∃ xs x, c.Lexes (xs ++ [x]) c' ∧ Ignored xs ∧ Lexicon.shader.ignores x.kind = false ∧
      token = x.token (c.offset + (join xs).size) := by
  induction n generalizing c with
  | zero => exact h.not_refuse.elim
  | succ n ih =>
    obtain ⟨next, c₁, hlex, hrest⟩ := Yields.bind h
    obtain ⟨y, hy, rfl⟩ := Cursor.Lexes.of_lex hlex.lexed
    split at hrest
    · rename_i hignored
      obtain ⟨xs, x, hxs, hall, hx, rfl⟩ := ih hrest
      refine ⟨y :: xs, x, hy.trans hxs, List.forall_mem_cons.2 ⟨hignored, hall⟩, hx, ?_⟩
      rw [hy.offset, Nat.add_assoc, join_cons, join_cons, join_nil, List.append_nil,
        Text.size_append]
    · rename_i hkept
      obtain ⟨rfl, rfl⟩ := hrest.pure
      exact ⟨[], y, hy, List.forall_mem_nil _, Bool.eq_false_iff.2 hkept, rfl⟩

/-- A token is read behind ignored lexemes. -/
theorem lexes_token (h : (Parser.token .shader).Yields c token c') :
    ∃ xs x, c.Lexes (xs ++ [x]) c' ∧ Ignored xs ∧ Lexicon.shader.ignores x.kind = false ∧
      token = x.token (c.offset + (join xs).size) := by
  obtain ⟨n, c₁, hn, hwithin⟩ := Yields.bind h
  obtain rfl := hn.rounds
  exact hwithin.lexes_tokenWithin

/-- A token is the next lexeme that is not ignored. -/
theorem next (h : (Parser.token .shader).Yields c token c') :
    ∃ x offset, c.Next x c' ∧ token = x.token offset := by
  obtain ⟨xs, x, hlexes, hxs, hx, rfl⟩ := h.lexes_token
  exact ⟨x, _, ⟨xs, hlexes, hxs, hx⟩, rfl⟩

end Yields

namespace Yields

variable {c c' : Cursor} {token : Token}

/-- A sign that is read is the next lexeme. -/
theorem next_sign {s : String} (h : (sign s).Yields c token c') : ∃ x, c.Next x c' ∧ x.Is s := by
  obtain ⟨htoken, haccepts⟩ := h.tokenIf
  obtain ⟨x, offset, hnext, rfl⟩ := htoken.next
  simp only [Bool.and_eq_true, beq_iff_eq, List.contains_iff_mem] at haccepts
  exact ⟨x, hnext, haccepts⟩

/-- What is no word and no directive is a symbol. -/
theorem next_symbol {s : String} (h : (sign s).Yields c token c')
    (hs : ¬Text.StartsWord s.toList ∧ s.toList.head? ≠ some '#') : c.Next (symbol s) c' := by
  obtain ⟨x, hnext, hx⟩ := h.next_sign
  rwa [(hnext.heads.is_iff_symbol hs.1 hs.2).1 hx] at hnext

/-- What starts like a word is a reserved word. -/
theorem next_keyword {s : String} (h : (sign s).Yields c token c') (hs : Text.StartsWord s.toList) :
    c.Next (keyword s) c' := by
  obtain ⟨x, hnext, hx⟩ := h.next_sign
  rwa [(hnext.heads.is_iff_keyword hs).1 hx] at hnext

theorem next_word (h : Parser.word.Yields c token c') : ∃ x, c.Next x c' ∧ x.kind = .word := by
  obtain ⟨htoken, haccepts⟩ := h.tokenIf
  obtain ⟨x, offset, hnext, rfl⟩ := htoken.next
  exact ⟨x, hnext, beq_iff_eq.1 haccepts⟩

end Yields

/-! ### Where nothing is left -/

namespace Comes

variable {n m : Nat} {c : Cursor}

/-- The lexer only refuses where nothing is left. -/
theorem rest_eq_nil (h : (Parser.lex .shader).Comes n c .refused) : c.rest = [] := by
  obtain ⟨steps, e, e', h⟩ := h
  rw [Parser.lex] at h
  split at h
  · cases h
  · split at h
    · rename_i hfinished
      exact Cursor.rest_eq_nil_of_lexWith hfinished
    · cases h
    · cases h

/-- With rounds enough to pass all that is ignored, a token is only refused at the end. -/
theorem tokenWithin_refused (h : (Parser.tokenWithin .shader m).Comes n c .refused)
    (hm : c.rest.length < m) : c.Ends := by
  induction m generalizing c with
  | zero => exact absurd hm (Nat.not_lt_zero _)
  | succ m ih =>
    rw [Parser.tokenWithin] at h
    rcases h.bind_refused with h | ⟨token, c₁, htoken, hrest⟩
    · exact ⟨[], c, .refl c, List.forall_mem_nil _, h.rest_eq_nil⟩
    · obtain ⟨x, hx, rfl⟩ := Cursor.Lexes.of_lex htoken.yields.lexed
      split at hrest
      · rename_i hignored
        have hlength := hx.length_lt
        obtain ⟨xs, c', hxs, hall, hend⟩ := ih hrest (by omega)
        exact ⟨x :: xs, c', hx.trans hxs, List.forall_mem_cons.2 ⟨hignored, hall⟩, hend⟩
      · exact hrest.not_pure_refused.elim

/-- At the end of a text only ignored lexemes are left. -/
theorem ends {c' : Cursor} {u : Unit} (h : (finished .shader).Comes n c (.accepted u c'))
    (hn : c.rest.length < n) : c.Ends := by
  obtain ⟨-, hrefused⟩ := h.absent
  rcases hrefused.bind_refused with ⟨_, _, _, hrounds⟩ | ⟨m, c₁, hm, hrefused⟩
  · cases (Prod.mk.inj hrounds).1
  · obtain ⟨rfl, rfl⟩ := hm.rounds
    exact hrefused.tokenWithin_refused hn

end Comes

/-! ### Reading a token -/

namespace Meets

variable {l : Lexicon} {n m : Nat} {c c₁ c' : Cursor} {t : Token} {x : Lexeme} {xs : List Lexeme}
  {o : Outcome Token} {accepts : Token → Bool}

/-- The lexer comes to what it finds. -/
theorem lex_of (h : l.lex c = .token t c') : (Parser.lex l).Meets n c (.accepted t c') := by
  refine ⟨1, fun steps e hsteps ↦ ?_⟩
  rw [Parser.lex, if_neg (by simp only [Effort.step]; omega), h]
  dsimp only
  split
  · exact ⟨e.step, Nat.le_refl _, rfl⟩
  · exact ⟨e.step.reach c.offset, Nat.le_refl _, rfl⟩

theorem lex_nil (hc : c.rest = []) : (Parser.lex l).Meets n c .refused := by
  refine ⟨1, fun steps e hsteps ↦ ?_⟩
  obtain ⟨rest, offset⟩ := c
  obtain rfl : rest = [] := hc
  have hfinished : l.lex ⟨[], offset⟩ = .finished := by cases l <;> rfl
  rw [Parser.lex, if_neg (by simp only [Effort.step]; omega), hfinished]
  exact ⟨e.step, Nat.le_refl _, rfl⟩

/-- Behind an ignored token reading goes on. -/
theorem tokenWithin_behind (h : l.lex c = .token t c₁) (ht : l.ignores t.kind = true)
    (hrest : (Parser.tokenWithin l m).Meets n c₁ o) :
    (Parser.tokenWithin l (m + 1)).Meets n c o := by
  rw [Parser.tokenWithin]
  refine (lex_of h).bind ?_
  rw [if_pos ht]
  exact hrest

/-- One round suffices for a token that is not ignored. -/
theorem tokenWithin_found (h : l.lex c = .token t c') (ht : l.ignores t.kind = false) (m : Nat) :
    (Parser.tokenWithin l (m + 1)).Meets n c (.accepted t c') := by
  rw [Parser.tokenWithin]
  refine (lex_of h).bind ?_
  rw [if_neg (Bool.eq_false_iff.1 ht)]
  exact .pure _ _ _

/-- Whether a token is accepted is settled once it is read. -/
theorem tokenIf_of_token (h : (Parser.token l).Meets n c (.accepted t c'))
    (ht : accepts t = true) : (Parser.tokenIf l accepts).Meets n c (.accepted t c') := by
  refine h.bind ?_
  rw [if_pos ht]
  exact .pure _ n c'

theorem tokenIf_refused_of_token (h : (Parser.token l).Meets n c (.accepted t c'))
    (ht : accepts t = false) : (Parser.tokenIf l accepts).Meets n c .refused := by
  refine h.bind ?_
  rw [if_neg (Bool.eq_false_iff.1 ht)]
  exact .refuse n c'

/-! ### Reading a chain -/

/-- Behind ignored lexemes reading goes on. -/
theorem tokenWithin_ignored (h : c.Lexes xs c₁) (hxs : Ignored xs)
    (hrest : (Parser.tokenWithin .shader m).Meets n c₁ o) :
    (Parser.tokenWithin .shader (m + xs.length)).Meets n c o := by
  induction xs generalizing c with
  | nil =>
    obtain rfl := h.eq_of_nil
    exact hrest
  | cons x xs ih =>
    obtain ⟨hx, hxs⟩ := List.forall_mem_cons.1 hxs
    obtain ⟨c₂, hfirst, hbehind⟩ := h.uncons
    exact tokenWithin_behind hfirst.lex_eq hx (ih hbehind hxs)

/-- Behind lexemes that are ignored the token is read. -/
theorem token_of_lexes (h : c.Lexes (xs ++ [x]) c') (hxs : Ignored xs)
    (hx : Lexicon.shader.ignores x.kind = false) (hn : c.rest.length < n) :
    (Parser.token .shader).Meets n c
      (.accepted (x.token (c.offset + (join xs).size)) c') := by
  have hlength := h.length_le_length_rest
  rw [List.length_append, List.length_singleton] at hlength
  obtain ⟨m, rfl⟩ : ∃ m, n = m + 1 + xs.length := ⟨n - xs.length - 1, by omega⟩
  obtain ⟨c₁, hfront, hlast⟩ := h.split
  rw [← hfront.offset]
  exact rounds.bind (tokenWithin_ignored hfront hxs (tokenWithin_found hlast.lex_eq hx m))

/-- The next lexeme that is not ignored is read. -/
theorem token (h : c.Next x c') (hn : c.rest.length < n) :
    ∃ offset, (Parser.token .shader).Meets n c (.accepted (x.token offset) c') := by
  obtain ⟨xs, hlexes, hxs, hx⟩ := h
  exact ⟨_, token_of_lexes hlexes hxs hx hn⟩

/-- There is no token if all that is left is ignored. -/
theorem token_refused (h : c.Ends) (hn : c.rest.length < n) :
    (Parser.token .shader).Meets n c .refused := by
  obtain ⟨xs, c', hlexes, hxs, hend⟩ := h
  have hlength := hlexes.length_le_length_rest
  obtain ⟨m, rfl⟩ : ∃ m, n = m + 1 + xs.length := ⟨n - xs.length - 1, by omega⟩
  refine rounds.bind (tokenWithin_ignored hlexes hxs ?_)
  rw [Parser.tokenWithin]
  exact bind_refused (lex_nil hend)

theorem tokenIf (h : c.Next x c') (hn : c.rest.length < n)
    (hx : ∀ offset, accepts (x.token offset) = true) :
    ∃ offset, (Parser.tokenIf .shader accepts).Meets n c (.accepted (x.token offset) c') := by
  obtain ⟨offset, htoken⟩ := token h hn
  exact ⟨offset, htoken.tokenIf_of_token (hx offset)⟩

theorem tokenIf_refused (h : c.Next x c') (hn : c.rest.length < n)
    (hx : ∀ offset, accepts (x.token offset) = false) :
    (Parser.tokenIf .shader accepts).Meets n c .refused := by
  obtain ⟨offset, htoken⟩ := token h hn
  exact htoken.tokenIf_refused_of_token (hx offset)

/-- The next lexeme is read as the sign that it is. -/
theorem sign {s : String} (h : c.Next x c') (hn : c.rest.length < n) (hx : x.Is s) :
    ∃ offset, (Parser.sign s).Meets n c (.accepted (x.token offset) c') := by
  refine tokenIf h hn fun offset ↦ ?_
  simp only [Bool.and_eq_true, beq_iff_eq, List.contains_iff_mem]
  exact hx

/-- As any other sign it is refused. -/
theorem sign_refused {s : String} (h : c.Next x c') (hn : c.rest.length < n) (hx : ¬x.Is s) :
    (Parser.sign s).Meets n c .refused := by
  refine tokenIf_refused h hn fun offset ↦ ?_
  rw [Bool.eq_false_iff]
  simp only [Bool.and_eq_true, beq_iff_eq, List.contains_iff_mem, ne_eq]
  exact hx

theorem word (h : c.Next x c') (hn : c.rest.length < n) (hx : x.kind = .word) :
    ∃ offset, Parser.word.Meets n c (.accepted (x.token offset) c') :=
  tokenIf h hn fun _ ↦ beq_iff_eq.2 hx

theorem word_refused (h : c.Next x c') (hn : c.rest.length < n) (hx : x.kind ≠ .word) :
    Parser.word.Meets n c .refused :=
  tokenIf_refused h hn fun _ ↦ beq_eq_false_iff_ne.2 hx

/-- A word that is not reserved is read as a name. -/
theorem name (h : c.Next x c') (hn : c.rest.length < n) (hx : x.IsName) :
    ∃ offset, Parser.name.Meets n c (.accepted (x.token offset) c') := by
  refine tokenIf h hn fun offset ↦ ?_
  simp only [Bool.and_eq_true, beq_iff_eq, Bool.not_eq_true']
  exact hx

/-- All tokens of a chain are read. -/
theorem manyWithin_token {ys : List Lexeme} (h : c.Lexes (ys ++ xs) c') (hys : Ignored ys)
    (hend : c'.rest = []) (hn : c.rest.length < n) (hm : xs.length < m) :
    ∃ c₁, (Parser.manyWithin (Parser.token .shader) m).Meets n c
      (.accepted (tokensFrom (c.offset + (join ys).size) xs) c₁) := by
  induction xs generalizing c ys m with
  | nil =>
    rw [List.append_nil] at h
    obtain ⟨m, rfl⟩ := Nat.exists_eq_add_of_lt hm
    exact ⟨c, manyWithin_nil (token_refused ⟨ys, c', h, hys, hend⟩ hn) _⟩
  | cons x xs ih =>
    rw [List.append_cons] at h
    by_cases hx : Lexicon.shader.ignores x.kind = true
    · -- the ignored lexemes in front have become one more
      obtain ⟨c₁, hmany⟩ := ih h
        (List.forall_mem_append.2 ⟨hys, List.forall_mem_singleton.2 hx⟩) hn (Nat.lt_of_succ_lt hm)
      refine ⟨c₁, ?_⟩
      rw [tokensFrom, if_pos hx]
      rwa [join_append, Text.size_append, ← Nat.add_assoc, join_cons, join_nil,
        List.append_nil] at hmany
    · obtain ⟨c₂, htoken, hrest⟩ := h.split
      obtain ⟨m, rfl⟩ : ∃ j, m = j + 1 := ⟨m - 1, by omega⟩
      have hnil : ∀ y ∈ ([] : List Lexeme), Lexicon.shader.ignores y.kind = true :=
        List.forall_mem_nil _
      obtain ⟨c₁, hmany⟩ := ih hrest hnil (htoken.length_le.trans_lt hn) (Nat.lt_of_succ_lt_succ hm)
      have hoffset : c₂.offset + (join []).size = c.offset + (join ys).size + x.text.size := by
        rw [htoken.offset, join_append, Text.size_append, ← Nat.add_assoc]
        simp
      refine ⟨c₁, ?_⟩
      rw [tokensFrom, if_neg hx, ← hoffset]
      exact manyWithin_cons (token_of_lexes htoken hys (Bool.eq_false_iff.2 hx) hn) hmany

end Meets

namespace Accepts

variable {n : Nat} {c c' : Cursor} {s : String}

theorem sign_symbol (h : c.Next (symbol s) c') (hn : c.rest.length < n) :
    (Parser.sign s).Accepts n c c' := by
  obtain ⟨offset, hsign⟩ := Meets.sign h hn (is_symbol s)
  exact ⟨_, hsign⟩

theorem sign_keyword (h : c.Next (keyword s) c') (hn : c.rest.length < n) :
    (Parser.sign s).Accepts n c c' := by
  obtain ⟨offset, hsign⟩ := Meets.sign h hn (is_keyword s)
  exact ⟨_, hsign⟩

end Accepts

end Parser

/-- If a chain of lexemes has tokens at all, these are the lexemes that are not ignored. -/
theorem tokens_eq_of_tokenize {xs : List Lexeme} (h : Along Heads xs []) {tokens : List Token}
    (htokens : tokenize (join xs) = .ok tokens) : tokens = tokensFrom 0 xs := by
  have hlexes : (Cursor.start (join xs)).Lexes ([] ++ xs) ⟨[], (join xs).size⟩ :=
    ⟨(List.append_nil _).symm, (Nat.zero_add _).symm, h⟩
  have hlt : (join xs).length < (join xs).size + 1 := Nat.lt_succ_of_le (Text.length_le_size _)
  obtain ⟨c, hmany⟩ := Parser.Meets.manyWithin_token hlexes (List.forall_mem_nil _) rfl hlt
    ((length_le_length_join h).trans_lt hlt)
  rw [tokenize] at htokens
  split at htokens
  · rename_i tokens' c' e hrun
    obtain rfl := Except.ok.inj htokens
    have hmeets : (Parser.many (Parser.token .shader)).Meets ((join xs).size + 1)
        (Cursor.start (join xs)) (.accepted (tokensFrom 0 xs) c) :=
      Parser.Meets.rounds.bind hmany
    have heq := hmeets.eq_of_comes (Parser.Steady.token .shader).many ⟨_, _, _, hrun⟩ nofun
    exact (Outcome.accepted.inj heq).1
  · cases htokens
  · cases htokens

end ShaderLink
