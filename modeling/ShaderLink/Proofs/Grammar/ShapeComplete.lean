import ShaderLink.Module.Item
import ShaderLink.Proofs.Grammar.CodeComplete
import ShaderLink.Proofs.Grammar.Shape

/-!
# Declarations are read

All that is in the language of declarations is read by the rules for declarations
(`Parser.Accepts.unmarkedDecl`).
-/

namespace ShaderLink

open Lexeme

/-- Between the cursors stands a word of the language. -/
def Cursor.SpellsIn (c : Cursor) (L : Language Lexeme) (c' : Cursor) : Prop :=
  ∃ ts ∈ L, c.Spells ts c'

namespace Cursor.SpellsIn

variable {c c' : Cursor} {L M : Language Lexeme}

/-- A product of languages is spelled part by part. -/
theorem of_mul (h : c.SpellsIn (L * M) c') : ∃ c₁, c.SpellsIn L c₁ ∧ c₁.SpellsIn M c' := by
  obtain ⟨ts, hts, h⟩ := h
  obtain ⟨us, hus, vs, hvs, rfl⟩ := Language.mem_mul.1 hts
  obtain ⟨c₁, hfirst, hrest⟩ := Spells.split h
  exact ⟨c₁, ⟨us, hus, hfirst⟩, vs, hvs, hrest⟩

theorem of_add (h : c.SpellsIn (L + M) c') : c.SpellsIn L c' ∨ c.SpellsIn M c' := by
  obtain ⟨ts, hts | hts, h⟩ := h
  · exact .inl ⟨ts, hts, h⟩
  · exact .inr ⟨ts, hts, h⟩

/-- What is read as a word of a language is one as it stands. -/
theorem of_covers {spans : List Span} (h : c.Covers L spans c') : c.SpellsIn L c' := by
  obtain ⟨gs, hlexes, htight, -, hmem⟩ := h
  exact ⟨_, Covers.mem_of_coversBy hmem, hlexes.spells htight⟩

/-- Spelling leaves no more of the text. -/
theorem length_rest_le (h : c.SpellsIn L c') : c'.rest.length ≤ c.rest.length := by
  obtain ⟨ts, -, h⟩ := h
  exact h.length_rest_le

theorem next_of_singleton {x : Lexeme} (h : c.SpellsIn {[x]} c') : c.Next x c' := by
  obtain ⟨ts, rfl, h⟩ := h
  obtain ⟨c₁, hx, hnil⟩ := h.uncons
  cases hnil
  exact hx

theorem next_of_names (h : c.SpellsIn names c') : ∃ x : Lexeme, x.IsName ∧ c.Next x c' := by
  obtain ⟨ts, ⟨x, hx, rfl⟩, h⟩ := h
  exact ⟨x, hx, next_of_singleton ⟨_, rfl, h⟩⟩

theorem next_of_keywordOf {ws : List String} (h : c.SpellsIn (keywordOf ws) c') :
    ∃ w ∈ ws, c.Next (keyword w) c' := by
  obtain ⟨ts, ⟨w, hw, rfl⟩, h⟩ := h
  exact ⟨w, hw, next_of_singleton ⟨_, rfl, h⟩⟩

/-- The word that stands in front is next. -/
theorem next_of_startsWith {ws : List String} (h : c.SpellsIn L c')
    (hL : Language.StartsWith L ws) : ∃ w ∈ ws, ∃ c₁, c.Next (keyword w) c₁ := by
  obtain ⟨ts, hts, h⟩ := h
  obtain ⟨w, hw, hhead⟩ := hL ts hts
  obtain ⟨rest, rfl⟩ := List.head?_eq_some_iff.1 hhead
  obtain ⟨c₁, hnext, -⟩ := h.uncons
  exact ⟨w, hw, c₁, hnext⟩

end Cursor.SpellsIn

/-! ### What types of members go on with -/

namespace MemberType

variable {depth : Nat} {x : Lexeme} {s : String} {ts xs : List Lexeme}

/-- Behind anything that means nothing in a type, the type goes on. -/
theorem of_other (h : MemberType depth (x :: xs))
    (hx : x.kind = .symbol → String.ofList x.text ∉ typeSymbols) : MemberType depth xs := by
  have hne {s : String} (hs : s ∈ typeSymbols) : x ≠ symbol s := by
    rintro rfl
    exact hx rfl (by rwa [symbol, String.ofList_toList])
  generalize hts : x :: xs = ts at h
  cases h with
  | nil => cases hts
  | opening => exact absurd (List.cons.inj hts).1 (hne (by decide))
  | closing => exact absurd (List.cons.inj hts).1 (hne (by decide))
  | inner hs =>
    rcases hs with rfl | rfl
    · exact absurd (List.cons.inj hts).1 (hne (by decide))
    · exact absurd (List.cons.inj hts).1 (hne (by decide))
  | args => exact absurd (List.cons.inj hts).1 (hne (by decide))
  | other _ h =>
    obtain ⟨-, rfl⟩ := List.cons.inj hts
    exact h

/-- A type of a member goes on behind a word, -/
theorem of_word (h : MemberType depth (x :: xs)) (hx : x.kind = .word) : MemberType depth xs :=
  h.of_other fun hsymbol ↦ by
    rw [hx] at hsymbol
    cases hsymbol

/-- and behind the words of a path. -/
theorem of_steps {separator : String} (hseparator : separator ∉ typeSymbols)
    (hsteps : Steps separator ts) (h : MemberType depth (ts ++ xs)) : MemberType depth xs := by
  induction hsteps with
  | nil => exact h
  | cons hx hrest ih =>
    refine ih ((h.of_other fun _ ↦ ?_).of_word hx)
    rwa [symbol, String.ofList_toList]

end MemberType

namespace Parser

variable {n m : Nat} {c c₁ c₂ c₃ c' : Cursor} {x : Lexeme} {xs ys : List Lexeme}

/-! ### Attributes -/

/-- What is next where attributes may stand is no parenthesis and no brace. -/
theorem exists_next_of_marks (h : Marks xs) (hspells : c.Spells xs c₁) (hx : c₁.Next x c₂)
    (hword : x.kind = .word) : ∃ y c₃, c.Next y c₃ ∧ y ≠ symbol "(" ∧ y ≠ symbol "\x7d" := by
  cases h with
  | nil =>
    cases hspells
    have hne (s : String) : x ≠ symbol s := by
      rintro rfl
      cases hword
    exact ⟨x, c₂, hx, hne _, hne _⟩
  | cons =>
    obtain ⟨c₃, hmark, -⟩ := hspells.uncons
    exact ⟨_, c₃, hmark, by decide, by decide⟩

namespace Accepts

/-- The arguments of an attribute are read. -/
theorem attributeArgs (h : xs ∈ arguments) (hspells : c.Spells xs c₁) (hx : c₁.Next x c₂)
    (hparen : x ≠ symbol "(") (hn : c.rest.length < n) (which : String) :
    (Parser.attributeArgs (Parser.bodyUntil ")" .code) which).Accepts n c c₁ := by
  rcases h with rfl | ⟨us, hus, rfl⟩
  · cases hspells
    exact attributeArgs_none hx hparen hn which
  · obtain ⟨c₃, hopen, hbody⟩ := hspells.uncons
    exact attributeArgs_some hopen
      (bodyUntil hus (by decide) hbody (hopen.length_le.trans_lt hn) .code) hn which

/-- Attributes are accepted as long as there are any. -/
theorem manyWithin_marks (h : Marks xs) (hspells : c.Spells xs c₁) (hx : c₁.Next x c₂)
    (hword : x.kind = .word) (hm : xs.length < m) (hn : c.rest.length < n) :
    Accepts (Parser.manyWithin (do
      let _ ← sign "@"
      let which ← Parser.commit word "attribute name"
      Parser.attributeArgs (Parser.bodyUntil ")" .code) which.text) m) n c c₁ := by
  induction h generalizing c m with
  | nil =>
    cases hspells
    obtain ⟨m, rfl⟩ := Nat.exists_eq_add_of_lt hm
    have hmark : ¬x.Is "@" := by
      rw [hx.heads.is_iff_symbol (by decide) (by decide)]
      rintro rfl
      cases hword
    exact ⟨[], Meets.manyWithin_nil (Meets.sign_refused hx hn hmark).bind_refused _⟩
  | cons hname hargs hrest ih =>
    obtain ⟨c₃, hmark, hspells⟩ := hspells.uncons
    obtain ⟨c₄, hread, hspells⟩ := hspells.uncons
    obtain ⟨c₅, hargsRead, hspells⟩ := hspells.split
    obtain ⟨y, c₆, hy, hparen, -⟩ := exists_next_of_marks hrest hspells hx hword
    have hc₃ := hmark.length_le.trans_lt hn
    have hc₄ := hread.length_le.trans_lt hc₃
    obtain ⟨m, rfl⟩ : ∃ k, m = k + 1 := ⟨m - 1, by omega⟩
    simp only [List.length_cons, List.length_append] at hm
    refine manyWithin_cons ?_ (ih hspells (by omega) (hargsRead.length_rest_le.trans_lt hc₄))
    obtain ⟨offset, hword'⟩ := Meets.word hread hc₃ hname
    exact (sign_symbol hmark hn).bind fun _ ↦ .after (hword'.commit _)
      (attributeArgs hargs hargsRead hy hparen hc₄ _)

/-- Attributes are read up to the word that they are for. -/
theorem attributes (h : Marks xs) (hspells : c.Spells xs c₁) (hx : c₁.Next x c₂)
    (hword : x.kind = .word) (hn : c.rest.length < n) : Parser.attributes.Accepts n c c₁ := by
  have hm : xs.length < n := (Nat.le_of_add_right_le hspells.length_le).trans_lt hn
  exact .map _ (.after Meets.rounds (manyWithin_marks h hspells hx hword hm hn))

end Accepts

/-! ### Structs -/

/-- The cursor at which the reading of a member's type ends in front of a symbol that the other
cursor is behind: behind a comma, but in front of a brace. -/
def EndsType (s : String) (c c' : Cursor) : Prop :=
  s = "," ∧ c = c' ∨ s = "\x7d" ∧ c.Next (symbol "\x7d") c'

namespace Accepts

/-- A name in the type of a member is read with the rest of its path. -/
theorem memberTypeWithin_name {depth : Nat} (h : c.Next x c₁) (hx : x.IsName)
    (hpath : ∀ first, (referencePath first).Accepts n c₁ c₂)
    (hrest : (Parser.memberTypeWithin m depth).Accepts n c₂ c') (hn : c.rest.length < n) :
    (Parser.memberTypeWithin (m + 1) depth).Accepts n c c' := by
  obtain ⟨offset, htoken⟩ := Meets.token h hn
  have hkeyword : ¬isKeyword (x.token offset).text = true := Bool.eq_false_iff.1 hx.2
  rw [Parser.memberTypeWithin]
  refine .after .here (.after (htoken.commit _) ?_)
  rw [show (x.token offset).kind = .word from hx.1]
  dsimp only
  rw [if_neg hkeyword]
  exact (hpath _).bind fun _ ↦ hrest.bind fun _ ↦ .pure _ n c'

/-- Whatever means nothing in the type of a member is passed. -/
theorem memberTypeWithin_other {depth : Nat} (h : c.Next x c₁) (hname : ¬x.IsName)
    (hx : x.kind = .symbol → String.ofList x.text ∉ typeSymbols)
    (hrest : (Parser.memberTypeWithin m depth).Accepts n c₁ c') (hn : c.rest.length < n) :
    (Parser.memberTypeWithin (m + 1) depth).Accepts n c c' := by
  obtain ⟨offset, htoken⟩ := Meets.token h hn
  have hsymbol : (x.token offset).kind = .symbol → (x.token offset).text ∉ typeSymbols := hx
  have hword : (x.token offset).kind = .word → isKeyword (x.token offset).text = true :=
    fun hword ↦ Bool.of_not_eq_false fun hkeyword ↦ hname ⟨hword, hkeyword⟩
  rw [Parser.memberTypeWithin]
  refine .after .here (.after (htoken.commit _) ?_)
  generalize (x.token offset).kind = kind, (x.token offset).text = text at hsymbol hword ⊢
  split
  · exact absurd (by decide) (hsymbol rfl)
  · exact absurd (by decide) (hsymbol rfl)
  · exact absurd (by decide) (hsymbol rfl)
  · exact absurd (by decide) (hsymbol rfl)
  · exact absurd (by decide) (hsymbol rfl)
  · rw [if_pos (hword rfl)]
    exact hrest
  · exact hrest

/-- The type of a member is read. -/
theorem memberTypeWithin {depth : Nat} {s : String} (h : MemberType depth xs)
    (hs : s = "," ∨ s = "\x7d") (hspells : c.Spells (xs ++ [symbol s]) c')
    (hm : xs.length < m) (hn : c.rest.length < n) :
    ∃ c₁, c₁.rest.length < n ∧ EndsType s c₁ c' ∧
      (Parser.memberTypeWithin m depth).Accepts n c c₁ := by
  induction m generalizing depth c xs with
  | zero => exact absurd hm (Nat.not_lt_zero _)
  | succ m ih =>
    have htext (s : String) (offset : Nat) : ((symbol s).token offset).text = s :=
      String.ofList_toList
    have hstep {x : Lexeme} {ys : List Lexeme} {depth' : Nat} (h : MemberType depth' ys)
        (hspells : c.Spells (x :: (ys ++ [symbol s])) c') (hlength : ys.length < m) :
        ∃ c₁ c₂ offset, (Parser.token .shader).Meets n c (.accepted (x.token offset) c₁) ∧
          c₂.rest.length < n ∧ EndsType s c₂ c' ∧
          (Parser.memberTypeWithin m depth').Accepts n c₁ c₂ := by
      obtain ⟨c₁, hx, hrest⟩ := hspells.uncons
      obtain ⟨offset, htoken⟩ := Meets.token hx hn
      obtain ⟨c₂, hread⟩ := ih h hrest hlength (hx.length_le.trans_lt hn)
      exact ⟨c₁, c₂, offset, htoken, hread⟩
    rw [Parser.memberTypeWithin]
    cases h with
    | nil =>
      obtain ⟨c₁, hx, hnil⟩ := hspells.uncons
      cases hnil
      obtain ⟨offset, htoken⟩ := Meets.token hx hn
      rcases hs with rfl | rfl
      · refine ⟨c', hx.length_le.trans_lt hn, .inl ⟨rfl, rfl⟩,
          .after .here (.after (htoken.commit _) ?_)⟩
        rw [htext]
        exact .pure [] n c'
      · refine ⟨c, hn, .inr ⟨rfl, hx⟩, .after .here (.after (htoken.commit _) ?_)⟩
        rw [htext]
        exact .after (.goBack c) (.pure [] n c)
    | opening h =>
      obtain ⟨c₁, c₂, offset, htoken, hc₂, hend, hread⟩ :=
        hstep h hspells (Nat.lt_of_succ_lt_succ hm)
      refine ⟨c₂, hc₂, hend, .after .here (.after (htoken.commit _) ?_)⟩
      rw [htext]
      exact hread
    | closing h =>
      obtain ⟨c₁, c₂, offset, htoken, hc₂, hend, hread⟩ :=
        hstep h hspells (Nat.lt_of_succ_lt_succ hm)
      refine ⟨c₂, hc₂, hend, .after .here (.after (htoken.commit _) ?_)⟩
      rw [htext]
      exact hread
    | inner hs hdepth h =>
      obtain ⟨c₁, c₂, offset, htoken, hc₂, hend, hread⟩ :=
        hstep h hspells (Nat.lt_of_succ_lt_succ hm)
      refine ⟨c₂, hc₂, hend, .after .here (.after (htoken.commit _) ?_)⟩
      rw [htext]
      rcases hs with rfl | rfl
      · simp only [if_neg hdepth]
        exact hread
      · simp only [if_neg hdepth]
        exact hread
    | args hargs h =>
      obtain ⟨c₁, hx, hrest⟩ := hspells.uncons
      obtain ⟨offset, htoken⟩ := Meets.token hx hn
      rw [List.append_eq, List.append_assoc, List.cons_append] at hrest
      obtain ⟨c₂, hbody, hrest⟩ := hrest.split_cons
      rw [List.length_cons, List.length_append, List.length_cons] at hm
      have hc₁ := hx.length_le.trans_lt hn
      obtain ⟨c₃, hc₃, hend, hread⟩ := ih h hrest (by omega) (hbody.length_rest_le.trans_lt hc₁)
      refine ⟨c₃, hc₃, hend, .after .here (.after (htoken.commit _) ?_)⟩
      rw [htext]
      exact (bodyUntil hargs (by decide) hbody hc₁ .code).bind fun _ ↦ hread.bind fun _ ↦
        .pure _ n c₃
    | @other _ x ys hx h =>
      by_cases hname : x.IsName
      · -- a path, of which the rest is passed as well
        have hsteps : s ≠ "::" ∧ s ≠ "." := by rcases hs with rfl | rfl <;> decide
        obtain ⟨c₁, hnext, hrest⟩ := hspells.uncons
        obtain ⟨colons, dots, rest, c₂, rfl, hcolons, -, hdots, hc₂, hrest, hpath⟩ :=
          Meets.referencePath hrest hsteps.1 hsteps.2 (hnext.length_le.trans_lt hn)
        have h := (h.of_steps (by decide) hcolons).of_steps (by decide) hdots
        simp only [List.length_cons, List.length_append] at hm
        obtain ⟨c₃, hc₃, hend, hread⟩ := ih h hrest (by omega) hc₂
        exact ⟨c₃, hc₃, hend, memberTypeWithin_name hnext hname hpath hread hn⟩
      · obtain ⟨c₁, hnext, hrest⟩ := hspells.uncons
        obtain ⟨c₂, hc₂, hend, hread⟩ :=
          ih h hrest (Nat.lt_of_succ_lt_succ hm) (hnext.length_le.trans_lt hn)
        exact ⟨c₂, hc₂, hend, memberTypeWithin_other hnext hname hx hread hn⟩

/-- A closing brace ends the members. -/
theorem membersWithin_close (h : c.Next (symbol "\x7d") c') (hm : 0 < m)
    (hn : c.rest.length < n) : (Parser.membersWithin m).Accepts n c c' := by
  obtain ⟨m, rfl⟩ := Nat.exists_eq_add_of_lt hm
  obtain ⟨token, hclose⟩ := sign_symbol h hn
  exact .after hclose.optional_some (.pure [] n c')

/-- A member is read with its attributes and its type. -/
theorem membersWithin_member {ms ts : List Lexeme} {s : String} (hmarks : Marks ms)
    (hx : x.kind = .word) (htype : MemberType 0 ts) (hs : s = "," ∨ s = "\x7d")
    (hspells : c.Spells (ms ++ x :: symbol ":" :: (ts ++ [symbol s])) c₁)
    (hrest : ∀ c₂, c₂.rest.length < n → EndsType s c₂ c₁ →
      (Parser.membersWithin m).Accepts n c₂ c')
    (hn : c.rest.length < n) : (Parser.membersWithin (m + 1)).Accepts n c c' := by
  obtain ⟨c₂, hmarksRead, hspells⟩ := hspells.split
  obtain ⟨c₃, hname, hspells⟩ := hspells.uncons
  obtain ⟨c₄, hcolon, hspells⟩ := hspells.uncons
  obtain ⟨y, c₅, hy, -, hbrace⟩ := exists_next_of_marks hmarks hmarksRead hname hx
  have hc₂ := hmarksRead.length_rest_le.trans_lt hn
  have hc₃ := hname.length_le.trans_lt hc₂
  have hc₄ := hcolon.length_le.trans_lt hc₃
  have hlength := hspells.length_le
  rw [List.length_append, List.length_singleton] at hlength
  obtain ⟨c₆, hc₆, hend, htypeRead⟩ := memberTypeWithin htype hs hspells (m := n) (by omega) hc₄
  have hclose : ¬y.Is "\x7d" := by rwa [hy.heads.is_iff_symbol (by decide) (by decide)]
  obtain ⟨offset, hread⟩ := Meets.word hname hc₂ hx
  exact .after (Meets.sign_refused hy hn hclose).optional_none <|
    (attributes hmarks hmarksRead hname hx hn).bind fun _ ↦ .after (hread.commit _) <|
    ((sign_symbol hcolon hc₃).commit _).bind fun _ ↦ .after .rounds <|
    htypeRead.bind fun _ ↦ (hrest c₆ hc₆ hend).bind fun _ ↦ .pure _ n c'

/-- The members of a struct are read. -/
theorem membersWithin (h : Members xs) (hspells : c.Spells xs c') (hm : xs.length < m)
    (hn : c.rest.length < n) : (Parser.membersWithin m).Accepts n c c' := by
  induction h generalizing c m with
  | close =>
    obtain ⟨c₁, hx, hnil⟩ := hspells.uncons
    cases hnil
    exact membersWithin_close hx (Nat.zero_lt_of_lt hm) hn
  | @member ms ts xs x hmarks hx htype hrest ih =>
    have hsplit : ms ++ x :: symbol ":" :: (ts ++ symbol "," :: xs) =
        (ms ++ x :: symbol ":" :: (ts ++ [symbol ","])) ++ xs := by simp
    rw [hsplit] at hspells hm
    obtain ⟨c₁, hmember, hspells⟩ := hspells.split
    rw [List.length_append, List.length_append, List.length_cons] at hm
    obtain ⟨m, rfl⟩ : ∃ k, m = k + 1 := ⟨m - 1, by omega⟩
    refine membersWithin_member hmarks hx htype (.inl rfl) hmember (fun c₂ hc₂ hend ↦ ?_) hn
    rcases hend with ⟨-, rfl⟩ | ⟨hs, -⟩
    · exact ih hspells (by omega) (hmember.length_rest_le.trans_lt hn)
    · exact absurd hs (by decide)
  | last hmarks hx htype =>
    rw [List.length_append, List.length_cons, List.length_cons] at hm
    obtain ⟨m, rfl⟩ : ∃ k, m = k + 1 := ⟨m - 1, by omega⟩
    refine membersWithin_member hmarks hx htype (.inr rfl) hspells (fun c₂ hc₂ hend ↦ ?_) hn
    rcases hend with ⟨hs, -⟩ | ⟨-, hclose⟩
    · exact absurd hs (by decide)
    · exact membersWithin_close hclose (by omega) hc₂

/-! ### Functions, structs, variables, aliases -/

/-- A body is read. -/
theorem bodyUntil_of_spellsIn {closer : String} (h : c.SpellsIn (bodies closer) c')
    (hcloser : closer ∈ closers) (hn : c.rest.length < n) (mode : BodyMode) :
    (Parser.bodyUntil closer mode).Accepts n c c' := by
  obtain ⟨ts, ⟨xs, hxs, rfl⟩, h⟩ := h
  exact bodyUntil hxs hcloser h hn mode

theorem name_of_spellsIn (h : c.SpellsIn names c') (hn : c.rest.length < n) :
    Parser.name.Accepts n c c' := by
  obtain ⟨x, hx, hnext⟩ := h.next_of_names
  obtain ⟨offset, hread⟩ := Meets.name hnext hn hx
  exact ⟨_, hread⟩

theorem sign_of_spellsIn {s : String} (h : c.SpellsIn {[symbol s]} c')
    (hn : c.rest.length < n) : (sign s).Accepts n c c' :=
  sign_symbol h.next_of_singleton hn

/-- What spells a function is accepted as one. -/
theorem functionDecl (h : c.SpellsIn functions c') (hn : c.rest.length < n) :
    Parser.functionDecl.Accepts n c c' := by
  obtain ⟨c₂, hfront, hback⟩ := h.of_mul
  obtain ⟨c₁, hword, hname⟩ := hfront.of_mul
  obtain ⟨c₅, hback, hbody⟩ := hback.of_mul
  obtain ⟨c₄, hback, hresult⟩ := hback.of_mul
  obtain ⟨c₃, hparen, hparams⟩ := hback.of_mul
  have hc₁ := hword.length_rest_le.trans_lt hn
  have hc₂ := hname.length_rest_le.trans_lt hc₁
  have hc₃ := hparen.length_rest_le.trans_lt hc₂
  have hc₄ := hparams.length_rest_le.trans_lt hc₃
  have hc₅ := hresult.length_rest_le.trans_lt hc₄
  obtain ⟨w, hw, hkeyword⟩ := hword.next_of_keywordOf
  obtain rfl := List.mem_singleton.1 hw
  exact (sign_keyword hkeyword hn).bind fun _ ↦
    ((name_of_spellsIn hname hc₁).commit _).bind fun _ ↦
    ((sign_of_spellsIn hparen hc₂).commit _).bind fun _ ↦
    (bodyUntil_of_spellsIn hparams (by decide) hc₃ _).bind fun _ ↦
    (bodyUntil_of_spellsIn hresult (by decide) hc₄ _).bind fun _ ↦
    (bodyUntil_of_spellsIn hbody (by decide) hc₅ _).bind fun _ ↦ .pure _ n c'

/-- What spells a struct is accepted as one. -/
theorem structDecl (h : c.SpellsIn structs c') (hn : c.rest.length < n) :
    Parser.structDecl.Accepts n c c' := by
  obtain ⟨c₂, hfront, hback⟩ := h.of_mul
  obtain ⟨c₁, hword, hname⟩ := hfront.of_mul
  obtain ⟨c₃, hbrace, ts, hts, hinside⟩ := hback.of_mul
  have hc₁ := hword.length_rest_le.trans_lt hn
  have hc₂ := hname.length_rest_le.trans_lt hc₁
  have hc₃ := hbrace.length_rest_le.trans_lt hc₂
  obtain ⟨w, hw, hkeyword⟩ := hword.next_of_keywordOf
  obtain rfl := List.mem_singleton.1 hw
  exact (sign_keyword hkeyword hn).bind fun _ ↦
    ((name_of_spellsIn hname hc₁).commit _).bind fun _ ↦
    ((sign_of_spellsIn hbrace hc₂).commit _).bind fun _ ↦ .after .rounds <|
    (membersWithin hts hinside ((Nat.le_of_add_right_le hinside.length_le).trans_lt hc₃)
      hc₃).bind fun _ ↦ .pure _ n c'

/-- What may be in angle brackets in front of a name is read. -/
theorem template (h : c.SpellsIn templates c₁) (hname : c₁.SpellsIn names c₂)
    (hn : c.rest.length < n) :
    (Parser.optional (sign "<" *> Parser.bodyUntil ">" .code)).Accepts n c c₁ := by
  rcases h.of_add with ⟨ts, rfl, hnil⟩ | h
  · cases hnil
    obtain ⟨x, hx, hnext⟩ := hname.next_of_names
    exact template_none hnext hx hn
  · obtain ⟨c₃, hopen, hbody⟩ := h.of_mul
    exact template_some hopen.next_of_singleton
      (bodyUntil_of_spellsIn hbody (by decide) (hopen.length_rest_le.trans_lt hn) _) hn

theorem valueDecl (h : c.SpellsIn values c') (hn : c.rest.length < n) :
    Parser.valueDecl.Accepts n c c' := by
  obtain ⟨c₃, hfront, hbody⟩ := h.of_mul
  obtain ⟨c₂, hfront, hname⟩ := hfront.of_mul
  obtain ⟨c₁, hword, htemplate⟩ := hfront.of_mul
  have hc₁ := hword.length_rest_le.trans_lt hn
  have hc₂ := htemplate.length_rest_le.trans_lt hc₁
  have hc₃ := hname.length_rest_le.trans_lt hc₂
  obtain ⟨w, hw, hkeyword⟩ := hword.next_of_keywordOf
  have hkind : (Parser.firstOf [
      (fun _ ↦ DeclKind.var) <$> sign "var",
      (fun _ ↦ DeclKind.const) <$> sign "const",
      (fun _ ↦ DeclKind.override) <$> sign "override"]).Accepts n c c₁ := by
    have hother {s : String} (hs : w ≠ s) : (sign s).Meets n c .refused :=
      Meets.sign_refused hkeyword hn fun h ↦ hs (String.ofList_toList.symm.trans h.1)
    have hsign := sign_keyword hkeyword hn
    simp only [List.mem_cons, List.not_mem_nil, or_false] at hw
    rcases hw with rfl | rfl | rfl
    · exact firstOf [] _ (List.forall_mem_nil _) (hsign.map _)
    · refine firstOf [_] _ (List.forall_mem_singleton.2 ?_) (hsign.map _)
      exact (hother (by decide)).map_refused _
    · refine firstOf [_, _] [] (List.forall_mem_cons.2 ⟨?_, List.forall_mem_singleton.2 ?_⟩)
        (hsign.map _)
      · exact (hother (by decide)).map_refused _
      · exact (hother (by decide)).map_refused _
  exact hkind.bind fun _ ↦ (template htemplate hname hc₁).bind fun _ ↦
    ((name_of_spellsIn hname hc₂).commit _).bind fun _ ↦
    (bodyUntil_of_spellsIn hbody (by decide) hc₃ _).bind fun _ ↦ .pure _ n c'

theorem aliasDecl (h : c.SpellsIn aliases c') (hn : c.rest.length < n) :
    Parser.aliasDecl.Accepts n c c' := by
  obtain ⟨c₂, hfront, hback⟩ := h.of_mul
  obtain ⟨c₁, hword, hname⟩ := hfront.of_mul
  obtain ⟨c₃, hequals, hbody⟩ := hback.of_mul
  have hc₁ := hword.length_rest_le.trans_lt hn
  have hc₂ := hname.length_rest_le.trans_lt hc₁
  have hc₃ := hequals.length_rest_le.trans_lt hc₂
  obtain ⟨w, hw, hkeyword⟩ := hword.next_of_keywordOf
  obtain rfl := List.mem_singleton.1 hw
  exact (sign_keyword hkeyword hn).bind fun _ ↦
    ((name_of_spellsIn hname hc₁).commit _).bind fun _ ↦
    ((sign_of_spellsIn hequals hc₂).commit _).bind fun _ ↦
    (bodyUntil_of_spellsIn hbody (by decide) hc₃ _).bind fun _ ↦ .pure _ n c'

end Accepts

/-! ### Declarations -/

/-- Where another word stands, a sign is refused. -/
theorem Meets.sign_refused_of_keyword {w s : String} (h : c.Next (keyword w) c₁) (hne : w ≠ s)
    (hn : c.rest.length < n) : (Parser.sign s).Meets n c .refused :=
  Meets.sign_refused h hn fun hs ↦ hne (String.ofList_toList.symm.trans hs.1)

theorem Meets.valueDecl_refused
    (h : ∀ s ∈ ["var", "const", "override"], (Parser.sign s).Meets n c .refused) :
    Parser.valueDecl.Meets n c .refused := by
  refine bind_refused (firstOf_refused ?_)
  simp only [List.mem_cons, List.not_mem_nil, or_false, forall_eq_or_imp, forall_eq] at h ⊢
  exact ⟨h.1.map_refused _, h.2.1.map_refused _, h.2.2.map_refused _⟩

/-- What is declared is read behind its attributes. -/
theorem Accepts.declared (h : c.SpellsIn (functions + structs + values + aliases) c')
    (hn : c.rest.length < n) :
    (∃ w c₁, c.Next (keyword w) c₁) ∧ (Parser.firstOf [Parser.functionDecl, Parser.structDecl,
      Parser.valueDecl, Parser.aliasDecl]).Accepts n c c' := by
  rcases h.of_add with h | h
  · rcases h.of_add with h | h
    · rcases h.of_add with h | h
      · obtain ⟨w, hw, c₁, hnext⟩ := h.next_of_startsWith startsWith_functions
        exact ⟨⟨w, c₁, hnext⟩, firstOf [] _ (List.forall_mem_nil _) (functionDecl h hn)⟩
      · obtain ⟨w, hw, c₁, hnext⟩ := h.next_of_startsWith startsWith_structs
        obtain rfl := List.mem_singleton.1 hw
        refine ⟨⟨_, c₁, hnext⟩, firstOf [_] _ (List.forall_mem_singleton.2 ?_) (structDecl h hn)⟩
        exact (Meets.sign_refused_of_keyword hnext (by decide) hn).bind_refused
    · obtain ⟨w, hw, c₁, hnext⟩ := h.next_of_startsWith startsWith_values
      refine ⟨⟨_, c₁, hnext⟩, firstOf [_, _] _ ?_ (valueDecl h hn)⟩
      refine List.forall_mem_cons.2 ⟨?_, List.forall_mem_singleton.2 ?_⟩
      · exact (Meets.sign_refused_of_keyword hnext
          (ne_of_mem_of_not_mem hw (by decide)) hn).bind_refused
      · exact (Meets.sign_refused_of_keyword hnext
          (ne_of_mem_of_not_mem hw (by decide)) hn).bind_refused
  · obtain ⟨w, hw, c₁, hnext⟩ := h.next_of_startsWith startsWith_aliases
    obtain rfl := List.mem_singleton.1 hw
    refine ⟨⟨_, c₁, hnext⟩, firstOf [_, _, _] [] ?_ (aliasDecl h hn)⟩
    refine List.forall_mem_cons.2 ⟨?_, List.forall_mem_cons.2
      ⟨?_, List.forall_mem_singleton.2 (Meets.valueDecl_refused fun s hs ↦ ?_)⟩⟩
    · exact (Meets.sign_refused_of_keyword hnext (by decide) hn).bind_refused
    · exact (Meets.sign_refused_of_keyword hnext (by decide) hn).bind_refused
    · exact Meets.sign_refused_of_keyword hnext (ne_of_mem_of_not_mem hs (by decide)).symm hn

/-- A declaration is read. -/
theorem Accepts.unmarkedDecl (h : c.SpellsIn declarations c') (hn : c.rest.length < n) :
    Parser.unmarkedDecl.Accepts n c c' := by
  obtain ⟨c₁, ⟨ms, hms, hmarks⟩, hdecl⟩ := h.of_mul
  obtain ⟨⟨w, c₂, hnext⟩, hread⟩ := declared hdecl (hmarks.length_rest_le.trans_lt hn)
  exact (attributes hms hmarks hnext rfl hn).bind fun _ ↦ hread.bind fun _ ↦ .pure _ n c'

end Parser

end ShaderLink
