import ShaderLink.Proofs.Grammar.Code

/-!
# Code is read by bodies
-/

namespace ShaderLink

open Lexeme

/-! ### What code goes on with -/

/-- The symbols that close bodies. -/
def closers : List String :=
  [")", "]", "\x7d", ">", ";", "\x7b"]

theorem mem_closers_of_mem_brackets {first last : String} (h : (first, last) ∈ brackets) :
    last ∈ closers := by
  simp only [brackets, List.mem_cons, Prod.mk.injEq, List.not_mem_nil, or_false] at h
  rcases h with ⟨-, rfl⟩ | ⟨-, rfl⟩ | ⟨-, rfl⟩ <;> decide

namespace Code

variable {closer s : String} {behind : Bool} {x : Lexeme} {ts xs : List Lexeme}

/-- What a symbol in front of code is. -/
theorem of_symbol (h : Code closer behind (symbol s :: ts)) :
    (s ∉ structural ∧ ¬(behind = true ∧ StartsStep "::" (symbol s :: ts)) ∧ Code closer false ts) ∨
    (behind = true ∧ s = "::" ∧ ∃ x xs, x.kind = .word ∧ x :: xs = ts ∧ Code closer true xs) ∨
    (s = "." ∧ ((∃ x xs, x.kind = .word ∧ x :: xs = ts ∧ Code closer false xs) ∨
      (∀ x ∈ ts.head?, x.kind ≠ .word) ∧ Code closer false ts)) ∨
    (s = "@" ∧ ∃ x xs, x.kind = .word ∧ x :: xs = ts ∧ Code closer false xs) ∨
    ∃ last us vs, (s, last) ∈ brackets ∧ s ≠ closer ∧ us ++ symbol last :: vs = ts ∧
      Code last false us ∧ Code closer false vs := by
  generalize hts : symbol s :: ts = all at h
  cases h with
  | nil => cases hts
  | plain hx hne hpath h =>
    obtain ⟨rfl, rfl⟩ := List.cons.inj hts
    refine .inl ⟨?_, fun hstep ↦ hpath hstep.1 hstep.2, h⟩
    have hs := hx.symbol rfl
    rwa [symbol, String.ofList_toList] at hs
  | name hx =>
    obtain ⟨rfl, -⟩ := List.cons.inj hts
    cases hx.1
  | segment hx h =>
    obtain ⟨hs, heq⟩ := List.cons.inj hts
    exact .inr (.inl ⟨rfl, symbol_inj.1 hs, _, _, hx, heq.symm, h⟩)
  | member hx h =>
    obtain ⟨hs, heq⟩ := List.cons.inj hts
    exact .inr (.inr (.inl ⟨symbol_inj.1 hs, .inl ⟨_, _, hx, heq.symm, h⟩⟩))
  | dot hxs h =>
    obtain ⟨hs, rfl⟩ := List.cons.inj hts
    exact .inr (.inr (.inl ⟨symbol_inj.1 hs, .inr ⟨hxs, h⟩⟩))
  | mark hx h =>
    obtain ⟨hs, heq⟩ := List.cons.inj hts
    exact .inr (.inr (.inr (.inl ⟨symbol_inj.1 hs, _, _, hx, heq.symm, h⟩)))
  | bracket hbracket hne hinside h =>
    obtain ⟨hs, heq⟩ := List.cons.inj hts
    obtain rfl := symbol_inj.1 hs
    exact .inr (.inr (.inr (.inr ⟨_, _, _, hbracket, hne, heq.symm, hinside, h⟩)))
  | loop | declare | template => exact absurd (List.cons.inj hts).1 (symbol_ne_keyword _ _)

/-- Behind a path, a word behind a separator goes on with the path. -/
theorem of_segment (h : Code closer true (symbol "::" :: x :: xs)) (hx : x.kind = .word) :
    Code closer true xs := by
  rcases h.of_symbol with ⟨-, hstep, -⟩ | ⟨-, -, y, ys, -, heq, hrest⟩ | ⟨hs, -⟩ | ⟨hs, -⟩ |
    ⟨last, us, vs, hs, -⟩
  · exact absurd ⟨rfl, x, xs, hx, rfl⟩ hstep
  · obtain ⟨-, rfl⟩ := List.cons.inj heq
    exact hrest
  · exact absurd hs (by decide)
  · exact absurd hs (by decide)
  · simp [brackets] at hs

/-- A word behind a dot is a member. -/
theorem of_member (h : Code closer behind (symbol "." :: x :: xs)) (hx : x.kind = .word) :
    Code closer false xs := by
  rcases h.of_symbol with ⟨hs, -⟩ | ⟨-, hs, -⟩ | ⟨-, ⟨y, ys, -, heq, hrest⟩ | ⟨hxs, -⟩⟩ | ⟨hs, -⟩ |
    ⟨last, us, vs, hs, -⟩
  · exact absurd (by decide) hs
  · exact absurd hs (by decide)
  · obtain ⟨-, rfl⟩ := List.cons.inj heq
    exact hrest
  · exact absurd hx (hxs x rfl)
  · exact absurd hs (by decide)
  · simp [brackets] at hs

/-- A parenthesis is closed. -/
theorem of_paren (h : Code closer behind (symbol "(" :: ts)) :
    ∃ us vs, us ++ symbol ")" :: vs = ts ∧ Code ")" false us ∧ Code closer false vs := by
  rcases h.of_symbol with ⟨hs, -⟩ | ⟨-, hs, -⟩ | ⟨hs, -⟩ | ⟨hs, -⟩ |
    ⟨last, us, vs, hs, -, heq, hus, hvs⟩
  · exact absurd (by decide) hs
  · exact absurd hs (by decide)
  · exact absurd hs (by decide)
  · exact absurd hs (by decide)
  · obtain rfl : last = ")" := by simpa [brackets] using hs
    exact ⟨us, vs, heq, hus, hvs⟩

theorem of_segments (hsteps : Steps "::" ts) (h : Code closer true (ts ++ xs)) :
    Code closer true xs := by
  induction hsteps with
  | nil => exact h
  | cons hx hrest ih => exact ih (h.of_segment hx)

theorem of_members (hsteps : Steps "." ts) (h : Code closer false (ts ++ xs)) :
    Code closer false xs := by
  induction hsteps with
  | nil => exact h
  | cons hx hrest ih => exact ih (h.of_member hx)

end Code

/-- A list starts with as many steps as it has. -/
theorem Lexeme.exists_steps (separator : String) (xs : List Lexeme) :
    ∃ front rest, front ++ rest = xs ∧ Steps separator front ∧ ¬StartsStep separator rest := by
  induction hlength : xs.length using Nat.strong_induction_on generalizing xs with
  | _ n ih =>
    by_cases hstep : StartsStep separator xs
    · obtain ⟨x, ys, hx, rfl⟩ := hstep
      obtain ⟨front, rest, rfl, hfront, hrest⟩ := ih ys.length (by simp at hlength; omega) ys rfl
      exact ⟨symbol separator :: x :: front, rest, rfl, .cons hx hfront, hrest⟩
    · exact ⟨[], xs, rfl, .nil, hstep⟩

namespace Parser

variable {n m : Nat} {c c₁ c₂ c₃ c₄ c₅ c' : Cursor} {x : Lexeme} {xs ys : List Lexeme}

/-! ### Paths -/

namespace Meets

variable {separator s : String}

/-- Words behind separators are read. -/
theorem manyWithin_steps (hsteps : Steps separator xs) (h : c.Spells xs c₁)
    (hrefused : (Parser.sign separator *> Parser.word).Meets n c₁ .refused)
    (hn : c.rest.length < n) (hm : xs.length < m) :
    ∃ tokens, (Parser.manyWithin (Parser.sign separator *> Parser.word) m).Meets n c
      (.accepted tokens c₁) := by
  induction hsteps generalizing c m with
  | nil =>
    cases h
    obtain ⟨m, rfl⟩ := Nat.exists_eq_add_of_lt hm
    exact ⟨[], manyWithin_nil hrefused _⟩
  | cons hx hrest ih =>
    obtain ⟨c₂, hsymbol, h⟩ := h.uncons
    obtain ⟨c₃, hword, h⟩ := h.uncons
    have hc₂ := hsymbol.length_le.trans_lt hn
    obtain ⟨token, hsign⟩ := Accepts.sign_symbol hsymbol hn
    obtain ⟨offset, hword'⟩ := word hword hc₂ hx
    obtain ⟨m, rfl⟩ : ∃ k, m = k + 1 := ⟨m - 1, by omega⟩
    obtain ⟨tokens, hmany⟩ := ih h (hword.length_le.trans_lt hc₂)
      (Nat.lt_of_succ_lt (Nat.lt_of_succ_lt_succ hm))
    exact ⟨_, manyWithin_cons (hsign.seqRight hword') hmany⟩

/-- Where a separator with a word is not next, none is read. -/
theorem step_refused (hs : ¬Text.StartsWord separator.toList ∧ separator.toList.head? ≠ some '#')
    (h : c.Spells (xs ++ [symbol s]) c') (hstep : ¬StartsStep separator xs)
    (hne : s ≠ separator) (hn : c.rest.length < n) :
    (Parser.sign separator *> Parser.word).Meets n c .refused := by
  have hother {x : Lexeme} {c₁ : Cursor} (hx : c.Next x c₁) (hne : x ≠ symbol separator) :
      (Parser.sign separator *> Parser.word).Meets n c .refused :=
    (sign_refused hx hn (by rwa [hx.heads.is_iff_symbol hs.1 hs.2])).seqRight_refused
  cases xs with
  | nil =>
    obtain ⟨c₁, hx, -⟩ := h.uncons
    exact hother hx fun heq ↦ hne (symbol_inj.1 heq)
  | cons x xs =>
    obtain ⟨c₁, hx, hxs⟩ := h.uncons
    by_cases heq : x = symbol separator
    · subst heq
      obtain ⟨token, hsign⟩ := Accepts.sign_symbol hx hn
      refine hsign.seqRight ?_
      have hc₁ := hx.length_le.trans_lt hn
      cases xs with
      | nil =>
        obtain ⟨c₂, hy, -⟩ := hxs.uncons
        exact word_refused hy hc₁ (by rintro ⟨⟩)
      | cons y ys =>
        obtain ⟨c₂, hy, -⟩ := hxs.uncons
        exact word_refused hy hc₁ fun hword ↦ hstep ⟨y, ys, hword, rfl⟩
    · exact hother hx heq

/-- Of a path with something behind it all is read that goes on with the path, dots only where it is
called. -/
theorem referencePath (h : c.Spells (xs ++ [symbol s]) c') (hcolon : s ≠ "::")
    (hdot : s ≠ ".") (hn : c.rest.length < n) :
    ∃ colons dots rest c₁, colons ++ (dots ++ rest) = xs ∧ Steps "::" colons ∧
      ¬StartsStep "::" (dots ++ rest) ∧ Steps "." dots ∧ c₁.rest.length < n ∧
      c₁.Spells (rest ++ [symbol s]) c' ∧
      ∀ first, (Parser.referencePath first).Accepts n c c₁ := by
  obtain ⟨colons, behind, rfl, hcolons, hbehind⟩ := exists_steps "::" xs
  obtain ⟨dots, rest, rfl, hdots, hrest⟩ := exists_steps "." behind
  rw [List.append_assoc] at h
  obtain ⟨c₁, hcolonsRead, h⟩ := h.split
  have hc₁ := hcolonsRead.length_rest_le.trans_lt hn
  obtain ⟨tokens, hmany⟩ := manyWithin_steps hcolons hcolonsRead
    (step_refused (by decide) h hbehind hcolon hc₁) hn
    ((Nat.le_of_add_right_le hcolonsRead.length_le).trans_lt hn)
  have hmany := rounds.bind hmany
  have h' := h
  rw [List.append_assoc] at h
  obtain ⟨c₂, hdotsRead, h⟩ := h.split
  have hc₂ := hdotsRead.length_rest_le.trans_lt hc₁
  obtain ⟨tokens', hmany'⟩ := manyWithin_steps hdots hdotsRead
    (step_refused (by decide) h hrest hdot hc₂) hc₁
    ((Nat.le_of_add_right_le hdotsRead.length_le).trans_lt hc₁)
  have hmany' := rounds.bind hmany'
  obtain ⟨y, c₃, hy⟩ : ∃ y c₃, c₂.Next y c₃ := by
    cases rest with
    | nil =>
      obtain ⟨c₃, hy, -⟩ := h.uncons
      exact ⟨_, c₃, hy⟩
    | cons y rest =>
      obtain ⟨c₃, hy, -⟩ := h.uncons
      exact ⟨y, c₃, hy⟩
  -- dotted words belong to the path only in front of a parenthesis
  by_cases hcalled : y.Is "("
  · obtain ⟨offset, hparen⟩ := sign hy hc₂ hcalled
    exact ⟨colons, dots, rest, c₂, rfl, hcolons, hbehind, hdots, hc₂, h, fun first ↦ .after hmany
      (.after (optional_some (hmany'.bind (hparen.peek.bind (.pure tokens' n c₂))))
        (.pure _ n c₂))⟩
  · have hparen := (sign_refused hy hc₂ hcalled).peek_refused
    exact ⟨colons, [], dots ++ rest, c₁, rfl, hcolons, hbehind, .nil, hc₁, h', fun first ↦
      .after hmany (.after (optional_none (hmany'.bind hparen.bind_refused)) (.pure _ n c₁))⟩

end Meets

/-! ### Bodies -/

/-- From the one cursor to the other a body is read, whatever stands in front of it. -/
def ReadsBody (n m : Nat) (closer : String) (c c' : Cursor) : Prop :=
  ∀ mode previous pending, (bodyWithin m closer mode previous pending).Accepts n c c'

/-- What declares something is reserved. -/
theorem isKeyword_of_mem_declaring {s : String} (h : s ∈ declaring) : isKeyword s = true := by
  simp only [declaring, List.mem_cons, List.not_mem_nil, or_false] at h
  rcases h with rfl | rfl | rfl <;> decide

/-- Where no parenthesis stands, an attribute has no arguments. -/
theorem Accepts.attributeArgs_none {args : Parser (List Event)} (h : c.Next x c₁)
    (hx : x ≠ symbol "(") (hn : c.rest.length < n) (which : String) :
    (attributeArgs args which).Accepts n c c := by
  have hparen : ¬x.Is "(" := by rwa [h.heads.is_iff_symbol (by decide) (by decide)]
  exact .after (Meets.sign_refused h hn hparen).optional_none (.pure _ n c)

theorem Accepts.attributeArgs_some {args : Parser (List Event)} (h : c.Next (symbol "(") c₁)
    (hargs : args.Accepts n c₁ c') (hn : c.rest.length < n) (which : String) :
    (attributeArgs args which).Accepts n c c' := by
  obtain ⟨token, hsign⟩ := Accepts.sign_symbol h hn
  exact .after hsign.optional_some (hargs.bind fun _ ↦ .pure _ n c')

/-- Where no angle bracket stands, no template is read. -/
theorem Accepts.template_none {args : Parser (List Event)} (h : c.Next x c₁) (hx : x.IsName)
    (hn : c.rest.length < n) : (Parser.optional (sign "<" *> args)).Accepts n c c := by
  have hbracket : ¬x.Is "<" := by
    rw [h.heads.is_iff_symbol (by decide) (by decide)]
    rintro rfl
    cases hx.1
  exact ⟨none, (Meets.sign_refused h hn hbracket).seqRight_refused.optional_none⟩

theorem Accepts.template_some {args : Parser (List Event)} (h : c.Next (symbol "<") c₁)
    (hargs : args.Accepts n c₁ c') (hn : c.rest.length < n) :
    (Parser.optional (sign "<" *> args)).Accepts n c c' :=
  ((Accepts.sign_symbol h hn).seqRight hargs).optional

namespace ReadsBody

variable {closer : String}

theorem close (h : c.Next (symbol closer) c') (hn : c.rest.length < n) :
    ReadsBody n (m + 1) closer c c' := by
  intro mode previous pending
  obtain ⟨offset, htoken⟩ := Meets.token h hn
  rw [bodyWithin]
  refine .after (htoken.commit _) ?_
  dsimp only
  rw [if_pos (show ((symbol closer).token offset).kind = .symbol from rfl),
    if_pos (show ((symbol closer).token offset).text = closer from String.ofList_toList)]
  exact .pure pending n c'

/-- A bracket is read up to the one that closes it. -/
theorem bracket {first last : String} (hbracket : (first, last) ∈ brackets) (hne : first ≠ closer)
    (h : c.Next (symbol first) c₁) (hinside : ReadsBody n m last c₁ c₂)
    (hrest : ReadsBody n m closer c₂ c') (hn : c.rest.length < n) :
    ReadsBody n (m + 1) closer c c' := by
  intro mode previous pending
  obtain ⟨offset, htoken⟩ := Meets.token h hn
  have htext : ((symbol first).token offset).text = first := String.ofList_toList
  have hmore := hrest mode first pending
  have hinside := hinside .code "" []
  simp only [brackets, List.mem_cons, Prod.mk.injEq, List.not_mem_nil, or_false] at hbracket
  rw [bodyWithin]
  refine .after (htoken.commit _) ?_
  dsimp only
  rw [if_pos (show ((symbol _).token offset).kind = .symbol from rfl), htext, if_neg hne]
  rcases hbracket with ⟨rfl, rfl⟩ | ⟨rfl, rfl⟩ | ⟨rfl, rfl⟩
  · exact hinside.bind fun _ ↦ hmore.bind fun _ ↦ .pure _ n c'
  · exact hinside.bind fun _ ↦ hmore.bind fun _ ↦ .pure _ n c'
  · exact hinside.bind fun _ ↦ hmore.bind fun _ ↦ .pure _ n c'

theorem member (hne : "." ≠ closer) (h : c.Next (symbol ".") c₁)
    (hmember : (Parser.optional word).Accepts n c₁ c₂)
    (hrest : ReadsBody n m closer c₂ c') (hn : c.rest.length < n) :
    ReadsBody n (m + 1) closer c c' := by
  intro mode previous pending
  obtain ⟨offset, htoken⟩ := Meets.token h hn
  have htext : ((symbol ".").token offset).text = "." := String.ofList_toList
  rw [bodyWithin]
  refine .after (htoken.commit _) ?_
  dsimp only
  rw [if_pos (show ((symbol _).token offset).kind = .symbol from rfl), htext, if_neg hne]
  exact hmember.bind fun _ ↦ hrest mode "." pending

/-- An attribute is read with its arguments. -/
theorem mark (hne : "@" ≠ closer) (h : c.Next (symbol "@") c₁) (hmark : word.Accepts n c₁ c₂)
    (hargs : ∀ which, (attributeArgs (bodyWithin m ")" .code "" []) which).Accepts n c₂ c₃)
    (hrest : ReadsBody n m closer c₃ c') (hn : c.rest.length < n) :
    ReadsBody n (m + 1) closer c c' := by
  intro mode previous pending
  obtain ⟨offset, htoken⟩ := Meets.token h hn
  have htext : ((symbol "@").token offset).text = "@" := String.ofList_toList
  rw [bodyWithin]
  refine .after (htoken.commit _) ?_
  dsimp only
  rw [if_pos (show ((symbol _).token offset).kind = .symbol from rfl), htext, if_neg hne]
  exact (hmark.commit _).bind fun which ↦ (hargs which.text).bind fun _ ↦
    (hrest mode "@" pending).bind fun _ ↦ .pure _ n c'

/-- A loop is read with its header and its block. -/
theorem loop (h : c.Next (keyword "for") c₁) (hopen : c₁.Next (symbol "(") c₂)
    (hheader : ReadsBody n m ")" c₂ c₃) (hopen' : c₃.Next (symbol "\x7b") c₄)
    (hblock : ReadsBody n m "\x7d" c₄ c₅) (hrest : ReadsBody n m closer c₅ c')
    (hn : c.rest.length < n) (hc₃ : c₃.rest.length < n) : ReadsBody n (m + 1) closer c c' := by
  intro mode previous pending
  obtain ⟨offset, htoken⟩ := Meets.token h hn
  have htext : ((keyword "for").token offset).text = "for" := String.ofList_toList
  rw [bodyWithin]
  refine .after (htoken.commit _) ?_
  dsimp only
  rw [if_neg (show ((keyword _).token offset).kind ≠ .symbol by rintro ⟨⟩),
    if_pos (show ((keyword _).token offset).kind = .word from rfl), htext, if_pos rfl]
  exact ((Accepts.sign_symbol hopen (h.length_le.trans_lt hn)).commit _).bind fun _ ↦
    (hheader .code "" []).bind fun _ ↦ ((Accepts.sign_symbol hopen' hc₃).commit _).bind fun _ ↦
    (hblock .code "" []).bind fun _ ↦ (hrest mode "for" pending).bind fun _ ↦ .pure _ n c'

/-- A declaration is read up to its name. -/
theorem declare {declares : String} (hdeclares : declares ∈ declaring)
    (h : c.Next (keyword declares) c₁)
    (htemplate : (Parser.optional (sign "<" *> bodyWithin m ">" .code "" [])).Accepts n c₁ c₂)
    (hname : name.Accepts n c₂ c₃) (hrest : ReadsBody n m closer c₃ c')
    (hn : c.rest.length < n) : ReadsBody n (m + 1) closer c c' := by
  intro mode previous pending
  obtain ⟨offset, htoken⟩ := Meets.token h hn
  have htext : ((keyword declares).token offset).text = declares := String.ofList_toList
  have hfor : declares ≠ "for" := ne_of_mem_of_not_mem hdeclares (by decide)
  rw [bodyWithin]
  refine .after (htoken.commit _) ?_
  dsimp only
  rw [if_neg (show ((keyword _).token offset).kind ≠ .symbol by rintro ⟨⟩),
    if_pos (show ((keyword _).token offset).kind = .word from rfl), htext, if_neg hfor,
    if_pos (show ["let", "var", "const"].contains declares = true from
      List.contains_iff_mem.2 hdeclares)]
  exact htemplate.bind fun _ ↦ (hname.commit _).bind fun _ ↦ hrest _ _ _

/-- A name is read with all that goes on with it. -/
theorem mention (h : c.Next x c₁) (hx : x.IsName)
    (hmention : ∀ mode, ∃ c₂, (∀ previous token,
      (Parser.mention mode previous token).Accepts n c₁ c₂) ∧ ReadsBody n m closer c₂ c')
    (hn : c.rest.length < n) : ReadsBody n (m + 1) closer c c' := by
  intro mode previous pending
  obtain ⟨offset, htoken⟩ := Meets.token h hn
  obtain ⟨c₂, hmention, hrest⟩ := hmention mode
  have hkeyword : isKeyword (x.token offset).text = false := hx.2
  rw [bodyWithin]
  refine .after (htoken.commit _) ?_
  dsimp only
  rw [if_neg (show (x.token offset).kind ≠ .symbol by
      rw [show (x.token offset).kind = .word from hx.1]; rintro ⟨⟩),
    if_pos (show (x.token offset).kind = .word from hx.1), if_neg, if_neg, if_neg]
  · exact (hmention previous _).bind fun _ ↦ (hrest _ _ _).bind fun _ ↦ .pure _ n c'
  · rw [hkeyword]
    exact Bool.false_ne_true
  · intro hdeclares
    have hdeclares : (x.token offset).text ∈ declaring := List.contains_iff_mem.1 hdeclares
    exact Bool.eq_false_iff.1 hkeyword (isKeyword_of_mem_declaring hdeclares)
  · intro hfor
    rw [hfor] at hkeyword
    exact absurd hkeyword (by decide)

/-- Plain lexemes are passed. -/
theorem plain (h : c.Next x c₁) (hx : x.IsPlain) (hne : x ≠ symbol closer)
    (hrest : ReadsBody n m closer c₁ c') (hn : c.rest.length < n) :
    ReadsBody n (m + 1) closer c c' := by
  intro mode previous pending
  obtain ⟨offset, htoken⟩ := Meets.token h hn
  have hstructural (hsymbol : x.kind = .symbol) : (x.token offset).text ∉ structural :=
    hx.symbol hsymbol
  have hword (hword : x.kind = .word) : isKeyword (x.token offset).text = true ∧
      (x.token offset).text ≠ "for" ∧ (x.token offset).text ∉ declaring := hx.word hword
  have hcloses (hsymbol : x.kind = .symbol) : (x.token offset).text ≠ closer :=
    fun htext ↦ hne (eq_symbol hsymbol htext)
  have hkind : (x.token offset).kind = x.kind := rfl
  rw [bodyWithin]
  refine .after (htoken.commit _) ?_
  dsimp only
  rw [hkind]
  generalize (x.token offset).text = s at hstructural hword hcloses ⊢
  split
  · rename_i hsymbol
    have hs := hstructural hsymbol
    rw [if_neg (hcloses hsymbol)]
    split
    · exact (hrest _ _ _).bind fun _ ↦ .pure _ n c'
    all_goals first | exact absurd (by decide) hs | exact hrest _ _ _
  · split
    · rename_i hkind
      obtain ⟨hkeyword, hfor, hdeclaring⟩ := hword hkind
      rw [if_neg hfor, if_neg (show ¬["let", "var", "const"].contains s = true from
        fun h ↦ hdeclaring (List.contains_iff_mem.1 h)), if_pos hkeyword]
      exact hrest _ _ _
    · exact hrest _ _ _

end ReadsBody

/-! ### Code is read -/

section

variable {closer : String}

/-- A name is read with the rest of its path, or is declared in front of a colon. -/
theorem exists_mention (h : Code closer true xs) (hcloser : closer ∈ closers)
    (hspells : c.Spells (xs ++ [symbol closer]) c') (hn : c.rest.length < n) (mode : BodyMode) :
    ∃ ys c₁, Code closer false ys ∧ ys.length ≤ xs.length ∧ c₁.rest.length < n ∧
      c₁.Spells (ys ++ [symbol closer]) c' ∧
      ∀ previous token, (mention mode previous token).Accepts n c c₁ := by
  have hcolon : closer ≠ "::" := ne_of_mem_of_not_mem hcloser (by decide)
  have hdot : closer ≠ "." := ne_of_mem_of_not_mem hcloser (by decide)
  have hpath (declares : Parser Bool) (hdeclares : declares.Meets n c (.accepted false c)) :
      ∃ ys c₁, Code closer false ys ∧ ys.length ≤ xs.length ∧ c₁.rest.length < n ∧
        c₁.Spells (ys ++ [symbol closer]) c' ∧
        ∀ previous token, (do
          let declares ← declares
          if declares then
            return .declare token.text token.span
          else
            let r ← referencePath token
            return .reference r.1 r.2.1 (if r.2.2 then .call else referenceKind previous) :
          Parser Event).Accepts n c c₁ := by
    obtain ⟨colons, dots, rest, c₁, rfl, hcolons, hbehind, hdots, hc₁, hrest, hread⟩ :=
      Meets.referencePath hspells hcolon hdot hn
    refine ⟨rest, c₁, ((h.of_segments hcolons).ahead hbehind).of_members hdots, ?_, hc₁, hrest,
      fun previous token ↦ .after hdeclares ?_⟩
    · rw [List.length_append, List.length_append]
      omega
    · rw [if_neg Bool.false_ne_true]
      exact (hread token).bind fun _ ↦ .pure _ n c₁
  cases mode with
  | code => exact hpath _ (.pure false n c)
  | params =>
    obtain ⟨y, c₁, hy, hfirst⟩ : ∃ y c₁, c.Next y c₁ ∧ ∀ x ∈ xs.head?, x = y := by
      cases xs with
      | nil =>
        obtain ⟨c₁, hy, -⟩ := hspells.uncons
        exact ⟨_, c₁, hy, by simp⟩
      | cons y xs =>
        obtain ⟨c₁, hy, -⟩ := hspells.uncons
        exact ⟨y, c₁, hy, fun x hx ↦ (Option.some.inj hx).symm⟩
    by_cases hcolon : y.Is ":"
    · -- the colon is not the separator of a path
      have hend : ¬StartsStep "::" xs := by
        rintro ⟨x, ys, -, rfl⟩
        rw [← hfirst _ rfl] at hcolon
        exact absurd (hcolon.1.symm.trans String.ofList_toList) (by decide)
      obtain ⟨offset, hsign⟩ := Meets.sign hy hn hcolon
      refine ⟨xs, c, h.ahead hend, Nat.le_refl _, hn, hspells, fun previous token ↦
        .after (hsign.peek.optional_some.map Option.isSome) ?_⟩
      exact .pure _ n c
    · exact hpath _ ((Meets.sign_refused hy hn hcolon).peek_refused.optional_none.map _)

/-- Code is read up to the symbol that closes it. -/
theorem readsBody (h : Code closer false xs) (hcloser : closer ∈ closers)
    (hspells : c.Spells (xs ++ [symbol closer]) c') (hm : xs.length < m)
    (hn : c.rest.length < n) : ReadsBody n m closer c c' := by
  induction m generalizing closer c c' xs with
  | zero => exact absurd hm (Nat.not_lt_zero _)
  | succ m ih =>
    have hother {s : String} (hs : s ∉ closers) : s ≠ closer :=
      (ne_of_mem_of_not_mem hcloser hs).symm
    have hbehind {x : Lexeme} {c c₁ : Cursor} (h : c.Next x c₁) (hn : c.rest.length < n) :
        c₁.rest.length < n := h.length_le.trans_lt hn
    -- one case for each way in which code goes on, read by the branch of the body for it
    cases h with
    | nil =>
      obtain ⟨c₁, hclose, hnil⟩ := hspells.uncons
      cases hnil
      exact .close hclose hn
    | plain hx hne hpath h =>
      obtain ⟨c₁, hnext, hrest⟩ := hspells.uncons
      rw [List.length_cons] at hm
      exact .plain hnext hx hne (ih h hcloser hrest (by omega) (hbehind hnext hn)) hn
    | name hx h =>
      obtain ⟨c₁, hnext, hrest⟩ := hspells.uncons
      refine .mention hnext hx (fun mode ↦ ?_) hn
      obtain ⟨ys, c₂, hys, hlength, hc₂, hrest, hmention⟩ :=
        exists_mention h hcloser hrest (hbehind hnext hn) mode
      rw [List.length_cons] at hm
      exact ⟨c₂, hmention, ih hys hcloser hrest (by omega) hc₂⟩
    | member hx h =>
      obtain ⟨c₁, hnext, hrest⟩ := hspells.uncons
      obtain ⟨c₂, hword, hrest⟩ := hrest.uncons
      have hc₁ := hbehind hnext hn
      obtain ⟨offset, hread⟩ := Meets.word hword hc₁ hx
      rw [List.length_cons, List.length_cons] at hm
      exact .member (hother (by decide)) hnext (.optional ⟨_, hread⟩)
        (ih h hcloser hrest (by omega) (hbehind hword hc₁)) hn
    | @dot _ _ ys hxs h =>
      obtain ⟨c₁, hnext, hrest⟩ := hspells.uncons
      have hc₁ := hbehind hnext hn
      have hrefused : word.Meets n c₁ .refused := by
        cases ys with
        | nil =>
          obtain ⟨c₂, hy, -⟩ := hrest.uncons
          exact .word_refused hy hc₁ (by rintro ⟨⟩)
        | cons y ys =>
          obtain ⟨c₂, hy, -⟩ := hrest.uncons
          exact .word_refused hy hc₁ (hxs y rfl)
      rw [List.length_cons] at hm
      exact .member (hother (by decide)) hnext ⟨none, hrefused.optional_none⟩
        (ih h hcloser hrest (by omega) hc₁) hn
    | @mark _ _ x ys hx h =>
      obtain ⟨c₁, hnext, hrest⟩ := hspells.uncons
      obtain ⟨c₂, hword, hrest⟩ := hrest.uncons
      have hc₁ := hbehind hnext hn
      have hc₂ := hbehind hword hc₁
      obtain ⟨offset, hread⟩ := Meets.word hword hc₁ hx
      rw [List.length_cons, List.length_cons] at hm
      rcases ys with rfl | ⟨y, ys⟩
      · obtain ⟨c₃, hclose, -⟩ := hrest.uncons
        exact .mark (hother (by decide)) hnext ⟨_, hread⟩
          (.attributeArgs_none hclose (fun heq ↦ hother (by decide) (symbol_inj.1 heq).symm) hc₂)
          (ih h hcloser hrest (by omega) hc₂) hn
      -- the parenthesis of arguments cannot be the end of the body
      by_cases hy : y = symbol "("
      · subst hy
        obtain ⟨us, vs, rfl, hus, hvs⟩ := h.of_paren
        obtain ⟨c₃, hparen, hrest⟩ := hrest.uncons
        rw [List.append_eq, List.append_assoc, List.cons_append] at hrest
        obtain ⟨c₄, hbody, hrest⟩ := hrest.split_cons
        have hc₃ := hbehind hparen hc₂
        rw [List.length_cons, List.length_append, List.length_cons] at hm
        exact .mark (hother (by decide)) hnext ⟨_, hread⟩
          (.attributeArgs_some hparen (ih hus (by decide) hbody (by omega) hc₃ .code "" []) hc₂)
          (ih hvs hcloser hrest (by omega) (hbody.length_rest_le.trans_lt hc₃)) hn
      · obtain ⟨c₃, hnext', -⟩ := hrest.uncons
        exact .mark (hother (by decide)) hnext ⟨_, hread⟩ (.attributeArgs_none hnext' hy hc₂)
          (ih h hcloser hrest (by omega) hc₂) hn
    | bracket hbracket hne hinside h =>
      obtain ⟨c₁, hnext, hrest⟩ := hspells.uncons
      rw [List.append_eq, List.append_assoc, List.cons_append] at hrest
      obtain ⟨c₂, hbody, hrest⟩ := hrest.split_cons
      have hc₁ := hbehind hnext hn
      rw [List.length_cons, List.length_append, List.length_cons] at hm
      exact .bracket hbracket hne hnext
        (ih hinside (mem_closers_of_mem_brackets hbracket) hbody (by omega) hc₁)
        (ih h hcloser hrest (by omega) (hbody.length_rest_le.trans_lt hc₁)) hn
    | loop hheader hblock h =>
      obtain ⟨c₁, hnext, hrest⟩ := hspells.uncons
      obtain ⟨c₂, hopen, hrest⟩ := hrest.uncons
      rw [List.append_eq, List.append_assoc, List.cons_append] at hrest
      obtain ⟨c₃, hheaderRead, hrest⟩ := hrest.split_cons
      obtain ⟨c₄, hopen', hrest⟩ := hrest.uncons
      rw [List.append_eq, List.append_assoc, List.cons_append] at hrest
      obtain ⟨c₅, hblockRead, hrest⟩ := hrest.split_cons
      have hc₂ := hbehind hopen (hbehind hnext hn)
      have hc₃ := hheaderRead.length_rest_le.trans_lt hc₂
      have hc₄ := hbehind hopen' hc₃
      simp only [List.length_cons, List.length_append] at hm
      exact .loop hnext hopen (ih hheader (by decide) hheaderRead (by omega) hc₂) hopen'
        (ih hblock (by decide) hblockRead (by omega) hc₄)
        (ih h hcloser hrest (by omega) (hblockRead.length_rest_le.trans_lt hc₄)) hn hc₃
    | declare hdeclares hx h =>
      obtain ⟨c₁, hnext, hrest⟩ := hspells.uncons
      obtain ⟨c₂, hname, hrest⟩ := hrest.uncons
      have hc₁ := hbehind hnext hn
      obtain ⟨offset, hread⟩ := Meets.name hname hc₁ hx
      rw [List.length_cons, List.length_cons] at hm
      exact .declare hdeclares hnext (.template_none hname hx hc₁) ⟨_, hread⟩
        (ih h hcloser hrest (by omega) (hbehind hname hc₁)) hn
    | template hdeclares hargs hx h =>
      obtain ⟨c₁, hnext, hrest⟩ := hspells.uncons
      obtain ⟨c₂, hopen, hrest⟩ := hrest.uncons
      rw [List.append_eq, List.append_assoc, List.cons_append] at hrest
      obtain ⟨c₃, hargsRead, hrest⟩ := hrest.split_cons
      obtain ⟨c₄, hname, hrest⟩ := hrest.uncons
      have hc₁ := hbehind hnext hn
      have hc₂ := hbehind hopen hc₁
      have hc₃ := hargsRead.length_rest_le.trans_lt hc₂
      obtain ⟨offset, hread⟩ := Meets.name hname hc₃ hx
      simp only [List.length_cons, List.length_append] at hm
      exact .declare hdeclares hnext
        (.template_some hopen (ih hargs (by decide) hargsRead (by omega) hc₂ .code "" []) hc₁)
        ⟨_, hread⟩ (ih h hcloser hrest (by omega) (hbehind hname hc₃)) hn

/-- All of the language of bodies is read as a body. -/
theorem Accepts.bodyUntil (h : Code closer false xs) (hcloser : closer ∈ closers)
    (hspells : c.Spells (xs ++ [symbol closer]) c') (hn : c.rest.length < n) (mode : BodyMode) :
    (Parser.bodyUntil closer mode).Accepts n c c' := by
  have hlength := hspells.length_le
  rw [List.length_append] at hlength
  exact .after Meets.rounds (readsBody h hcloser hspells (by omega) hn mode "" [])

end

end Parser

end ShaderLink
