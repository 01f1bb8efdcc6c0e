import ShaderLink.Proofs.Grammar.Parentheses

/-!
# Declarations are read in one way

What tokens are read as is decided by the tokens alone: from the start of a body on, only one
reading reaches the symbol that closes it (`Reading.Body.unique`), and all the tokens of a
declaration have one name, one role for each word and one list of events (`Reading.Marked.unique`).
The next token tells which rule applies. Paths are the only parts that look further ahead, never
past a symbol that closes something (`Reading.path_append_iff`).
-/

namespace ShaderLink.Reading

open ShaderLink.Parser

/-! ### Paths -/

section Paths

variable {separator s : String} {called called' : Bool}
  {ts us vs ws us' vs' words words' : List Token} {t stop : Token}

/-- The symbols that a path can go on with, and the one that shows that it is called. -/
def pathSymbols : List String :=
  ["::", ".", "("]

/-- No path goes on at the token or behind it. -/
def Stops (t : Token) : Prop :=
  t.kind = .symbol ∧ t.text ∉ pathSymbols

theorem Stops.not_isSymbol (h : Stops t) (hs : s ∈ pathSymbols) : ¬t.IsSymbol s :=
  fun hsymbol ↦ h.2 (hsymbol.2 ▸ hs)

theorem Stops.not_word (h : Stops t) : t.kind ≠ .word := by
  rw [h.1]
  decide

theorem stops_of_isSymbol (h : t.IsSymbol s) (hs : s ∉ pathSymbols) : Stops t :=
  ⟨h.1, h.2 ▸ hs⟩

theorem not_goesOn_of_head (h : ∃ x ∈ ts.head?, x.IsSymbol s) (hne : s ≠ separator) :
    ¬GoesOn separator ts := by
  rintro ⟨mark, x, us, rfl, hmark, -⟩
  obtain ⟨y, hy, hsymbol⟩ := h
  obtain rfl := Option.some.inj hy
  exact hne (hsymbol.unique hmark)

/-- What stands behind a token that no path goes on at does not matter to the paths in front. -/
theorem goesOn_append_iff (hs : separator ∈ pathSymbols) (hstop : Stops stop) :
    GoesOn separator (vs ++ stop :: ws) ↔ GoesOn separator vs := by
  constructor
  · rintro ⟨mark, x, us, heq, hmark, hx⟩
    rcases vs with _ | ⟨v, _ | ⟨v', vs⟩⟩
    · exact absurd ((List.cons.inj heq).1 ▸ hmark) (hstop.not_isSymbol hs)
    · exact absurd ((List.cons.inj (List.cons.inj heq).2).1 ▸ hx) hstop.not_word
    · simp only [List.cons_append, List.cons.injEq] at heq
      obtain ⟨rfl, rfl, -⟩ := heq
      exact ⟨_, _, vs, rfl, hmark, hx⟩
  · rintro ⟨mark, x, us, rfl, hmark, hx⟩
    exact ⟨mark, x, us ++ stop :: ws, rfl, hmark, hx⟩

/-- Whether a path is called is seen no further than up to such a token either. -/
theorem calls_append_iff (hstop : Stops stop) : Calls (vs ++ stop :: ws) ↔ Calls vs := by
  constructor
  · rintro ⟨us, words, paren, rest, heq, hwords, hparen⟩
    induction hwords generalizing vs with
    | nil =>
      cases vs with
      | nil => exact absurd ((List.cons.inj heq).1 ▸ hparen) (hstop.not_isSymbol (by decide))
      | cons v vs => exact ⟨[], [], v, vs, rfl, .nil, (List.cons.inj heq).1 ▸ hparen⟩
    | @cons mark x us words hmark hx _ ih =>
      rcases vs with _ | ⟨v, _ | ⟨v', vs⟩⟩
      · exact absurd ((List.cons.inj heq).1 ▸ hmark) (hstop.not_isSymbol (by decide))
      · exact absurd ((List.cons.inj (List.cons.inj heq).2).1 ▸ hx) hstop.not_word
      · simp only [List.cons_append, List.cons.injEq] at heq
        obtain ⟨rfl, rfl, heq⟩ := heq
        obtain ⟨us', words', paren', rest', rfl, hwords, hparen⟩ := ih heq
        exact ⟨_, _, paren', rest', rfl, .cons hmark hx hwords, hparen⟩
  · rintro ⟨us, words, paren, rest, rfl, hwords, hparen⟩
    exact ⟨us, words, paren, rest ++ stop :: ws, by simp, hwords, hparen⟩

/-- So a path inside of brackets is the same whatever stands behind the brackets. -/
theorem path_append_iff (hstop : Stops stop) :
    Path called us words (vs ++ stop :: ws) ↔ Path called us words vs := by
  constructor
  · intro h
    cases h with
    | plain hcolons hend hcalls =>
      exact .plain hcolons (fun h ↦ hend ((goesOn_append_iff (by decide) hstop).2 h))
        fun h ↦ hcalls ((calls_append_iff hstop).2 h)
    | called hcolons hdots hparen =>
      obtain ⟨x, hx, hsymbol⟩ := hparen
      cases vs with
      | nil => exact absurd (Option.some.inj hx ▸ hsymbol) (hstop.not_isSymbol (by decide))
      | cons v vs => exact .called hcolons hdots ⟨x, hx, hsymbol⟩
  · intro h
    cases h with
    | plain hcolons hend hcalls =>
      exact .plain hcolons (fun h ↦ hend ((goesOn_append_iff (by decide) hstop).1 h))
        fun h ↦ hcalls ((calls_append_iff hstop).1 h)
    | called hcolons hdots hparen =>
      obtain ⟨x, hx, hsymbol⟩ := hparen
      exact .called hcolons hdots ⟨x, by rw [List.head?_append, hx]; rfl, hsymbol⟩

/-- Words behind separators that go on as far as they can are decided by the tokens. -/
theorem Words.unique (h : Words separator us words) (h' : Words separator us' words')
    (heq : us ++ vs = us' ++ vs') (hend : ¬GoesOn separator vs) (hend' : ¬GoesOn separator vs') :
    us = us' ∧ words = words' ∧ vs = vs' := by
  induction h generalizing us' words' with
  | nil =>
    cases h' with
    | nil => exact ⟨rfl, rfl, heq⟩
    | cons hmark hx _ => exact absurd ⟨_, _, _, heq, hmark, hx⟩ hend
  | cons hmark hx _ ih =>
    cases h' with
    | nil => exact absurd ⟨_, _, _, heq.symm, hmark, hx⟩ hend'
    | cons _ _ h' =>
      simp only [List.cons_append, List.cons.injEq] at heq
      obtain ⟨rfl, rfl, heq⟩ := heq
      obtain ⟨rfl, rfl, hvs⟩ := ih h' heq
      exact ⟨rfl, rfl, hvs⟩

/-- In front of dots and a parenthesis there are no more colons. -/
theorem Words.not_goesOn (h : Words "." us words) (hparen : ∃ x ∈ vs.head?, x.IsSymbol "(") :
    ¬GoesOn "::" (us ++ vs) := by
  cases h with
  | nil => exact not_goesOn_of_head hparen (by decide)
  | cons hdot _ _ => exact not_goesOn_of_head ⟨_, rfl, hdot⟩ (by decide)

/-- Dotted words in front of a parenthesis show that the path is called. -/
theorem Words.calls (h : Words "." us words) (hparen : ∃ x ∈ vs.head?, x.IsSymbol "(") :
    Calls (us ++ vs) := by
  obtain ⟨x, hx, hsymbol⟩ := hparen
  obtain ⟨rest, rfl⟩ := List.head?_eq_some_iff.1 hx
  exact ⟨us, words, x, rest, rfl, h, hsymbol⟩

/-- How far a path goes is decided by the tokens. -/
theorem Path.unique (h : Path called us words vs) (h' : Path called' us' words' vs')
    (heq : us ++ vs = us' ++ vs') : called = called' ∧ us = us' ∧ words = words' ∧ vs = vs' := by
  cases h with
  | plain hcolons hend hcalls =>
    cases h' with
    | plain hcolons' hend' _ => exact ⟨rfl, hcolons.unique hcolons' heq hend hend'⟩
    | called hcolons' hdots' hparen' =>
      rw [List.append_assoc] at heq
      obtain ⟨-, -, rfl⟩ := hcolons.unique hcolons' heq hend (hdots'.not_goesOn hparen')
      exact absurd (hdots'.calls hparen') hcalls
  | called hcolons hdots hparen =>
    rw [List.append_assoc] at heq
    cases h' with
    | plain hcolons' hend' hcalls' =>
      obtain ⟨-, -, rfl⟩ := hcolons.unique hcolons' heq (hdots.not_goesOn hparen) hend'
      exact absurd (hdots.calls hparen) hcalls'
    | called hcolons' hdots' hparen' =>
      rw [List.append_assoc] at heq
      obtain ⟨rfl, rfl, heq⟩ := hcolons.unique hcolons' heq (hdots.not_goesOn hparen)
        (hdots'.not_goesOn hparen')
      obtain ⟨rfl, rfl, rfl⟩ := hdots.unique hdots' heq
        (not_goesOn_of_head hparen (by decide)) (not_goesOn_of_head hparen' (by decide))
      exact ⟨rfl, rfl, rfl, rfl⟩

end Paths

/-! ### The next token of a body -/

section Next

variable {closer previous : String} {mode : BodyMode} {pending events : List Event} {t : Token}
  {ts rest : List Token} {roles : List (Token × Role)}

theorem isKeyword_of_mem : ∀ s ∈ "for" :: declaring, isKeyword s = true := by
  decide

/-- The symbol that closes a body ends it, and what is pending takes effect. -/
theorem Body.of_closer (ht : t.IsSymbol closer)
    (h : Body closer mode previous pending (t :: ts) roles events) :
    ts = [] ∧ roles = [] ∧ events = pending := by
  cases h with
  | close => exact ⟨rfl, rfl, rfl⟩
  | _ => simp_all [Token.IsSymbol, Token.IsName, Token.IsReserved]

/-- Behind a semicolon nothing is pending any more. -/
theorem Body.of_semicolon (ht : t.IsSymbol ";") (hne : t.text ≠ closer)
    (h : Body closer mode previous pending (t :: ts) roles events) :
    ∃ events', Body closer mode t.text [] ts roles events' ∧ events = pending ++ events' := by
  cases h with
  | statement _ _ h => exact ⟨_, h, rfl⟩
  | _ => simp_all [Token.IsSymbol, Token.IsName, Token.IsReserved, groups, structural]

/-- A brace opens a block. -/
theorem Body.of_brace (ht : t.IsSymbol "\x7b") (hne : t.text ≠ closer)
    (h : Body closer mode previous pending (t :: ts) roles events) :
    ∃ us vs found roles' inside events', Body "\x7d" .code "" [] us found inside ∧
      Body closer mode t.text pending vs roles' events' ∧ ts = us ++ vs ∧ roles = found ++ roles' ∧
      events = .openBlock :: (inside ++ .closeBlock :: events') := by
  cases h with
  | block _ _ hinside h => exact ⟨_, _, _, _, _, _, hinside, h, rfl, rfl, rfl⟩
  | _ => simp_all [Token.IsSymbol, Token.IsName, Token.IsReserved, groups, structural]

/-- Other brackets open a group, which leaves its events in place. -/
theorem Body.of_group {last : String} (ht : t.kind = .symbol) (hlast : (t.text, last) ∈ groups)
    (hne : t.text ≠ closer) (h : Body closer mode previous pending (t :: ts) roles events) :
    ∃ us vs found roles' inside events', Body last .code "" [] us found inside ∧
      Body closer mode t.text pending vs roles' events' ∧ ts = us ++ vs ∧ roles = found ++ roles' ∧
      events = inside ++ events' := by
  simp only [groups, List.mem_cons, Prod.mk.injEq, List.not_mem_nil, or_false] at hlast
  cases h with
  | @group _ _ last' _ _ _ _ _ _ _ _ _ _ hlast' _ hinside h =>
    have hsame : last' = last := by
      simp only [groups, List.mem_cons, Prod.mk.injEq, List.not_mem_nil, or_false] at hlast'
      rcases hlast with ⟨htext, rfl⟩ | ⟨htext, rfl⟩ <;> simp_all
    exact ⟨_, _, _, _, _, _, hsame ▸ hinside, h, rfl, rfl, rfl⟩
  | _ => rcases hlast with ⟨htext, -⟩ | ⟨htext, -⟩ <;> simp_all [Token.IsSymbol, Token.IsName,
      Token.IsReserved, structural]

/-- Behind an at sign stands the name of an attribute. Whether arguments follow is told by the
parenthesis. -/
theorem Body.of_at (ht : t.IsSymbol "@") (hne : t.text ≠ closer)
    (h : Body closer mode previous pending (t :: ts) roles events) :
    (∃ which vs roles', which.kind = .word ∧ (∀ x ∈ vs.head?, ¬x.IsSymbol "(") ∧
      Body closer mode t.text pending vs roles' events ∧ ts = which :: vs ∧
      roles = (which, .mark) :: roles') ∨
    ∃ which paren us vs found roles' inside events', which.kind = .word ∧ paren.IsSymbol "(" ∧
      Body ")" .code "" [] us found inside ∧ Body closer mode t.text pending vs roles' events' ∧
      ts = which :: paren :: (us ++ vs) ∧
      roles = (which, .mark) :: ((if expressionAttributes.contains which.text then found else
        wordsAs .enumerant us) ++ roles') ∧
      events = (if expressionAttributes.contains which.text then inside else []) ++ events' := by
  cases h with
  | «attribute» _ _ hwhich hhead h => exact .inl ⟨_, _, _, hwhich, hhead, h, rfl, rfl⟩
  | arguments _ _ hwhich hparen hinside h =>
    exact .inr ⟨_, _, _, _, _, _, _, _, hwhich, hparen, hinside, h, rfl, rfl, rfl⟩
  | _ => simp_all [Token.IsSymbol, Token.IsName, Token.IsReserved, groups, structural]

/-- A dot takes the word behind it, if there is one. -/
theorem Body.of_dot (ht : t.IsSymbol ".") (hne : t.text ≠ closer)
    (h : Body closer mode previous pending (t :: ts) roles events) :
    (∃ x vs roles', x.kind = .word ∧ Body closer mode t.text pending vs roles' events ∧
      ts = x :: vs ∧ roles = (x, .access) :: roles') ∨
    (∀ x ∈ ts.head?, x.kind ≠ .word) ∧ Body closer mode t.text pending ts roles events := by
  cases h with
  | member _ _ hx h => exact .inl ⟨_, _, _, hx, h, rfl, rfl⟩
  | dot _ _ hhead h => exact .inr ⟨hhead, h⟩
  | _ => simp_all [Token.IsSymbol, Token.IsName, Token.IsReserved, groups, structural]

/-- A loop is a block that has a header and a body of its own. -/
theorem Body.of_for (ht : t.IsReserved "for")
    (h : Body closer mode previous pending (t :: ts) roles events) :
    ∃ paren brace us vs ws front found roles' header inside events',
      Body ")" .code "" [] us front header ∧ Body "\x7d" .code "" [] vs found inside ∧
      Body closer mode t.text pending ws roles' events' ∧
      ts = paren :: (us ++ brace :: (vs ++ ws)) ∧
      roles = (t, .reserved) :: (front ++ (found ++ roles')) ∧
      events = .openBlock :: (header ++ (inside ++ .closeBlock :: events')) := by
  have hkeyword := isKeyword_of_mem "for" List.mem_cons_self
  have hdeclaring : "for" ∉ declaring := by decide
  cases h with
  | loop _ _ hheader _ hinside h =>
    exact ⟨_, _, _, _, _, _, _, _, _, _, _, hheader, hinside, h, rfl, rfl, rfl⟩
  | _ => simp_all [Token.IsSymbol, Token.IsName, Token.IsReserved]

/-- Behind a word that declares stands a name, perhaps with a template in front. -/
theorem Body.of_declaring (ht : t.kind = .word) (hdeclares : t.text ∈ declaring)
    (h : Body closer mode previous pending (t :: ts) roles events) :
    (∃ x vs roles', x.IsName ∧
      Body closer mode t.text (pending ++ [.declare x.text x.span]) vs roles' events ∧
      ts = x :: vs ∧ roles = (t, .reserved) :: (x, .declared) :: roles') ∨
    ∃ bracket x us vs found roles' inside, bracket.IsSymbol "<" ∧
      Body ">" .code "" [] us found inside ∧
      Body closer mode t.text (pending ++ [.declare x.text x.span]) vs roles' events ∧
      ts = bracket :: (us ++ x :: vs) ∧
      roles = (t, .reserved) :: (wordsAs .template us ++ (x, .declared) :: roles') := by
  have hkeyword := isKeyword_of_mem t.text (List.mem_cons_of_mem _ hdeclares)
  have hfor : t.text ≠ "for" := fun h ↦ absurd (h ▸ hdeclares) (by decide)
  cases h with
  | declare _ _ hx h => exact .inl ⟨_, _, _, hx, h, rfl, rfl⟩
  | template _ _ hbracket hinside _ h =>
    exact .inr ⟨_, _, _, _, _, _, _, hbracket, hinside, h, rfl, rfl⟩
  | _ => simp_all [Token.IsSymbol, Token.IsName, Token.IsReserved]

/-- Any other reserved word stands for itself. -/
theorem Body.of_keyword (ht : t.kind = .word) (hkeyword : isKeyword t.text = true)
    (hfor : t.text ≠ "for") (hdeclares : t.text ∉ declaring)
    (h : Body closer mode previous pending (t :: ts) roles events) :
    ∃ roles', Body closer mode t.text pending ts roles' events ∧
      roles = (t, .reserved) :: roles' := by
  cases h with
  | keyword _ _ _ _ h => exact ⟨_, h, rfl⟩
  | _ => simp_all [Token.IsSymbol, Token.IsName, Token.IsReserved]

/-- A name is declared in front of a colon among parameters. Everywhere else a path starts there. -/
theorem Body.of_name (ht : t.IsName)
    (h : Body closer mode previous pending (t :: ts) roles events) :
    (∃ roles' events', mode = .params ∧ (∃ x ∈ ts.head?, x.IsSymbol ":") ∧
      Body closer mode t.text pending ts roles' events' ∧ roles = (t, .declared) :: roles' ∧
      events = .declare t.text t.span :: events') ∨
    ∃ called us vs words roles' events', (mode = .params → ∀ x ∈ ts.head?, ¬x.IsSymbol ":") ∧
      Path called us words vs ∧ Body closer mode t.text pending vs roles' events' ∧ ts = us ++ vs ∧
      roles = wordsAs .use (t :: us) ++ roles' ∧
      events = t.reference words (if called then .call else referenceKind previous) :: events' := by
  have hnot := fun hmem ↦ Bool.false_ne_true (ht.2.symm.trans (isKeyword_of_mem t.text hmem))
  obtain ⟨hword, hkeyword⟩ := ht
  cases h with
  | parameter _ hcolon h => exact .inl ⟨_, _, rfl, hcolon, h, rfl, rfl⟩
  | reference _ hcolon hpath h => exact .inr ⟨_, _, _, _, _, _, hcolon, hpath, h, rfl, rfl, rfl⟩
  | _ => simp_all [Token.IsSymbol, Token.IsReserved]

/-- All that is left goes unnoticed. -/
theorem Body.of_other (hword : t.kind ≠ .word)
    (hsymbol : t.kind = .symbol → t.text ∉ closer :: ";" :: structural)
    (h : Body closer mode previous pending (t :: ts) roles events) :
    Body closer mode t.text pending ts roles events := by
  have hnot {s : String} (hs : s ∈ closer :: ";" :: structural) : ¬t.IsSymbol s :=
    fun h ↦ hsymbol h.1 (h.2 ▸ hs)
  cases h with
  | other _ _ h => exact h
  | _ => simp_all [Token.IsSymbol, Token.IsName, Token.IsReserved, groups, structural]

end Next

/-! ### Bodies -/

section Bodies

variable {closer previous : String} {mode : BodyMode} {pending events : List Event}
  {ts rest ws : List Token} {roles : List (Token × Role)} {x : Token}

/-- A body begins with what stands at its start. -/
theorem Body.uncons (h : Body closer mode previous pending ts roles events)
    (heq : x :: ws = ts ++ rest) : ∃ us, ts = x :: us ∧ ws = us ++ rest := by
  rcases List.cons_eq_append_iff.1 heq with ⟨rfl, -⟩ | ⟨us, rfl, rfl⟩
  · exact absurd rfl h.ne_nil
  · exact ⟨us, rfl, rfl⟩

theorem Body.head?_eq (h : Body closer mode previous pending ts roles events)
    (heq : x :: ws = ts ++ rest) : ts.head? = some x := by
  obtain ⟨us, rfl, -⟩ := h.uncons heq
  rfl

/-- What stands behind a body cannot be its first token. -/
theorem Body.head?_append (h : Body closer mode previous pending ts roles events)
    (us rest : List Token) : (us ++ (ts ++ rest)).head? = (us ++ ts).head? := by
  rw [← List.append_assoc, List.head?_append,
    Option.or_of_isSome (List.isSome_head?.2 (List.append_ne_nil_of_right_ne_nil us h.ne_nil))]

/-- What is behind a body does not matter to a path inside it. -/
theorem Body.path {called : Bool} {us words : List Token}
    (h : Body closer mode previous pending ts roles events) (hcloser : closer ∉ pathSymbols)
    (hpath : Path called us words ts) : Path called us words (ts ++ rest) := by
  obtain ⟨front, last, rfl, hlast, -⟩ := h.ends
  have hstop := stops_of_isSymbol hlast hcloser
  rw [List.append_assoc]
  exact (path_append_iff hstop).2 ((path_append_iff hstop).1 hpath)

theorem forall_mem_groups_closer : ∀ p ∈ groups, p.2 ∉ pathSymbols := by
  decide

/-- From its start on, a body is read in only one way. -/
theorem Body.unique (h : Body closer mode previous pending ts roles events)
    (hcloser : closer ∉ pathSymbols) {ts' rest' : List Token} {roles' : List (Token × Role)}
    {events' : List Event} (h' : Body closer mode previous pending ts' roles' events')
    (heq : ts ++ rest = ts' ++ rest') :
    ts = ts' ∧ roles = roles' ∧ events = events' ∧ rest = rest' := by
  induction h generalizing ts' rest rest' roles' events' with
  | close ht =>
    obtain ⟨us', rfl, hrest⟩ := h'.uncons heq
    obtain ⟨rfl, rfl, rfl⟩ := h'.of_closer ht
    exact ⟨rfl, rfl, rfl, hrest⟩
  | statement ht hne _ ih =>
    obtain ⟨us', rfl, hrest⟩ := h'.uncons heq
    obtain ⟨events', hnext', rfl⟩ := h'.of_semicolon ht hne
    obtain ⟨rfl, rfl, rfl, rfl⟩ := ih hcloser hnext' hrest
    exact ⟨rfl, rfl, rfl, rfl⟩
  | block ht hne _ _ ihinside ih =>
    obtain ⟨_, rfl, hrest⟩ := h'.uncons heq
    obtain ⟨us', vs', found', roles', inside', events', hinside', hnext', rfl, rfl, rfl⟩ :=
      h'.of_brace ht hne
    simp only [List.append_eq, List.append_assoc] at hrest
    obtain ⟨rfl, rfl, rfl, hrest⟩ := ihinside (by decide) hinside' hrest
    obtain ⟨rfl, rfl, rfl, rfl⟩ := ih hcloser hnext' hrest
    exact ⟨rfl, rfl, rfl, rfl⟩
  | group ht hlast hne _ _ ihinside ih =>
    obtain ⟨_, rfl, hrest⟩ := h'.uncons heq
    obtain ⟨us', vs', found', roles', inside', events', hinside', hnext', rfl, rfl, rfl⟩ :=
      h'.of_group ht hlast hne
    simp only [List.append_eq, List.append_assoc] at hrest
    obtain ⟨rfl, rfl, rfl, hrest⟩ := ihinside (forall_mem_groups_closer _ hlast) hinside' hrest
    obtain ⟨rfl, rfl, rfl, rfl⟩ := ih hcloser hnext' hrest
    exact ⟨rfl, rfl, rfl, rfl⟩
  | «attribute» ht hne _ hhead h ih =>
    obtain ⟨_, rfl, hrest⟩ := h'.uncons heq
    rcases h'.of_at ht hne with ⟨which', vs', roles', -, -, hnext', rfl, rfl⟩ |
      ⟨which', paren, us', vs', _, _, _, _, -, hparen, -, -, rfl, -⟩
    · obtain ⟨rfl, hvs⟩ := List.cons.inj hrest
      obtain ⟨rfl, rfl, rfl, rfl⟩ := ih hcloser hnext' hvs
      exact ⟨rfl, rfl, rfl, rfl⟩
    · exact absurd hparen (hhead paren (h.head?_eq (List.cons.inj hrest).2.symm))
  | arguments ht hne _ hparen _ _ ihinside ih =>
    obtain ⟨_, rfl, hrest⟩ := h'.uncons heq
    rcases h'.of_at ht hne with ⟨which', vs', roles', -, hhead', hnext', rfl, rfl⟩ |
      ⟨which', paren', us', vs', found', roles', inside', events', -, -, hinside', hnext', rfl, rfl,
        rfl⟩
    · exact absurd hparen (hhead' _ (hnext'.head?_eq (List.cons.inj hrest).2))
    · simp only [List.append_eq, List.cons_append, List.append_assoc, List.cons.injEq] at hrest
      obtain ⟨rfl, rfl, hrest⟩ := hrest
      obtain ⟨rfl, rfl, rfl, hrest⟩ := ihinside (by decide) hinside' hrest
      obtain ⟨rfl, rfl, rfl, rfl⟩ := ih hcloser hnext' hrest
      exact ⟨rfl, rfl, rfl, rfl⟩
  | member ht hne hx _ ih =>
    obtain ⟨_, rfl, hrest⟩ := h'.uncons heq
    rcases h'.of_dot ht hne with ⟨x', vs', roles', -, hnext', rfl, rfl⟩ | ⟨hhead', hnext'⟩
    · obtain ⟨rfl, hvs⟩ := List.cons.inj hrest
      obtain ⟨rfl, rfl, rfl, rfl⟩ := ih hcloser hnext' hvs
      exact ⟨rfl, rfl, rfl, rfl⟩
    · exact absurd hx (hhead' _ (hnext'.head?_eq hrest))
  | dot ht hne hhead h ih =>
    obtain ⟨us', rfl, hrest⟩ := h'.uncons heq
    rcases h'.of_dot ht hne with ⟨x', vs', roles', hx', -, rfl, -⟩ | ⟨-, hnext'⟩
    · exact absurd hx' (hhead x' (h.head?_eq hrest.symm))
    · obtain ⟨rfl, rfl, rfl, rfl⟩ := ih hcloser hnext' hrest
      exact ⟨rfl, rfl, rfl, rfl⟩
  | loop ht _ _ _ _ _ ihheader ihinside ih =>
    obtain ⟨_, rfl, hrest⟩ := h'.uncons heq
    obtain ⟨paren', brace', us', vs', ws', front', found', roles', header', inside', events',
      hheader', hinside', hnext', rfl, rfl, rfl⟩ := h'.of_for ht
    simp only [List.append_eq, List.cons_append, List.append_assoc, List.cons.injEq] at hrest
    obtain ⟨rfl, hrest⟩ := hrest
    obtain ⟨rfl, rfl, rfl, hrest⟩ := ihheader (by decide) hheader' hrest
    obtain ⟨rfl, hvs⟩ := List.cons.inj hrest
    obtain ⟨rfl, rfl, rfl, hrest⟩ := ihinside (by decide) hinside' hvs
    obtain ⟨rfl, rfl, rfl, rfl⟩ := ih hcloser hnext' hrest
    exact ⟨rfl, rfl, rfl, rfl⟩
  | declare ht hdeclares hx _ ih =>
    obtain ⟨_, rfl, hrest⟩ := h'.uncons heq
    rcases h'.of_declaring ht hdeclares with ⟨x', vs', roles', -, hnext', rfl, rfl⟩ |
      ⟨bracket', x', us', vs', _, _, _, hbracket', -, -, rfl, -⟩
    · obtain ⟨rfl, hvs⟩ := List.cons.inj hrest
      obtain ⟨rfl, rfl, rfl, rfl⟩ := ih hcloser hnext' hvs
      exact ⟨rfl, rfl, rfl, rfl⟩
    · exact absurd hx ((List.cons.inj hrest).1 ▸ hbracket'.not_isName)
  | template ht hdeclares hbracket _ _ _ ihinside ih =>
    obtain ⟨_, rfl, hrest⟩ := h'.uncons heq
    rcases h'.of_declaring ht hdeclares with ⟨x', vs', roles', hx', -, rfl, -⟩ |
      ⟨bracket', x', us', vs', found', roles', inside', -, hinside', hnext', rfl, rfl⟩
    · exact absurd hx' ((List.cons.inj hrest).1 ▸ hbracket.not_isName)
    · simp only [List.append_eq, List.cons_append, List.append_assoc, List.cons.injEq] at hrest
      obtain ⟨rfl, hrest⟩ := hrest
      obtain ⟨rfl, rfl, rfl, hrest⟩ := ihinside (by decide) hinside' hrest
      obtain ⟨rfl, hvs⟩ := List.cons.inj hrest
      obtain ⟨rfl, rfl, rfl, rfl⟩ := ih hcloser hnext' hvs
      exact ⟨rfl, rfl, rfl, rfl⟩
  | keyword ht hkeyword hfor hdeclares _ ih =>
    obtain ⟨us', rfl, hrest⟩ := h'.uncons heq
    obtain ⟨roles', hnext', rfl⟩ := h'.of_keyword ht hkeyword hfor hdeclares
    obtain ⟨rfl, rfl, rfl, rfl⟩ := ih hcloser hnext' hrest
    exact ⟨rfl, rfl, rfl, rfl⟩
  | parameter ht hcolon h ih =>
    -- a colon behind the name tells a parameter from a use
    obtain ⟨us', rfl, hrest⟩ := h'.uncons heq
    rcases h'.of_name ht with ⟨roles', events', -, -, hnext', rfl, rfl⟩ |
      ⟨called', us', vs', words', roles', events', hcolon', -, hnext', rfl, -, -⟩
    · obtain ⟨rfl, rfl, rfl, rfl⟩ := ih hcloser hnext' hrest
      exact ⟨rfl, rfl, rfl, rfl⟩
    · obtain ⟨x, hx, hsymbol⟩ := hcolon
      refine absurd hsymbol (hcolon' rfl x ?_)
      have hheads := congrArg List.head? hrest
      rw [List.append_assoc, hnext'.head?_append] at hheads
      exact hheads ▸ (h.head?_append [] _).symm ▸ hx
  | reference ht hcolon hpath h ih =>
    obtain ⟨_, rfl, hrest⟩ := h'.uncons heq
    rcases h'.of_name ht with ⟨roles', events', rfl, hcolon', hnext', rfl, rfl⟩ |
      ⟨called', us', vs', words', roles', events', -, hpath', hnext', rfl, rfl, rfl⟩
    · obtain ⟨x, hx, hsymbol⟩ := hcolon'
      refine absurd hsymbol (hcolon rfl x ?_)
      have hheads := congrArg List.head? hrest
      rw [List.append_eq, List.append_assoc, h.head?_append] at hheads
      exact hheads ▸ (hnext'.head?_append [] _).symm ▸ hx
    · simp only [List.append_eq, List.append_assoc] at hrest
      obtain ⟨rfl, rfl, rfl, hrest⟩ :=
        (h.path hcloser hpath).unique (hnext'.path hcloser hpath') hrest
      obtain ⟨rfl, rfl, rfl, rfl⟩ := ih hcloser hnext' hrest
      exact ⟨rfl, rfl, rfl, rfl⟩
  | other hword hsymbol _ ih =>
    obtain ⟨us', rfl, hrest⟩ := h'.uncons heq
    obtain ⟨rfl, rfl, rfl, rfl⟩ := ih hcloser (h'.of_other hword hsymbol) hrest
    exact ⟨rfl, rfl, rfl, rfl⟩

/-- Tokens that are a body are so in only one way. -/
theorem Body.unique_whole (h : Body closer mode previous pending ts roles events)
    (hcloser : closer ∉ pathSymbols) {roles' : List (Token × Role)} {events' : List Event}
    (h' : Body closer mode previous pending ts roles' events') :
    roles = roles' ∧ events = events' := by
  obtain ⟨-, hroles, hevents, -⟩ := h.unique hcloser h' (Eq.refl (ts ++ []))
  exact ⟨hroles, hevents⟩

end Bodies

/-! ### Attributes -/

section Attributes

variable {which : String} {ts rest ts' rest' : List Token} {roles roles' : List (Token × Role)}
  {events events' : List Event} {x : Token}

/-- What may stand behind attributes. -/
def BehindMarks (ts : List Token) : Prop :=
  ∀ x ∈ ts.head?, ¬x.IsSymbol "@" ∧ ¬x.IsSymbol "("

theorem behindMarks_of_word (hx : x.kind = .word) (ts : List Token) : BehindMarks (x :: ts) := by
  rintro _ ⟨⟩
  exact ⟨fun h ↦ h.not_word hx, fun h ↦ h.not_word hx⟩

/-- No parenthesis stands where more attributes can stand. -/
theorem Attributes.not_paren (h : Attributes ts roles events) (hrest : BehindMarks rest) :
    ∀ x ∈ (ts ++ rest).head?, ¬x.IsSymbol "(" := by
  cases h with
  | nil => exact fun x hx ↦ (hrest x hx).2
  | cons ht _ _ _ =>
    rintro _ ⟨⟩
    exact ht.not_isSymbol (by decide)

/-- An attribute has arguments just if a parenthesis stands behind it. -/
theorem Arguments.unique (h : Arguments which ts roles events)
    (h' : Arguments which ts' roles' events') (heq : ts ++ rest = ts' ++ rest')
    (hrest : ∀ x ∈ rest.head?, ¬x.IsSymbol "(") (hrest' : ∀ x ∈ rest'.head?, ¬x.IsSymbol "(") :
    ts = ts' ∧ roles = roles' ∧ events = events' ∧ rest = rest' := by
  cases h with
  | none =>
    cases h' with
    | none => exact ⟨rfl, rfl, rfl, heq⟩
    | some hparen _ =>
      obtain rfl : rest = _ := heq
      exact absurd hparen (hrest _ rfl)
  | some hparen hinside =>
    cases h' with
    | none =>
      obtain rfl : _ = rest' := heq
      exact absurd hparen (hrest' _ rfl)
    | some _ hinside' =>
      obtain ⟨rfl, htail⟩ := List.cons.inj heq
      obtain ⟨rfl, rfl, rfl, rfl⟩ := hinside.unique (by decide) hinside' htail
      exact ⟨rfl, rfl, rfl, rfl⟩

/-- As long as an at sign is next, there is one more attribute. -/
theorem Attributes.unique (h : Attributes ts roles events) (h' : Attributes ts' roles' events')
    (heq : ts ++ rest = ts' ++ rest') (hrest : BehindMarks rest) (hrest' : BehindMarks rest') :
    ts = ts' ∧ roles = roles' ∧ events = events' ∧ rest = rest' := by
  induction h generalizing ts' roles' events' with
  | nil =>
    cases h' with
    | nil => exact ⟨rfl, rfl, rfl, heq⟩
    | cons ht _ _ _ =>
      obtain rfl : rest = _ := heq
      exact absurd ht (hrest _ rfl).1
  | cons ht _ hargs h ih =>
    cases h' with
    | nil =>
      obtain rfl : _ = rest' := heq
      exact absurd ht (hrest' _ rfl).1
    | cons _ _ hargs' h' =>
      simp only [List.cons_append, List.append_assoc, List.cons.injEq] at heq
      obtain ⟨rfl, rfl, heq⟩ := heq
      obtain ⟨rfl, rfl, rfl, heq⟩ :=
        hargs.unique hargs' heq (h.not_paren hrest) (h'.not_paren hrest')
      obtain ⟨rfl, rfl, rfl, rfl⟩ := ih h' heq
      exact ⟨rfl, rfl, rfl, rfl⟩

end Attributes

/-! ### Structs -/

section Structs

variable {depth : Nat} {ts rest ts' rest' ws : List Token} {roles roles' : List (Token × Role)}
  {events events' : List Event} {x t : Token}

theorem EndsType.stops (h : EndsType t) : Stops t := by
  rcases h with hcomma | hbrace
  · exact stops_of_isSymbol hcomma (by decide)
  · exact stops_of_isSymbol hbrace (by decide)

/-- No name ends the type of a member. -/
theorem EndsType.not_isName (h : EndsType t) : ¬t.IsName :=
  fun hname ↦ h.stops.not_word hname.1

/-- The type of a member goes on to the token that ends it. -/
theorem MemberType.unique {stop stop' : Token} (h : MemberType depth ts roles events)
    (h' : MemberType depth ts' roles' events') (heq : ts ++ stop :: rest = ts' ++ stop' :: rest')
    (hstop : EndsType stop) (hstop' : EndsType stop') :
    ts = ts' ∧ roles = roles' ∧ events = events' ∧ stop = stop' ∧ rest = rest' := by
  -- wherever the two rules differ, the first token decides between them
  induction h generalizing ts' roles' events' with
  | nil =>
    cases h' with
    | nil => exact ⟨rfl, rfl, rfl, List.cons.inj heq⟩
    | group ht _ _ =>
      exact absurd ((List.cons.inj heq).1 ▸ ht) (hstop.not_isSymbol (by decide))
    | reference ht _ _ => exact absurd ((List.cons.inj heq).1 ▸ ht) hstop.not_isName
    | other _ _ hinside _ => exact absurd ((List.cons.inj heq).1 ▸ hstop) (hinside rfl)
  | group ht hinside _ ih =>
    cases h' with
    | nil => exact absurd ((List.cons.inj heq).1 ▸ ht) (hstop'.not_isSymbol (by decide))
    | group _ hinside' h' =>
      simp only [List.cons_append, List.append_assoc, List.cons.injEq] at heq
      obtain ⟨rfl, heq⟩ := heq
      obtain ⟨rfl, rfl, rfl, heq⟩ := hinside.unique (by decide) hinside' heq
      obtain ⟨rfl, rfl, rfl, rfl, rfl⟩ := ih h' heq
      exact ⟨rfl, rfl, rfl, rfl, rfl⟩
    | reference ht' _ _ => exact absurd ((List.cons.inj heq).1 ▸ ht') ht.not_isName
    | other hparen _ _ _ => exact absurd ((List.cons.inj heq).1 ▸ ht) hparen
  | reference ht hpath _ ih =>
    cases h' with
    | nil => exact absurd ((List.cons.inj heq).1 ▸ ht) hstop'.not_isName
    | group ht' _ _ => exact absurd ((List.cons.inj heq).1 ▸ ht) ht'.not_isName
    | reference _ hpath' h' =>
      simp only [List.cons_append, List.append_assoc, List.cons.injEq] at heq
      obtain ⟨rfl, heq⟩ := heq
      obtain ⟨rfl, rfl, rfl, heq⟩ := ((path_append_iff hstop.stops).2 hpath).unique
        ((path_append_iff hstop'.stops).2 hpath') heq
      obtain ⟨rfl, rfl, rfl, rfl, rfl⟩ := ih h' heq
      exact ⟨rfl, rfl, rfl, rfl, rfl⟩
    | other _ hname _ _ => exact absurd ((List.cons.inj heq).1 ▸ ht) hname
  | other hparen hname hinside _ ih =>
    cases h' with
    | nil => exact absurd ((List.cons.inj heq).1 ▸ hstop') (hinside rfl)
    | group ht' _ _ => exact absurd ((List.cons.inj heq).1 ▸ ht') hparen
    | reference ht' _ _ => exact absurd ((List.cons.inj heq).1 ▸ ht') hname
    | other _ _ _ h' =>
      simp only [List.cons_append, List.cons.injEq] at heq
      obtain ⟨rfl, heq⟩ := heq
      obtain ⟨rfl, rfl, rfl, rfl, rfl⟩ := ih h' heq
      exact ⟨rfl, rfl, rfl, rfl, rfl⟩

/-- Behind its attributes the name of a member is a single word. -/
theorem MemberName.unique (h : MemberName ts roles events) (h' : MemberName ts' roles' events')
    (heq : ts ++ rest = ts' ++ rest') :
    ts = ts' ∧ roles = roles' ∧ events = events' ∧ rest = rest' := by
  obtain ⟨hmarks, hx, -⟩ := h
  obtain ⟨hmarks', hx', -⟩ := h'
  rw [List.append_assoc, List.append_assoc] at heq
  obtain ⟨rfl, rfl, rfl, heq⟩ := hmarks.unique hmarks' heq
    (behindMarks_of_word hx _) (behindMarks_of_word hx' _)
  simp only [List.cons_append, List.nil_append, List.cons.injEq] at heq
  obtain ⟨rfl, rfl, rfl⟩ := heq
  exact ⟨rfl, rfl, rfl, rfl⟩

/-- No brace stands where a member starts. -/
theorem MemberName.not_brace (h : MemberName ts roles events) (heq : t :: ws = ts ++ rest) :
    ¬t.IsSymbol "\x7d" := by
  obtain ⟨hmarks, hx, -⟩ := h
  cases hmarks with
  | nil => exact fun hbrace ↦ hbrace.not_word ((List.cons.inj heq).1 ▸ hx)
  | cons ht _ _ _ =>
      exact fun hbrace ↦ absurd (((List.cons.inj heq).1 ▸ ht).unique hbrace) (by decide)

/-- The symbol that ends the type of a member tells whether there may be another. -/
theorem Members.unique (h : Members ts roles events) (h' : Members ts' roles' events')
    (heq : ts ++ rest = ts' ++ rest') :
    ts = ts' ∧ roles = roles' ∧ events = events' ∧ rest = rest' := by
  induction h generalizing ts' roles' events' with
  | close ht =>
    cases h' with
    | close _ =>
      obtain ⟨rfl, rfl⟩ := List.cons.inj heq
      exact ⟨rfl, rfl, rfl, rfl⟩
    | member hfront' _ _ _ =>
      rw [List.append_assoc] at heq
      exact absurd ht (hfront'.not_brace heq)
    | last hfront' _ _ =>
      rw [List.append_assoc] at heq
      exact absurd ht (hfront'.not_brace heq)
  | member hfront htype hcomma _ ih =>
    rw [List.append_assoc] at heq
    cases h' with
    | close ht' => exact absurd ht' (hfront.not_brace heq.symm)
    | member hfront' htype' hcomma' h' =>
      simp only [List.append_assoc, List.cons_append] at heq
      obtain ⟨rfl, rfl, rfl, heq⟩ := hfront.unique hfront' heq
      obtain ⟨rfl, rfl, rfl, rfl, hws⟩ := htype.unique htype' heq (.inl hcomma) (.inl hcomma')
      obtain ⟨rfl, rfl, rfl, rfl⟩ := ih h' hws
      exact ⟨rfl, rfl, rfl, rfl⟩
    | last hfront' htype' ht' =>
      simp only [List.append_assoc, List.cons_append, List.nil_append] at heq
      obtain ⟨rfl, rfl, rfl, heq⟩ := hfront.unique hfront' heq
      -- a comma is no brace
      obtain ⟨-, -, -, rfl, -⟩ := htype.unique htype' heq (.inl hcomma) (.inr ht')
      exact absurd (hcomma.unique ht') (by decide)
  | last hfront htype ht =>
    rw [List.append_assoc] at heq
    cases h' with
    | close ht' => exact absurd ht' (hfront.not_brace heq.symm)
    | member hfront' htype' hcomma' _ =>
      simp only [List.append_assoc, List.cons_append, List.nil_append] at heq
      obtain ⟨rfl, rfl, rfl, heq⟩ := hfront.unique hfront' heq
      obtain ⟨-, -, -, rfl, -⟩ := htype.unique htype' heq (.inr ht) (.inl hcomma')
      exact absurd (ht.unique hcomma') (by decide)
    | last hfront' htype' ht' =>
      simp only [List.append_assoc, List.cons_append, List.nil_append] at heq
      obtain ⟨rfl, rfl, rfl, heq⟩ := hfront.unique hfront' heq
      obtain ⟨rfl, rfl, rfl, rfl, rfl⟩ := htype.unique htype' heq (.inr ht) (.inr ht')
      exact ⟨rfl, rfl, rfl, rfl⟩

end Structs

/-! ### Declarations -/

section Declarations

variable {kind : DeclKind} {name name' : Token} {ts : List Token}
  {roles roles' : List (Token × Role)} {events events' : List Event}

/-- A declaration begins with a word. -/
theorem Declaration.exists_cons (h : Declaration kind name ts roles events) :
    ∃ word us, ts = word :: us ∧ word.kind = .word := by
  cases h with
  | function hword => exact ⟨_, _, rfl, hword.1⟩
  | struct hword => exact ⟨_, _, rfl, hword.1⟩
  | value hword => exact ⟨_, _, rfl, hword⟩
  | template hword => exact ⟨_, _, rfl, hword⟩
  | typeAlias hword => exact ⟨_, _, rfl, hword.1⟩

theorem forall_mem_valueWords_kind :
    ∀ p ∈ valueWords, p.2 ≠ .fn ∧ p.2 ≠ .struct ∧ p.2 ≠ .typeAlias := by
  decide

/-- The first word tells what is declared, and the brackets behind the word whether there is a
template. -/
theorem Declaration.unique (h : Declaration kind name ts roles events)
    (h' : Declaration kind name' ts roles' events') :
    name = name' ∧ roles = roles' ∧ events = events' := by
  -- the kind tells the rule, and for variables the token behind the word does
  cases h with
  | function _ _ _ hparams hresult h =>
    generalize hts : _ :: _ = us at h'
    cases h' with
    | function _ _ _ hparams' hresult' h' =>
      simp only [List.cons.injEq] at hts
      obtain ⟨rfl, rfl, rfl, heq⟩ := hts
      obtain ⟨rfl, rfl, rfl, heq⟩ := hparams.unique (by decide) hparams' heq
      obtain ⟨rfl, rfl, rfl, rfl⟩ := hresult.unique (by decide) hresult' heq
      obtain ⟨rfl, rfl⟩ := h.unique_whole (by decide) h'
      exact ⟨rfl, rfl, rfl⟩
    | value _ hkind' => exact absurd rfl (forall_mem_valueWords_kind _ hkind').1
    | template _ hkind' => exact absurd rfl (forall_mem_valueWords_kind _ hkind').1
  | struct _ _ _ h =>
    generalize hts : _ :: _ = us at h'
    cases h' with
    | struct _ _ _ h' =>
      simp only [List.cons.injEq] at hts
      obtain ⟨rfl, rfl, rfl, rfl⟩ := hts
      obtain ⟨-, rfl, rfl, -⟩ := h.unique h' (Eq.refl (_ ++ []))
      exact ⟨rfl, rfl, rfl⟩
    | value _ hkind' => exact absurd rfl (forall_mem_valueWords_kind _ hkind').2.1
    | template _ hkind' => exact absurd rfl (forall_mem_valueWords_kind _ hkind').2.1
  | value _ hkind hname h =>
    generalize hts : _ :: _ = us at h'
    cases h' with
    | function => exact absurd rfl (forall_mem_valueWords_kind _ hkind).1
    | struct => exact absurd rfl (forall_mem_valueWords_kind _ hkind).2.1
    | value _ _ _ h' =>
      simp only [List.cons.injEq] at hts
      obtain ⟨rfl, rfl, rfl⟩ := hts
      obtain ⟨rfl, rfl⟩ := h.unique_whole (by decide) h'
      exact ⟨rfl, rfl, rfl⟩
    | template _ _ hbracket' _ _ _ =>
      simp only [List.cons.injEq] at hts
      obtain ⟨rfl, rfl, -⟩ := hts
      exact absurd hname hbracket'.not_isName
    | typeAlias => exact absurd rfl (forall_mem_valueWords_kind _ hkind).2.2
  | template _ hkind hbracket hinside _ h =>
    generalize hts : _ :: _ = us at h'
    cases h' with
    | function => exact absurd rfl (forall_mem_valueWords_kind _ hkind).1
    | struct => exact absurd rfl (forall_mem_valueWords_kind _ hkind).2.1
    | value _ _ hname' _ =>
      simp only [List.cons.injEq] at hts
      obtain ⟨rfl, rfl, -⟩ := hts
      exact absurd hname' hbracket.not_isName
    | template _ _ _ hinside' _ h' =>
      simp only [List.cons.injEq] at hts
      obtain ⟨rfl, rfl, heq⟩ := hts
      obtain ⟨rfl, rfl, rfl, heq⟩ := hinside.unique (by decide) hinside' heq
      obtain ⟨rfl, rfl⟩ := List.cons.inj heq
      obtain ⟨rfl, rfl⟩ := h.unique_whole (by decide) h'
      exact ⟨rfl, rfl, rfl⟩
    | typeAlias => exact absurd rfl (forall_mem_valueWords_kind _ hkind).2.2
  | typeAlias _ _ _ h =>
    generalize hts : _ :: _ = us at h'
    cases h' with
    | value _ hkind' => exact absurd rfl (forall_mem_valueWords_kind _ hkind').2.2
    | template _ hkind' => exact absurd rfl (forall_mem_valueWords_kind _ hkind').2.2
    | typeAlias _ _ _ h' =>
      simp only [List.cons.injEq] at hts
      obtain ⟨rfl, rfl, rfl, rfl⟩ := hts
      obtain ⟨rfl, rfl⟩ := h.unique_whole (by decide) h'
      exact ⟨rfl, rfl, rfl⟩

/-- The tokens of a declaration are read in only one way. -/
theorem Marked.unique (h : Marked kind name ts roles events)
    (h' : Marked kind name' ts roles' events') :
    name = name' ∧ roles = roles' ∧ events = events' := by
  obtain ⟨hmarks, h⟩ := h
  generalize hts : (_ : List Token) ++ _ = us at h'
  obtain ⟨hmarks', h'⟩ := h'
  obtain ⟨word, _, rfl, hword⟩ := h.exists_cons
  obtain ⟨word', _, rfl, hword'⟩ := h'.exists_cons
  obtain ⟨rfl, rfl, rfl, hrest⟩ := hmarks.unique hmarks' hts (behindMarks_of_word hword _)
    (behindMarks_of_word hword' _)
  obtain ⟨rfl, rfl, rfl⟩ := h.unique (hrest ▸ h')
  exact ⟨rfl, rfl, rfl⟩

end Declarations

end ShaderLink.Reading
