import ShaderLink.Proofs.Grammar.Reading

/-!
# No word of a declaration is lost

Each word among the tokens of a declaration is there for one thing. Those that use names stand in
paths that events have come of, and the path that a reference has come of has no words but such
(`Reading.Marked.accounts`). So a word is in the span of a reference just if it uses a name.
-/

namespace ShaderLink.Reading

open ShaderLink.Parser

/-! ### Events without references -/

/-- No reference is among the events. -/
def Silent (events : List Event) : Prop :=
  ∀ path span kind, .reference path span kind ∉ events

/-- A declaration is no reference. -/
theorem Silent.declare {name : String} {span : Span} {events : List Event} (h : Silent events) :
    Silent (events ++ [.declare name span]) := by
  intro path span' kind hmem
  rcases List.mem_append.1 hmem with hmem | hmem
  · exact h path span' kind hmem
  · cases List.mem_singleton.1 hmem

/-! ### Accounts of words -/

/-- All words are given the role, and in their order. -/
theorem map_fst_wordsAs (role : Role) (ts : List Token) :
    (wordsAs role ts).map Prod.fst = ts.filter fun t ↦ t.kind = .word := by
  rw [wordsAs, List.map_map]
  exact List.map_id _

theorem wordsAs_of_word {t : Token} {role : Role} (ht : t.kind = .word) :
    wordsAs role [t] = [(t, role)] := by
  simp [wordsAs, ht]

/-- The word stands in a path among the tokens that an event has come of. -/
inductive Used (ts : List Token) (events : List Event) (x : Token) : Prop
  | mk {called : Bool} {kind : ReferenceKind} {t : Token} {us vs words : List Token}
    (hinside : (t :: us) <:+: ts) (hpath : Path called us words vs)
    (hevent : t.reference words kind ∈ events) (hx : x ∈ t :: us)

/-- Among more tokens and more events the word is still used. -/
theorem Used.mono {ts us : List Token} {events all : List Event} {x : Token}
    (h : Used ts events x) (hts : ts <:+: us)
    (hall : ∀ path span kind, .reference path span kind ∈ events →
      .reference path span kind ∈ all) : Used us all x := by
  obtain ⟨hinside, hpath, hevent, hx⟩ := h
  exact ⟨hinside.trans hts, hpath, hall _ _ _ hevent, hx⟩

/-- The event has come of a path among the tokens, of which all words use names. -/
inductive Told (ts : List Token) (roles : List (Token × Role)) (e : Event) : Prop
  | mk {called : Bool} {kind : ReferenceKind} {t : Token} {us vs words : List Token}
    (hinside : (t :: us) <:+: ts) (hpath : Path called us words vs)
    (hevent : t.reference words kind = e)
    (hwords : ∀ x ∈ t :: us, x.kind = .word → (x, .use) ∈ roles)

/-- Among more tokens the event is still told, if no word has lost its role. -/
theorem Told.mono {ts us : List Token} {roles roles' : List (Token × Role)} {e : Event}
    (h : Told ts roles e) (hts : ts <:+: us) (hroles : roles ⊆ roles') : Told us roles' e := by
  obtain ⟨hinside, hpath, hevent, hwords⟩ := h
  exact ⟨hinside.trans hts, hpath, hevent, fun x hx hword ↦ hroles (hwords x hx hword)⟩

/-- The words among the tokens have their roles, and those that use names are just those that
references have come of. -/
structure Accounts (ts : List Token) (roles : List (Token × Role)) (events : List Event) :
    Prop where
  words : roles.map Prod.fst = ts.filter fun t ↦ t.kind = .word
  used : ∀ x, (x, .use) ∈ roles → Used ts events x
  told : ∀ path span kind, .reference path span kind ∈ events →
    Told ts roles (.reference path span kind)

namespace Accounts

variable {ts us : List Token} {roles roles' : List (Token × Role)} {events found all : List Event}
  {t : Token} {role : Role}

/-- Tokens one behind the other are accounted for if both are. -/
theorem append (h : Accounts ts roles found) (h' : Accounts us roles' events) :
    Accounts (ts ++ us) (roles ++ roles') (found ++ events) where
  words := by rw [List.map_append, List.filter_append, h.words, h'.words]
  used x hx := by
    rcases List.mem_append.1 hx with hx | hx
    · exact (h.used x hx).mono (List.prefix_append _ _).isInfix fun _ _ _ ↦
        List.mem_append_left _
    · exact (h'.used x hx).mono (List.suffix_append _ _).isInfix fun _ _ _ ↦
        List.mem_append_right _
  told path span kind hmem := by
    rcases List.mem_append.1 hmem with hmem | hmem
    · exact (h.told path span kind hmem).mono (List.prefix_append _ _).isInfix
        (List.subset_append_left _ _)
    · exact (h'.told path span kind hmem).mono (List.suffix_append _ _).isInfix
        (List.subset_append_right _ _)

/-- Other events than references do not matter. -/
theorem of_events (h : Accounts ts roles events)
    (hall : ∀ path span kind, .reference path span kind ∈ events ↔
      .reference path span kind ∈ all) : Accounts ts roles all where
  words := h.words
  used x hx := (h.used x hx).mono List.infix_rfl fun path span kind ↦ (hall path span kind).1
  told path span kind hmem := h.told path span kind ((hall path span kind).2 hmem)

/-- In front of the events there may be some that are no references. -/
theorem silent (h : Accounts ts roles events) (hfound : Silent found) :
    Accounts ts roles (found ++ events) :=
  h.of_events fun path span kind ↦ by
    rw [List.mem_append, or_iff_right (hfound path span kind)]

/-- The words are all there for the same, which is no use. -/
theorem wordsAs (hrole : role ≠ .use) (ts : List Token) :
    Accounts ts (Reading.wordsAs role ts) [] where
  words := map_fst_wordsAs role ts
  used x hx := by
    obtain ⟨y, -, heq⟩ := List.mem_map.1 hx
    exact absurd (Prod.mk.inj heq).2 hrole
  told _ _ _ := nofun

theorem nil : Accounts [] [] [] :=
  wordsAs (show Role.reserved ≠ .use by decide) []

theorem symbol (ht : t.kind ≠ .word) : Accounts [t] [] [] where
  words := by simp [ht]
  used _ := nofun
  told _ _ _ := nofun

/-- In front of what is accounted for, a token can stand that is no word. -/
theorem cons (ht : t.kind ≠ .word) (h : Accounts ts roles events) :
    Accounts (t :: ts) roles events :=
  (symbol ht).append h

/-- In front of what is accounted for, a word can stand that is no use. -/
theorem cons_word (ht : t.kind = .word) (hrole : role ≠ .use) (h : Accounts ts roles events) :
    Accounts (t :: ts) ((t, role) :: roles) events := by
  have hword := (wordsAs hrole [t]).append h
  rwa [wordsAs_of_word ht] at hword

/-- In front of what is accounted for, tokens can stand whose words are no uses. -/
theorem append_words (hrole : role ≠ .use) (h : Accounts us roles events) :
    Accounts (ts ++ us) (Reading.wordsAs role ts ++ roles) events :=
  (wordsAs hrole ts).append h

/-- The words of a path are used by its event. -/
theorem path {called : Bool} {vs words : List Token} (h : Path called us words vs)
    (kind : ReferenceKind) :
    Accounts (t :: us) (Reading.wordsAs .use (t :: us)) [t.reference words kind] where
  words := map_fst_wordsAs .use (t :: us)
  used x hx := by
    obtain ⟨y, hy, heq⟩ := List.mem_map.1 hx
    obtain ⟨rfl, -⟩ := Prod.mk.inj heq
    exact ⟨List.infix_rfl, h, List.mem_singleton_self _, (List.mem_filter.1 hy).1⟩
  told path span kind' hmem :=
    ⟨List.infix_rfl, h, (List.mem_singleton.1 hmem).symm, fun x hx hword ↦
      List.mem_map.2 ⟨x, List.mem_filter.2 ⟨hx, decide_eq_true hword⟩, rfl⟩⟩

/-- What is in brackets may leave nothing, and then its words are there for something else. -/
theorem ite (p : Prop) [Decidable p] (hrole : role ≠ .use) (h : Accounts ts roles events) :
    Accounts ts (if p then roles else Reading.wordsAs role ts) (if p then events else []) := by
  split
  · exact h
  · exact wordsAs hrole ts

end Accounts

/-! ### Bodies -/

/-- The words of a body are accounted for. -/
theorem Body.accounts {closer previous : String} {mode : BodyMode} {pending events : List Event}
    {ts : List Token} {roles : List (Token × Role)}
    (h : Body closer mode previous pending ts roles events) (hpending : Silent pending) :
    Accounts ts roles events := by
  induction h with
  | close ht =>
    have hall := (Accounts.symbol ht.not_word).silent hpending
    rwa [List.append_nil] at hall
  | statement ht _ _ ih => exact ((ih nofun).cons ht.not_word).silent hpending
  | block ht _ _ _ ihinside ih =>
    exact (((ihinside nofun).append (ih hpending)).cons ht.not_word).of_events
      fun path span kind ↦ by simp
  | group ht _ _ _ _ ihinside ih =>
    exact ((ihinside nofun).append (ih hpending)).cons fun hword ↦ nomatch ht.symm.trans hword
  | «attribute» ht _ hwhich _ _ ih =>
    exact .cons ht.not_word (.cons_word hwhich nofun (ih hpending))
  | arguments ht _ hwhich hparen _ _ ihinside ih =>
    -- arguments that are no expressions use nothing
    exact .cons ht.not_word (.cons_word hwhich nofun (.cons hparen.not_word
      (.append (.ite _ nofun (ihinside nofun)) (ih hpending))))
  | member ht _ hx _ ih => exact .cons ht.not_word (.cons_word hx nofun (ih hpending))
  | dot ht _ _ _ ih => exact (ih hpending).cons ht.not_word
  | loop ht hparen _ hbrace _ _ ihheader ihinside ih =>
    have hblock := ((ihinside nofun).append (ih hpending)).cons hbrace.not_word
    have hall := ((ihheader nofun).append hblock).cons hparen.not_word
    exact .cons_word ht.1 nofun (hall.of_events fun path span kind ↦ by simp)
  | declare ht _ hx _ ih =>
    exact .cons_word ht nofun (.cons_word hx.1 nofun (ih hpending.declare))
  | template ht _ hbracket _ hx _ _ ih =>
    exact .cons_word ht nofun (.cons hbracket.not_word
      (.append_words nofun (.cons_word hx.1 nofun (ih hpending.declare))))
  | keyword ht _ _ _ _ ih => exact .cons_word ht nofun (ih hpending)
  | parameter ht _ _ ih =>
    exact .cons_word ht.1 nofun ((ih hpending).of_events fun path span kind ↦ by simp)
  | reference _ _ hpath _ ih => exact (Accounts.path hpath _).append (ih hpending)
  | other hword _ _ ih => exact (ih hpending).cons hword

/-! ### Attributes and structs -/

section Parts

variable {ts : List Token} {roles : List (Token × Role)} {events : List Event}

theorem Arguments.accounts {which : String} (h : Arguments which ts roles events) :
    Accounts ts roles events := by
  cases h with
  | none => exact .nil
  | some hparen hinside => exact .cons hparen.not_word (.ite _ nofun (hinside.accounts nofun))

theorem Attributes.accounts (h : Attributes ts roles events) : Accounts ts roles events := by
  induction h with
  | nil => exact .nil
  | cons ht hwhich hargs _ ih =>
    exact .cons ht.not_word (.cons_word hwhich nofun (hargs.accounts.append ih))

theorem MemberType.accounts {depth : Nat} (h : MemberType depth ts roles events) :
    Accounts ts roles events := by
  induction h with
  | nil => exact .nil
  | group ht hinside _ ih => exact .cons ht.not_word ((hinside.accounts nofun).append ih)
  | reference _ hpath _ ih => exact (Accounts.path hpath .type).append ih
  | other _ _ _ _ ih => exact (Accounts.wordsAs (by decide) [_]).append ih

theorem MemberName.accounts (h : MemberName ts roles events) : Accounts ts roles events := by
  obtain ⟨hmarks, hx, hcolon⟩ := h
  refine hmarks.accounts.append (.cons_word hx nofun ?_)
  exact (Accounts.symbol hcolon.not_word).of_events fun path span kind ↦ by simp

theorem Members.accounts (h : Members ts roles events) : Accounts ts roles events := by
  induction h with
  | close ht => exact .symbol ht.not_word
  | member hfront htype hcomma _ ih =>
    exact hfront.accounts.append (htype.accounts.append (ih.cons hcomma.not_word))
  | last hfront htype ht =>
    have hall := hfront.accounts.append (htype.accounts.append (.symbol ht.not_word))
    rwa [List.append_nil, List.append_nil] at hall

/-! ### Declarations -/

theorem Declaration.accounts {kind : DeclKind} {name : Token}
    (h : Declaration kind name ts roles events) : Accounts ts roles events := by
  cases h with
  | function hword hname hparen hparams hresult h =>
    have hrest := (hresult.accounts nofun).append (h.accounts nofun)
    exact .cons_word hword.1 nofun (.cons_word hname.1 nofun
      (.cons hparen.not_word ((hparams.accounts nofun).append hrest)))
  | struct hword hname hbrace h =>
    exact .cons_word hword.1 nofun (.cons_word hname.1 nofun (h.accounts.cons hbrace.not_word))
  | value hword _ hname h =>
    exact .cons_word hword nofun (.cons_word hname.1 nofun (h.accounts nofun))
  | template hword _ hbracket _ hname h =>
    exact .cons_word hword nofun (.cons hbracket.not_word
      (.append_words nofun (.cons_word hname.1 nofun (h.accounts nofun))))
  | typeAlias hword hname hequals h =>
    exact .cons_word hword.1 nofun
      (.cons_word hname.1 nofun ((h.accounts nofun).cons hequals.not_word))

/-- The words of a declaration are accounted for. -/
theorem Marked.accounts {kind : DeclKind} {name : Token} (h : Marked kind name ts roles events) :
    Accounts ts roles events := by
  obtain ⟨hmarks, h⟩ := h
  exact hmarks.accounts.append h.accounts

end Parts

/-! ### Spans of paths -/

section Spans

variable {called : Bool} {separator : String} {t x : Token} {ts us vs words : List Token}
  {roles : List (Token × Role)} {events : List Event}

theorem Words.getLast?_eq (h : Words separator us words) : words.getLast? = us.getLast? := by
  induction h with
  | nil => rfl
  | cons _ _ _ ih => rw [List.getLast?_cons_cons, List.getLast?_cons, List.getLast?_cons, ih]

/-- The last token of a path is its last word. -/
theorem Path.getLast?_eq (h : Path called us words vs) : words.getLast? = us.getLast? := by
  cases h with
  | plain hcolons _ _ => exact hcolons.getLast?_eq
  | called hcolons hdots _ =>
    rw [List.getLast?_append, List.getLast?_append, hcolons.getLast?_eq, hdots.getLast?_eq]

theorem stop_le_getLast? (h : us.Pairwise fun t u ↦ t.span.stop ≤ u.span.start) (hx : x ∈ us) :
    x.span.stop ≤ (us.getLast?.getD t).span.stop := by
  induction us using List.reverseRecOn with
  | nil => exact absurd hx List.not_mem_nil
  | append_singleton us y ih =>
    rw [List.getLast?_concat, Option.getD_some]
    rcases List.mem_append.1 hx with hx | hx
    · have hle := (List.pairwise_append.1 h).2.2 x hx y (List.mem_singleton_self y)
      exact hle.trans (Nat.le_add_right _ _)
    · rw [List.mem_singleton.1 hx]

/-- The span of a path ends where its last token does. -/
theorem Path.stop_pathSpan (h : Path called us words vs)
    (hascending : (t :: us).Pairwise fun t u ↦ t.span.stop ≤ u.span.start) :
    (t.pathSpan words).stop = ((t :: us).getLast?.getD t).span.stop := by
  have hlast : ((t :: words).getLastD t).span.stop = ((t :: us).getLast?.getD t).span.stop := by
    rw [List.getLastD_eq_getLast?, List.getLast?_cons, List.getLast?_cons, h.getLast?_eq]
  have hfirst := stop_le_getLast? (t := t) hascending List.mem_cons_self
  rw [Token.pathSpan, Span.stop_between, hlast]
  exact hlast ▸ (Nat.le_add_right _ _).trans hfirst

/-- The span of a path contains those of all its tokens. -/
theorem Path.contains (h : Path called us words vs)
    (hascending : (t :: us).Pairwise fun t u ↦ t.span.stop ≤ u.span.start) (hx : x ∈ t :: us) :
    (t.pathSpan words).contains x.span = true := by
  have hstop := stop_le_getLast? (t := t) hascending hx
  have hstart : t.span.start ≤ x.span.start := by
    rcases List.mem_cons.1 hx with rfl | hx
    · exact le_rfl
    · exact (Nat.le_add_right _ _).trans ((List.pairwise_cons.1 hascending).1 x hx)
  rw [Span.contains, h.stop_pathSpan hascending, Bool.and_eq_true]
  exact ⟨decide_eq_true hstart, decide_eq_true hstop⟩

/-- The span of a path contains those of no other tokens. -/
theorem Path.mem_of_contains (h : Path called us words vs) (hinside : (t :: us) <:+: ts)
    (hascending : ts.Pairwise fun t u ↦ t.span.stop ≤ u.span.start)
    (hx : x ∈ ts) (hsize : 0 < x.span.size)
    (hcontains : (t.pathSpan words).contains x.span = true) : x ∈ t :: us := by
  have hpath := hascending.sublist hinside.sublist
  rw [Span.contains, h.stop_pathSpan hpath, Bool.and_eq_true, decide_eq_true_eq,
    decide_eq_true_eq] at hcontains
  obtain ⟨hstart, hstop⟩ := hcontains
  have hsize : x.span.start < x.span.stop := Nat.lt_add_of_pos_right hsize
  obtain ⟨front, back, rfl⟩ := hinside
  obtain ⟨hfront, -, hback⟩ := List.pairwise_append.1 hascending
  rcases List.mem_append.1 hx with hx | hx
  · rcases List.mem_append.1 hx with hx | hx
    · have hle := (List.pairwise_append.1 hfront).2.2 x hx t List.mem_cons_self
      exact absurd (hsize.trans_le (hle.trans hstart)) (Nat.lt_irrefl _)
    · exact hx
  · obtain ⟨last, hlast⟩ :=
      List.getLast?_isSome.2 (List.cons_ne_nil t us) |> Option.isSome_iff_exists.1
    rw [hlast, Option.getD_some] at hstop
    have hle := hback last (List.mem_append_right _ (List.mem_of_getLast? hlast)) x hx
    exact absurd (hsize.trans_le (hstop.trans hle)) (Nat.lt_irrefl _)

/-- A word that is used is in the span of an event. -/
theorem Used.exists_contains (h : Used ts events x)
    (hascending : ts.Pairwise fun t u ↦ t.span.stop ≤ u.span.start) :
    ∃ path span kind, .reference path span kind ∈ events ∧ span.contains x.span = true := by
  obtain ⟨hinside, hpath, hevent, hx⟩ := h
  exact ⟨_, _, _, hevent, hpath.contains (hascending.sublist hinside.sublist) hx⟩

/-- Each word in the span of the event is used. -/
theorem Told.mem_of_contains {path : List String} {span : Span} {kind : ReferenceKind}
    (h : Told ts roles (.reference path span kind))
    (hascending : ts.Pairwise fun t u ↦ t.span.stop ≤ u.span.start)
    (hx : x ∈ ts) (hword : x.kind = .word) (hsize : 0 < x.span.size)
    (hcontains : span.contains x.span = true) : (x, .use) ∈ roles := by
  obtain ⟨hinside, hpath, hevent, hwords⟩ := h
  obtain ⟨-, rfl, -⟩ := Event.reference.inj hevent
  exact hwords x (hpath.mem_of_contains hinside hascending hx hsize hcontains) hword

end Spans

end ShaderLink.Reading
