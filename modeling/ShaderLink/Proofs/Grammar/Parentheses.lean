import ShaderLink.Proofs.Grammar.Reading

/-!
# Parentheses of a body

Which tokens are in parentheses is told by counting these (`Reading.depth`), because a body closes
all that it opens (`Reading.Body.ends`).
-/

namespace ShaderLink

open ShaderLink.Parser

namespace Token

variable {t : Token} {s : String}

/-- The token is a parenthesis that opens or closes. -/
def IsParenthesis (t : Token) : Prop :=
  t.IsSymbol "(" ∨ t.IsSymbol ")"

/-- Words are no parentheses. -/
theorem not_isParenthesis_of_word (h : t.kind = .word) : ¬t.IsParenthesis := by
  rintro (hopen | hclose)
  · exact hopen.not_word h
  · exact hclose.not_word h

/-- Neither is any symbol but the two. -/
theorem IsSymbol.not_isParenthesis (h : t.IsSymbol s) (hs : s ≠ "(" ∧ s ≠ ")") :
    ¬t.IsParenthesis := by
  rintro (hopen | hclose)
  · exact hs.1 (h.unique hopen)
  · exact hs.2 (h.unique hclose)

end Token

namespace Reading

variable {ts us : List Token} {t x : Token} {events : List Event} {roles : List (Token × Role)}

/-- A token of two lists of tokens is one of the first or one of the second. -/
theorem split_append {ts us front back : List Token} {x : Token}
    (h : ts ++ us = front ++ x :: back) :
    (∃ rest, ts = front ++ x :: rest ∧ back = rest ++ us) ∨
      ∃ inside, front = ts ++ inside ∧ us = inside ++ x :: back := by
  rcases List.append_eq_append_iff.1 h with ⟨inside, hfront, hus⟩ | ⟨rest, rfl, hrest⟩
  · exact .inr ⟨inside, hfront, hus⟩
  · cases rest with
    | nil => exact .inr ⟨[], by simp, hrest.symm⟩
    | cons y rest =>
      obtain ⟨rfl, hback⟩ := List.cons.inj hrest
      exact .inl ⟨rest, rfl, hback⟩

/-- What is not the last token stands in front of it. -/
theorem split_concat {last : Token} {front back : List Token}
    (h : ts ++ [last] = front ++ x :: back)
    (hne : last ≠ x) : ∃ rest, ts = front ++ x :: rest := by
  rcases split_append h with ⟨rest, hts, -⟩ | ⟨inside, -, hlast⟩
  · exact ⟨rest, hts⟩
  · rcases List.cons_eq_append_iff.1 hlast with ⟨-, hlast⟩ | ⟨inside', -, hnil⟩
    · exact absurd (List.cons.inj hlast).1.symm hne
    · simp at hnil

/-! ### Parentheses -/

/-- How many parentheses are open behind tokens, with some open in front of them. One that closes
none does not count. -/
def depth : Nat → List Token → Nat
  | n, [] => n
  | n, t :: ts =>
    depth (if t.IsSymbol "(" then n + 1 else if t.IsSymbol ")" then n - 1 else n) ts

@[simp] theorem depth_nil (n : Nat) : depth n [] = n := rfl

theorem depth_open (ht : t.IsSymbol "(") (n : Nat) (ts : List Token) :
    depth n (t :: ts) = depth (n + 1) ts := by
  rw [depth, if_pos ht]

theorem depth_close (ht : t.IsSymbol ")") (n : Nat) (ts : List Token) :
    depth n (t :: ts) = depth (n - 1) ts := by
  rw [depth, if_neg (ht.not_isSymbol (by decide)), if_pos ht]

/-- What is no parenthesis does not count. -/
theorem depth_plain (ht : ¬t.IsParenthesis) (n : Nat) (ts : List Token) :
    depth n (t :: ts) = depth n ts := by
  rw [depth, if_neg fun h ↦ ht (.inl h), if_neg fun h ↦ ht (.inr h)]

/-- Counting goes on where it has come to. -/
@[simp] theorem depth_append (n : Nat) (ts us : List Token) :
    depth n (ts ++ us) = depth (depth n ts) us := by
  induction ts generalizing n with
  | nil => rfl
  | cons t ts ih => exact ih _

/-- The tokens close just the parentheses that they open. -/
structure Even (ts : List Token) : Prop where
  le_depth : ∀ us, us <+: ts → ∀ n, n ≤ depth n us
  depth_eq : ∀ n, depth n ts = n

namespace Even

theorem nil : Even [] :=
  ⟨fun us hus n ↦ by rw [List.prefix_nil.1 hus, depth_nil], fun _ ↦ rfl⟩

/-- Even parts make an even whole. In front of the second part the count is where it started. -/
theorem append (h : Even ts) (h' : Even us) : Even (ts ++ us) where
  le_depth front hfront n := by
    obtain ⟨back, heq⟩ := hfront
    rcases List.append_eq_append_iff.1 heq with ⟨behind, rfl, -⟩ | ⟨behind, rfl, rfl⟩
    · exact h.le_depth front (List.prefix_append _ _) n
    · rw [depth_append, h.depth_eq]
      exact h'.le_depth behind (List.prefix_append _ _) n
  depth_eq n := by rw [depth_append, h.depth_eq, h'.depth_eq]

/-- A token that is no parenthesis is even by itself. -/
theorem token (ht : ¬t.IsParenthesis) : Even [t] where
  le_depth us hus n := by
    cases us with
    | nil => exact le_rfl
    | cons u us =>
      obtain ⟨rfl, hnil⟩ := List.cons_prefix_cons.1 hus
      rw [depth_plain ht, List.prefix_nil.1 hnil, depth_nil]
  depth_eq n := depth_plain ht n []

theorem cons (ht : ¬t.IsParenthesis) (h : Even ts) : Even (t :: ts) :=
  (token ht).append h

/-- Tokens in parentheses. -/
theorem parens {last : Token} (ht : t.IsSymbol "(") (h : Even ts) (hlast : last.IsSymbol ")") :
    Even (t :: (ts ++ [last])) := by
  have hall (n : Nat) : depth n (t :: (ts ++ [last])) = n := by
    rw [depth_open ht, depth_append, h.depth_eq, depth_close hlast, depth_nil, Nat.add_sub_cancel]
  refine ⟨fun us hus n ↦ ?_, hall⟩
  rcases List.prefix_concat_iff.1 (show us <+: (t :: ts) ++ [last] from hus) with rfl | hus
  · exact (hall n).ge
  · cases us with
    | nil => exact le_rfl
    | cons u us =>
      obtain ⟨rfl, hfront⟩ := List.cons_prefix_cons.1 hus
      rw [depth_open ht]
      exact (Nat.le_succ n).trans (h.le_depth us hfront (n + 1))

end Even

/-- The separators of a path are no parentheses. -/
theorem Words.even {separator : String} {words : List Token} (h : Words separator ts words)
    (hs : separator ≠ "(" ∧ separator ≠ ")") : Even ts := by
  induction h with
  | nil => exact .nil
  | cons hmark hx _ ih =>
    exact .cons (hmark.not_isParenthesis hs) (.cons (Token.not_isParenthesis_of_word hx) ih)

/-- A path is even, because the parenthesis behind dotted words is only seen ahead. -/
theorem Path.even {called : Bool} {words vs : List Token} (h : Path called ts words vs) :
    Even ts := by
  cases h with
  | plain hcolons _ _ => exact hcolons.even (by decide)
  | called hcolons hdots _ => exact (hcolons.even (by decide)).append (hdots.even (by decide))

/-- The tokens end with a closing symbol and in front of it close all that they open. -/
def Ends (closer : String) (ts : List Token) : Prop :=
  ∃ front t, ts = front ++ [t] ∧ t.IsSymbol closer ∧ Even front

namespace Ends

variable {closer : String}

/-- In front of a body there may stand what is even. -/
theorem before (h : Ends closer ts) (h' : Even us) : Ends closer (us ++ ts) := by
  obtain ⟨front, t, rfl, ht, hfront⟩ := h
  exact ⟨us ++ front, t, (List.append_assoc _ _ _).symm, ht, h'.append hfront⟩

/-- A body that another bracket closes is even as a whole. -/
theorem even (h : Ends closer ts) (hcloser : closer ≠ "(" ∧ closer ≠ ")") : Even ts := by
  obtain ⟨front, t, rfl, ht, hfront⟩ := h
  exact hfront.append (.token (ht.not_isParenthesis hcloser))

/-- With the parenthesis that opens it, what one closes is even. -/
theorem parens (ht : t.IsSymbol "(") (h : Ends ")" ts) : Even (t :: ts) := by
  obtain ⟨front, last, rfl, hlast, hfront⟩ := h
  exact hfront.parens ht hlast

/-- Names in parentheses stand deeper than what is around these. -/
theorem lt_depth {front back : List Token} (ht : t.IsSymbol "(") (h : Ends ")" ts)
    (hsplit : t :: ts = front ++ x :: back) (hx : x.IsName) (n : Nat) : n < depth n front := by
  obtain ⟨inside, last, rfl, hlast, hinside⟩ := h
  cases front with
  | nil => exact absurd hx ((List.cons.inj hsplit).1 ▸ ht.not_isName)
  | cons u front =>
    obtain ⟨rfl, hrest⟩ := List.cons.inj hsplit
    obtain ⟨rest, rfl⟩ := split_concat hrest fun h ↦ hlast.not_isName (h ▸ hx)
    rw [depth_open ht]
    exact hinside.le_depth front (List.prefix_append _ _) (n + 1)

end Ends

/-- A body ends with what closes it. -/
theorem Body.ends {closer previous : String} {mode : BodyMode} {pending : List Event}
    (h : Body closer mode previous pending ts roles events) : Ends closer ts := by
  have hword {t : Token} (ht : t.kind = .word) : Even [t] :=
    .token (Token.not_isParenthesis_of_word ht)
  induction h with
  | close ht => exact ⟨[], _, rfl, ht, .nil⟩
  | statement ht _ _ ih => exact ih.before (.token (ht.not_isParenthesis (by decide)))
  | block ht _ _ _ ihinside ih =>
    exact ih.before (.cons (ht.not_isParenthesis (by decide)) (ihinside.even (by decide)))
  | group ht hlast _ _ _ ihinside ih =>
    -- only one of the two brackets is a parenthesis
    simp only [groups, List.mem_cons, Prod.mk.injEq, List.not_mem_nil, or_false] at hlast
    rcases hlast with ⟨hopen, rfl⟩ | ⟨hopen, rfl⟩
    · exact ih.before (ihinside.parens ⟨ht, hopen⟩)
    · have hbracket : Token.IsSymbol _ "[" := ⟨ht, hopen⟩
      exact ih.before (.cons (hbracket.not_isParenthesis (by decide)) (ihinside.even (by decide)))
  | «attribute» ht _ hwhich _ _ ih =>
    exact ih.before (.cons (ht.not_isParenthesis (by decide)) (hword hwhich))
  | arguments ht _ hwhich hparen _ _ ihinside ih =>
    have hargs := Even.cons (Token.not_isParenthesis_of_word hwhich) (ihinside.parens hparen)
    exact ih.before (.cons (ht.not_isParenthesis (by decide)) hargs)
  | member ht _ hx _ ih =>
    exact ih.before (.cons (ht.not_isParenthesis (by decide)) (hword hx))
  | dot ht _ _ _ ih => exact ih.before (.token (ht.not_isParenthesis (by decide)))
  | loop ht hparen _ hbrace _ _ ihheader ihinside ih =>
    have hblock := Even.cons (hbrace.not_isParenthesis (by decide)) (ihinside.even (by decide))
    exact ((ih.before hblock).before (ihheader.parens hparen)).before (hword ht.1)
  | declare ht _ hx _ ih =>
    exact ih.before (.cons (Token.not_isParenthesis_of_word ht) (hword hx.1))
  | template ht _ hbracket _ hx _ ihinside ih =>
    have hinside := Even.cons (hbracket.not_isParenthesis (by decide)) (ihinside.even (by decide))
    exact (ih.before (hword hx.1)).before (.cons (Token.not_isParenthesis_of_word ht) hinside)
  | keyword ht _ _ _ _ ih => exact ih.before (hword ht)
  | parameter ht _ _ ih => exact ih.before (hword ht.1)
  | reference ht _ hpath _ ih =>
    exact ih.before (.cons (Token.not_isParenthesis_of_word ht.1) hpath.even)
  | other _ hsymbol _ ih =>
    refine ih.before (.token ?_)
    rintro (hopen | hclose)
    · exact hsymbol hopen.1 (by simp [hopen.2, structural])
    · exact hsymbol hclose.1 (by simp [hclose.2, structural])

end Reading

end ShaderLink
