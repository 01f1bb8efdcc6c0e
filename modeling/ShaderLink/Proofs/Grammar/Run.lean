import ShaderLink.Proofs.Grammar.Reading
import ShaderLink.Proofs.Grammar.Shape

/-!
# Runs of the rules

How the rules of the grammar get from one cursor to another, as relations with one rule for each
kind of step (`Run.Body` and, for whole declarations, `Run.Marked`). The rules count rounds and
branch on what they find; a run says what was found and which events it left. All that the rules for
declarations accept has a run (`Parser.Comes.run_bodyWithin`, `Parser.Comes.run_unmarkedDecl`), so
that a fact about everything that they read is proved by induction on runs, and nothing but this
module takes the rules apart.

In contrast to the relations of `Reading`, a run knows where in the text it is and what was refused
on its way, where the next step depends on that.
-/

namespace ShaderLink

namespace Run

open ShaderLink.Parser

/-! ### Bodies -/

/-- A body is read up to the symbol that closes it, behind some token and with some declarations
pending. -/
inductive Body (n : Nat) :
    String → BodyMode → String → List Event → Cursor → List Event → Cursor → Prop
  | close {closer previous : String} {mode : BodyMode} {pending : List Event} {c c' : Cursor}
    {t : Token} (ht : (token .shader).Yields c t c') (hsymbol : t.IsSymbol closer) :
    Body n closer mode previous pending c pending c'
  | statement {closer previous : String} {mode : BodyMode} {pending events : List Event}
    {c c₁ c' : Cursor} {t : Token} (ht : (token .shader).Yields c t c₁) (hsymbol : t.IsSymbol ";")
    (hne : t.text ≠ closer) (h : Body n closer mode t.text [] c₁ events c') :
    Body n closer mode previous pending c (pending ++ events) c'
  | block {closer previous : String} {mode : BodyMode} {pending inside events : List Event}
    {c c₁ c₂ c' : Cursor} {t : Token} (ht : (token .shader).Yields c t c₁)
    (hsymbol : t.IsSymbol "\x7b") (hne : t.text ≠ closer)
    (hinside : Body n "\x7d" .code "" [] c₁ inside c₂)
    (h : Body n closer mode t.text pending c₂ events c') :
    Body n closer mode previous pending c (.openBlock :: (inside ++ .closeBlock :: events)) c'
  | group {closer previous last : String} {mode : BodyMode} {pending inside events : List Event}
    {c c₁ c₂ c' : Cursor} {t : Token} (ht : (token .shader).Yields c t c₁)
    (hsymbol : t.kind = .symbol) (hlast : (t.text, last) ∈ Reading.groups) (hne : t.text ≠ closer)
    (hinside : Body n last .code "" [] c₁ inside c₂)
    (h : Body n closer mode t.text pending c₂ events c') :
    Body n closer mode previous pending c (inside ++ events) c'
  | mark {closer previous : String} {mode : BodyMode} {pending events : List Event}
    {c c₁ c₂ c' : Cursor} {t which : Token} (ht : (token .shader).Yields c t c₁)
    (hsymbol : t.IsSymbol "@") (hne : t.text ≠ closer) (hwhich : word.Yields c₁ which c₂)
    (hrefused : (sign "(").Comes n c₂ .refused)
    (h : Body n closer mode t.text pending c₂ events c') :
    Body n closer mode previous pending c events c'
  | arguments {closer previous : String} {mode : BodyMode} {pending inside events : List Event}
    {c c₁ c₂ c₃ c₄ c' : Cursor} {t which paren : Token} (ht : (token .shader).Yields c t c₁)
    (hsymbol : t.IsSymbol "@") (hne : t.text ≠ closer) (hwhich : word.Yields c₁ which c₂)
    (hparen : (sign "(").Yields c₂ paren c₃) (hinside : Body n ")" .code "" [] c₃ inside c₄)
    (h : Body n closer mode t.text pending c₄ events c') :
    Body n closer mode previous pending c
      ((if expressionAttributes.contains which.text then inside else []) ++ events) c'
  | member {closer previous : String} {mode : BodyMode} {pending events : List Event}
    {c c₁ c₂ c' : Cursor} {t x : Token} (ht : (token .shader).Yields c t c₁)
    (hsymbol : t.IsSymbol ".") (hne : t.text ≠ closer) (hx : word.Yields c₁ x c₂)
    (h : Body n closer mode t.text pending c₂ events c') :
    Body n closer mode previous pending c events c'
  | dot {closer previous : String} {mode : BodyMode} {pending events : List Event}
    {c c₁ c' : Cursor} {t : Token} (ht : (token .shader).Yields c t c₁) (hsymbol : t.IsSymbol ".")
    (hne : t.text ≠ closer) (hrefused : word.Comes n c₁ .refused)
    (h : Body n closer mode t.text pending c₁ events c') :
    Body n closer mode previous pending c events c'
  | loop {closer previous : String} {mode : BodyMode} {pending header inside events : List Event}
    {c c₁ c₂ c₃ c₄ c₅ c' : Cursor} {t paren brace : Token} (ht : (token .shader).Yields c t c₁)
    (hfor : t.IsReserved "for") (hparen : (sign "(").Yields c₁ paren c₂)
    (hheader : Body n ")" .code "" [] c₂ header c₃) (hbrace : (sign "\x7b").Yields c₃ brace c₄)
    (hinside : Body n "\x7d" .code "" [] c₄ inside c₅)
    (h : Body n closer mode t.text pending c₅ events c') :
    Body n closer mode previous pending c
      (.openBlock :: (header ++ (inside ++ .closeBlock :: events))) c'
  | declare {closer previous : String} {mode : BodyMode} {pending events : List Event}
    {c c₁ c₂ c' : Cursor} {t x : Token} (ht : (token .shader).Yields c t c₁)
    (hword : t.kind = .word) (hdeclares : t.text ∈ declaring) (hx : name.Yields c₁ x c₂)
    (h : Body n closer mode t.text (pending ++ [.declare x.text x.span]) c₂ events c') :
    Body n closer mode previous pending c events c'
  | template {closer previous : String} {mode : BodyMode} {pending inside events : List Event}
    {c c₁ c₂ c₃ c₄ c' : Cursor} {t bracket x : Token} (ht : (token .shader).Yields c t c₁)
    (hword : t.kind = .word) (hdeclares : t.text ∈ declaring)
    (hbracket : (sign "<").Yields c₁ bracket c₂) (hinside : Body n ">" .code "" [] c₂ inside c₃)
    (hx : name.Yields c₃ x c₄)
    (h : Body n closer mode t.text (pending ++ [.declare x.text x.span]) c₄ events c') :
    Body n closer mode previous pending c events c'
  | keyword {closer previous : String} {mode : BodyMode} {pending events : List Event}
    {c c₁ c' : Cursor} {t : Token} (ht : (token .shader).Yields c t c₁) (hword : t.kind = .word)
    (hkeyword : isKeyword t.text = true) (hfor : t.text ≠ "for") (hdeclares : t.text ∉ declaring)
    (h : Body n closer mode t.text pending c₁ events c') :
    Body n closer mode previous pending c events c'
  | parameter {closer previous : String} {pending events : List Event} {c c₁ c₂ c' : Cursor}
    {t colon : Token} (ht : (token .shader).Yields c t c₁) (hname : t.IsName)
    (hcolon : (sign ":").Yields c₁ colon c₂)
    (h : Body n closer .params t.text pending c₁ events c') :
    Body n closer .params previous pending c (.declare t.text t.span :: events) c'
  | reference {closer previous : String} {mode : BodyMode} {path : List String} {span : Span}
    {called : Bool} {pending events : List Event} {c c₁ c₂ c' : Cursor} {t : Token}
    (ht : (token .shader).Yields c t c₁) (hname : t.IsName)
    (hrefused : mode = .params → (sign ":").Comes n c₁ .refused)
    (hpath : (referencePath t).Comes n c₁ (.accepted (path, span, called) c₂))
    (h : Body n closer mode t.text pending c₂ events c') :
    Body n closer mode previous pending c
      (.reference path span (if called then .call else referenceKind previous) :: events) c'
  | other {closer previous : String} {mode : BodyMode} {pending events : List Event}
    {c c₁ c' : Cursor} {t : Token} (ht : (token .shader).Yields c t c₁) (hword : t.kind ≠ .word)
    (hsymbol : t.kind = .symbol → t.text ∉ closer :: ";" :: structural)
    (h : Body n closer mode t.text pending c₁ events c') :
    Body n closer mode previous pending c events c'

/-! ### Attributes -/

/-- The arguments of an attribute are read, if it has any. -/
inductive Arguments (n : Nat) (which : String) : Cursor → List Event → Cursor → Prop
  | none {c : Cursor} (hrefused : (sign "(").Comes n c .refused) : Arguments n which c [] c
  | some {c c₁ c' : Cursor} {paren : Token} {inside : List Event}
    (hparen : (sign "(").Yields c paren c₁) (hinside : Body n ")" .code "" [] c₁ inside c') :
    Arguments n which c (if expressionAttributes.contains which then inside else []) c'

/-- Attributes are read one behind the other. -/
inductive Attributes (n : Nat) : Cursor → List Event → Cursor → Prop
  | nil (c : Cursor) : Attributes n c [] c
  | cons {c c₁ c₂ c₃ c' : Cursor} {t which : Token} {inside events : List Event}
    (ht : (sign "@").Yields c t c₁) (hwhich : word.Yields c₁ which c₂)
    (hargs : Arguments n which.text c₂ inside c₃) (h : Attributes n c₃ events c') :
    Attributes n c (inside ++ events) c'

/-! ### Structs -/

/-- The type of a member is read from a depth of angle brackets on. -/
inductive MemberType (n : Nat) : Nat → Cursor → List Event → Cursor → Prop
  | nil (c : Cursor) : MemberType n 0 c [] c
  | opening {depth : Nat} {c c₁ c' : Cursor} {t : Token} {events : List Event}
    (ht : (token .shader).Yields c t c₁) (hsymbol : t.IsSymbol "<")
    (h : MemberType n (depth + 1) c₁ events c') : MemberType n depth c events c'
  | closing {depth : Nat} {c c₁ c' : Cursor} {t : Token} {events : List Event}
    (ht : (token .shader).Yields c t c₁) (hsymbol : t.IsSymbol ">")
    (h : MemberType n (depth - 1) c₁ events c') : MemberType n depth c events c'
  | inner {depth : Nat} {c c₁ c' : Cursor} {t : Token} {s : String} {events : List Event}
    (ht : (token .shader).Yields c t c₁) (hsymbol : t.IsSymbol s) (hs : s = "," ∨ s = "\x7d")
    (hdepth : depth ≠ 0) (h : MemberType n depth c₁ events c') : MemberType n depth c events c'
  | group {depth : Nat} {c c₁ c₂ c' : Cursor} {t : Token} {inside events : List Event}
    (ht : (token .shader).Yields c t c₁) (hsymbol : t.IsSymbol "(")
    (hinside : Body n ")" .code "" [] c₁ inside c₂) (h : MemberType n depth c₂ events c') :
    MemberType n depth c (inside ++ events) c'
  | reference {depth : Nat} {c c₁ c₂ c' : Cursor} {t : Token} {path : List String} {span : Span}
    {called : Bool} {events : List Event} (ht : (token .shader).Yields c t c₁) (hname : t.IsName)
    (hpath : (referencePath t).Comes n c₁ (.accepted (path, span, called) c₂))
    (h : MemberType n depth c₂ events c') :
    MemberType n depth c (.reference path span .type :: events) c'
  | other {depth : Nat} {c c₁ c' : Cursor} {t : Token} {events : List Event}
    (ht : (token .shader).Yields c t c₁) (hname : ¬t.IsName)
    (hsymbol : t.kind = .symbol → t.text ∉ typeSymbols) (h : MemberType n depth c₁ events c') :
    MemberType n depth c events c'

/-- Behind the type of a member, a comma is read, or there is the brace that closes the struct. -/
inductive TypeEnd : Cursor → Cursor → Prop
  | comma {c c' : Cursor} {t : Token} (ht : (token .shader).Yields c t c')
    (hsymbol : t.IsSymbol ",") : TypeEnd c c'
  | brace {c c₁ : Cursor} {t : Token} (ht : (token .shader).Yields c t c₁)
    (hsymbol : t.IsSymbol "\x7d") : TypeEnd c c

/-- The members of a struct are read, and the brace that closes it. -/
inductive Members (n : Nat) : Cursor → List Event → Cursor → Prop
  | close {c c' : Cursor} {brace : Token} (hbrace : (sign "\x7d").Yields c brace c') :
    Members n c [] c'
  | member {c c₁ c₂ c₃ c₄ c₅ c' : Cursor} {x colon : Token} {marks type events : List Event}
    (hrefused : (sign "\x7d").Comes n c .refused) (hmarks : Attributes n c marks c₁)
    (hx : word.Yields c₁ x c₂) (hcolon : (sign ":").Yields c₂ colon c₃)
    (htype : MemberType n 0 c₃ type c₄) (hend : TypeEnd c₄ c₅) (h : Members n c₅ events c') :
    Members n c (marks ++ .member x.text x.span :: (type ++ events)) c'

/-! ### Declarations -/

/-- A declaration of a kind is read, with its name and without its attributes. -/
inductive Declaration (n : Nat) : DeclKind → Token → Cursor → List Event → Cursor → Prop
  | function {c c₁ c₂ c₃ c₄ c₅ c' : Cursor} {word declared paren : Token}
    {params result events : List Event} (hword : (sign "fn").Yields c word c₁)
    (hname : name.Yields c₁ declared c₂) (hparen : (sign "(").Yields c₂ paren c₃)
    (hparams : Body n ")" .params "" [] c₃ params c₄)
    (hresult : Body n "\x7b" .code "" [] c₄ result c₅)
    (h : Body n "\x7d" .code "" [] c₅ events c') :
    Declaration n .fn declared c (params ++ (result ++ events)) c'
  | struct {c c₁ c₂ c₃ c' : Cursor} {word declared brace : Token} {events : List Event}
    (hword : (sign "struct").Yields c word c₁) (hname : name.Yields c₁ declared c₂)
    (hbrace : (sign "\x7b").Yields c₂ brace c₃) (h : Members n c₃ events c') :
    Declaration n .struct declared c events c'
  | value {c c₁ c₂ c' : Cursor} {kind : DeclKind} {s : String} {word declared : Token}
    {events : List Event} (hkind : (s, kind) ∈ Reading.valueWords)
    (hword : (sign s).Yields c word c₁) (hname : name.Yields c₁ declared c₂)
    (h : Body n ";" .code "" [] c₂ events c') : Declaration n kind declared c events c'
  | template {c c₁ c₂ c₃ c₄ c' : Cursor} {kind : DeclKind} {s : String}
    {word bracket declared : Token} {inside events : List Event}
    (hkind : (s, kind) ∈ Reading.valueWords) (hword : (sign s).Yields c word c₁)
    (hbracket : (sign "<").Yields c₁ bracket c₂) (hinside : Body n ">" .code "" [] c₂ inside c₃)
    (hname : name.Yields c₃ declared c₄) (h : Body n ";" .code "" [] c₄ events c') :
    Declaration n kind declared c events c'
  | typeAlias {c c₁ c₂ c₃ c' : Cursor} {word declared equals : Token} {events : List Event}
    (hword : (sign "alias").Yields c word c₁) (hname : name.Yields c₁ declared c₂)
    (hequals : (sign "=").Yields c₂ equals c₃) (h : Body n ";" .code "" [] c₃ events c') :
    Declaration n .typeAlias declared c events c'

/-- A declaration is read with its attributes. -/
inductive Marked (n : Nat) (kind : DeclKind) (declared : Token) :
    Cursor → List Event → Cursor → Prop
  | mk {c c₁ c' : Cursor} {marks events : List Event} (hmarks : Attributes n c marks c₁)
    (h : Declaration n kind declared c₁ events c') : Marked n kind declared c (marks ++ events) c'

end Run

namespace Parser

variable {n m : Nat} {c c₁ c' : Cursor} {events pending : List Event} {token declared : Token}
  {kind : DeclKind}

/-- What a parser can accept, it accepts with some number of rounds. -/
theorem Yields.exists_comes {α : Type} {p : Parser α} {a : α} (h : p.Yields c a c') :
    ∃ n, p.Comes n c (.accepted a c') := by
  obtain ⟨limits, e, e', h⟩ := h
  exact ⟨limits.rounds, limits.steps, e, e', h⟩

namespace Comes

/-! ### All that is accepted has a run -/

theorem seqRight {α β : Type} {p : Parser α} {q : Parser β} {b : β}
    (h : (p *> q).Comes n c (.accepted b c')) :
    ∃ a c₁, p.Comes n c (.accepted a c₁) ∧ q.Comes n c₁ (.accepted b c') :=
  Comes.bind (f := fun _ ↦ q) h

/-- Among parameters, a name in front of a colon is declared. Any other name in a body is a path. -/
theorem mention {mode : BodyMode} {previous : String} {event : Event}
    (h : (Parser.mention mode previous token).Comes n c (.accepted event c')) :
    (mode = .params ∧ c = c' ∧ event = .declare token.text token.span ∧
      ∃ colon c₁, (sign ":").Yields c colon c₁) ∨
    (mode = .params → (sign ":").Comes n c .refused) ∧ ∃ path span called,
      (referencePath token).Comes n c (.accepted (path, span, called) c') ∧
        event = .reference path span (if called then .call else referenceKind previous) := by
  have hpath (h : Comes (do
      let r ← referencePath token
      return .reference r.1 r.2.1 (if r.2.2 then .call else referenceKind previous))
      n c (.accepted event c')) :
      ∃ path span called, (referencePath token).Comes n c (.accepted (path, span, called) c') ∧
        event = .reference path span (if called then .call else referenceKind previous) := by
    obtain ⟨⟨path, span, called⟩, c₁, hpath, h⟩ := Comes.bind h
    obtain ⟨rfl, rfl⟩ := h.pure
    exact ⟨path, span, called, hpath, rfl⟩
  cases mode with
  | params =>
    obtain ⟨declares, c₁, hdeclares, h⟩ := Comes.bind h
    obtain ⟨colon?, hcolon, rfl⟩ := hdeclares.map
    rcases hcolon.optional with ⟨colon, hpeek, rfl⟩ | ⟨rfl, rfl, hrefused⟩
    · obtain ⟨rfl, c₂, hsign⟩ := hpeek.peek
      obtain ⟨rfl, rfl⟩ := Comes.pure h
      exact .inl ⟨rfl, rfl, rfl, colon, c₂, hsign.yields⟩
    · exact .inr ⟨fun _ ↦ hrefused.peek_refused, hpath h⟩
  | code =>
    obtain ⟨declares, c₁, hdeclares, h⟩ := Comes.bind h
    obtain ⟨rfl, rfl⟩ := hdeclares.pure
    exact .inr ⟨nofun, hpath h⟩

/-- The arguments of an attribute have a run, if what is in the parentheses has one. -/
theorem run_attributeArgs {args : Parser (List Event)} {which : String}
    (hargs : ∀ {c events c'}, args.Comes n c (.accepted events c') →
      Run.Body n ")" .code "" [] c events c')
    (h : (attributeArgs args which).Comes n c (.accepted events c')) :
    Run.Arguments n which c events c' := by
  obtain ⟨paren, c₁, hparen, h⟩ := Comes.bind h
  rcases hparen.optional with ⟨token, hsign, rfl⟩ | ⟨rfl, rfl, hrefused⟩
  · obtain ⟨inside, c₂, hinside, h⟩ := Comes.bind h
    obtain ⟨rfl, rfl⟩ := h.pure
    exact .some hsign.yields (hargs hinside)
  · obtain ⟨rfl, rfl⟩ := h.pure
    exact .none hrefused

/-- Every body that is read has a run. -/
theorem run_bodyWithin {closer previous : String} {mode : BodyMode}
    (h : (bodyWithin m closer mode previous pending).Comes n c (.accepted events c')) :
    Run.Body n closer mode previous pending c events c' := by
  induction m generalizing closer mode previous pending events c c' with
  | zero =>
    rw [bodyWithin_zero] at h
    exact h.yields.not_refuse.elim
  | succ m ih =>
    rw [bodyWithin] at h
    obtain ⟨token, c₁, htoken, h⟩ := h.bind
    have htoken := htoken.commit.yields
    dsimp only at h
    split at h
    · rename_i hsymbol
      split at h
      · -- the symbol that closes the body
        rename_i hcloses
        obtain ⟨rfl, rfl⟩ := h.pure
        exact .close htoken ⟨hsymbol, hcloses⟩
      · rename_i hne
        split at h
        · -- the end of a statement
          rename_i hsemicolon
          obtain ⟨rest, c₂, hrest, h⟩ := h.bind
          obtain ⟨rfl, rfl⟩ := h.pure
          exact .statement htoken ⟨hsymbol, hsemicolon⟩ hne (ih hrest)
        · -- a block
          rename_i hbrace
          obtain ⟨inside, c₂, hinside, h⟩ := h.bind
          obtain ⟨rest, c₃, hrest, h⟩ := h.bind
          obtain ⟨rfl, rfl⟩ := h.pure
          exact .block htoken ⟨hsymbol, hbrace⟩ hne (ih hinside) (ih hrest)
        · -- arguments
          rename_i hparen
          obtain ⟨inside, c₂, hinside, h⟩ := h.bind
          obtain ⟨rest, c₃, hrest, h⟩ := h.bind
          obtain ⟨rfl, rfl⟩ := h.pure
          exact .group htoken hsymbol (by rw [hparen]; decide) hne (ih hinside) (ih hrest)
        · -- an index
          rename_i hbracket
          obtain ⟨inside, c₂, hinside, h⟩ := h.bind
          obtain ⟨rest, c₃, hrest, h⟩ := h.bind
          obtain ⟨rfl, rfl⟩ := h.pure
          exact .group htoken hsymbol (by rw [hbracket]; decide) hne (ih hinside) (ih hrest)
        -- brackets that nothing has opened
        · exact h.yields.not_abort.elim
        · exact h.yields.not_abort.elim
        · exact h.yields.not_abort.elim
        · -- an attribute
          rename_i hat
          obtain ⟨which, c₂, hwhich, h⟩ := h.bind
          obtain ⟨args, c₃, hargs, h⟩ := h.bind
          obtain ⟨rest, c₄, hrest, h⟩ := h.bind
          obtain ⟨rfl, rfl⟩ := h.pure
          have hwhich := hwhich.commit.yields
          cases run_attributeArgs ih hargs with
          | none hrefused => exact .mark htoken ⟨hsymbol, hat⟩ hne hwhich hrefused (ih hrest)
          | some hparen hinside =>
            exact .arguments htoken ⟨hsymbol, hat⟩ hne hwhich hparen hinside (ih hrest)
        · -- a member of a value
          rename_i hdot
          obtain ⟨member, c₂, hmember, h⟩ := h.bind
          rcases hmember.optional with ⟨found, hfound, rfl⟩ | ⟨rfl, rfl, hrefused⟩
          · exact .member htoken ⟨hsymbol, hdot⟩ hne hfound.yields (ih h)
          · exact .dot htoken ⟨hsymbol, hdot⟩ hne hrefused (ih h)
        · rename_i hsemicolon hbrace hparen hbracket hparen' hbracket' hbrace' hat hdot
          refine .other htoken (by rw [hsymbol]; decide) (fun _ ↦ ?_) (ih h)
          simp only [structural, List.mem_cons, List.not_mem_nil, or_false, not_or]
          exact ⟨hne, hsemicolon, hparen, hparen', hbracket, hbracket', hbrace, hbrace', hat, hdot⟩
    · rename_i hsymbol
      split at h
      · rename_i hword
        split at h
        · -- a loop
          rename_i hfor
          obtain ⟨paren, c₂, hparen, h⟩ := h.bind
          obtain ⟨header, c₃, hheader, h⟩ := h.bind
          obtain ⟨brace, c₄, hbrace, h⟩ := h.bind
          obtain ⟨inside, c₅, hinside, h⟩ := h.bind
          obtain ⟨rest, c₆, hrest, h⟩ := h.bind
          obtain ⟨rfl, rfl⟩ := h.pure
          exact .loop htoken ⟨hword, hfor⟩ hparen.commit.yields (ih hheader) hbrace.commit.yields
            (ih hinside) (ih hrest)
        · rename_i hfor
          split at h
          · -- a declaration, which is held back
            rename_i hdeclares
            have hdeclares : token.text ∈ declaring := List.contains_iff_mem.1 hdeclares
            obtain ⟨template, c₂, htemplate, h⟩ := h.bind
            obtain ⟨found, c₃, hfound, hmore⟩ := h.bind
            have hfound := hfound.commit.yields
            rcases htemplate.optional with ⟨args, hargs, rfl⟩ | ⟨rfl, rfl, -⟩
            · obtain ⟨bracket, c₄, hbracket, hargs⟩ := hargs.seqRight
              exact .template htoken hword hdeclares hbracket.yields (ih hargs) hfound (ih hmore)
            · exact .declare htoken hword hdeclares hfound (ih hmore)
          · rename_i hdeclares
            split at h
            · -- a keyword
              rename_i hkeyword
              exact .keyword htoken hword hkeyword hfor
                (fun hmem ↦ hdeclares (List.contains_iff_mem.2 hmem)) (ih h)
            · rename_i hkeyword
              have hname : token.IsName := ⟨hword, Bool.eq_false_iff.2 hkeyword⟩
              obtain ⟨event, c₂, hevent, h⟩ := h.bind
              obtain ⟨rest, c₃, hrest, h⟩ := h.bind
              obtain ⟨rfl, rfl⟩ := h.pure
              rcases hevent.mention with ⟨rfl, rfl, rfl, colon, c₂, hcolon⟩ |
                ⟨hrefused, path, span, called, hpath, rfl⟩
              · exact .parameter htoken hname hcolon (ih hrest)
              · exact .reference htoken hname hrefused hpath (ih hrest)
      · rename_i hword
        exact .other htoken hword (fun h ↦ absurd h hsymbol) (ih h)

theorem run_bodyUntil {closer : String} {mode : BodyMode}
    (h : (bodyUntil closer mode).Comes n c (.accepted events c')) :
    Run.Body n closer mode "" [] c events c' := by
  obtain ⟨m, c₁, hm, h⟩ := Comes.bind h
  obtain rfl := hm.yields.rounds
  exact run_bodyWithin h

theorem run_attributes (h : attributes.Comes n c (.accepted events c')) :
    Run.Attributes n c events c' := by
  obtain ⟨all, hall, rfl⟩ := h.map
  have hrepeats := hall.many
  clear hall h
  induction hrepeats with
  | nil c => exact .nil c
  | cons head _ ih =>
    obtain ⟨at₁, c₂, hat, h⟩ := Comes.bind head.comes
    obtain ⟨which, c₃, hwhich, h⟩ := Comes.bind h
    exact .cons hat.yields hwhich.commit.yields (run_attributeArgs run_bodyUntil h) ih

/-- The type of a member is read up to the comma behind it or to the brace that closes the
struct. -/
theorem run_memberTypeWithin {depth : Nat}
    (h : (memberTypeWithin m depth).Comes n c (.accepted events c')) :
    ∃ c₁, Run.MemberType n depth c events c₁ ∧ Run.TypeEnd c₁ c' := by
  induction m generalizing depth events c c' with
  | zero => exact h.yields.not_refuse.elim
  | succ m ih =>
    rw [memberTypeWithin] at h
    obtain ⟨before, c₁, hbefore, h⟩ := h.bind
    obtain ⟨rfl, rfl⟩ := hbefore.yields.here
    obtain ⟨token, c₂, htoken, h⟩ := h.bind
    have htoken := htoken.commit.yields
    split at h
    -- the brackets of a template
    · rename_i hsymbol hopen
      obtain ⟨c₃, hrun, hend⟩ := ih h
      exact ⟨c₃, .opening htoken ⟨hsymbol, hopen⟩ hrun, hend⟩
    · rename_i hsymbol hclose
      obtain ⟨c₃, hrun, hend⟩ := ih h
      exact ⟨c₃, .closing htoken ⟨hsymbol, hclose⟩ hrun, hend⟩
    · rename_i hsymbol hcomma
      split at h
      · -- the comma behind the member
        rename_i hdepth
        obtain ⟨rfl, rfl⟩ := h.pure
        subst hdepth
        exact ⟨c, .nil c, .comma htoken ⟨hsymbol, hcomma⟩⟩
      · rename_i hdepth
        obtain ⟨c₃, hrun, hend⟩ := ih h
        exact ⟨c₃, .inner htoken ⟨hsymbol, hcomma⟩ (.inl rfl) hdepth hrun, hend⟩
    · rename_i hsymbol hbrace
      split at h
      · -- the brace that closes the struct is left to read
        rename_i hdepth
        obtain ⟨u, c₃, hback, h⟩ := Comes.bind h
        obtain rfl := hback.yields.goBack
        obtain ⟨rfl, rfl⟩ := h.pure
        subst hdepth
        exact ⟨c, .nil c, .brace htoken ⟨hsymbol, hbrace⟩⟩
      · rename_i hdepth
        obtain ⟨c₃, hrun, hend⟩ := ih h
        exact ⟨c₃, .inner htoken ⟨hsymbol, hbrace⟩ (.inr rfl) hdepth hrun, hend⟩
    · -- arguments
      rename_i hsymbol hparen
      obtain ⟨inside, c₃, hinside, h⟩ := Comes.bind h
      obtain ⟨rest, c₄, hrest, h⟩ := h.bind
      obtain ⟨rfl, rfl⟩ := h.pure
      obtain ⟨c₅, hrun, hend⟩ := ih hrest
      exact ⟨c₅, .group htoken ⟨hsymbol, hparen⟩ (run_bodyUntil hinside) hrun, hend⟩
    · rename_i hword
      have hsymbol : token.kind = .symbol → token.text ∉ typeSymbols := fun hsymbol ↦ by
        rw [hword] at hsymbol
        cases hsymbol
      split at h
      · rename_i hkeyword
        obtain ⟨c₃, hrun, hend⟩ := ih h
        refine ⟨c₃, .other htoken (fun hname ↦ ?_) hsymbol hrun, hend⟩
        exact Bool.false_ne_true (hname.2.symm.trans hkeyword)
      · rename_i hkeyword
        obtain ⟨⟨path, span, called⟩, c₃, hpath, h⟩ := Comes.bind h
        obtain ⟨rest, c₄, hrest, h⟩ := h.bind
        obtain ⟨rfl, rfl⟩ := h.pure
        obtain ⟨c₅, hrun, hend⟩ := ih hrest
        exact ⟨c₅, .reference htoken ⟨hword, Bool.eq_false_iff.2 hkeyword⟩ hpath hrun, hend⟩
    · rename_i hword hopen hclose hcomma hbrace hparen
      obtain ⟨c₃, hrun, hend⟩ := ih h
      refine ⟨c₃, .other htoken (fun hname ↦ hword hname.1) (fun hsymbol ↦ ?_) hrun, hend⟩
      simp only [typeSymbols, List.mem_cons, List.not_mem_nil, or_false, not_or]
      exact ⟨hopen hsymbol, hclose hsymbol, hcomma hsymbol, hbrace hsymbol, hparen hsymbol⟩

/-- The members are read up to the brace that closes the struct. -/
theorem run_membersWithin (h : (membersWithin m).Comes n c (.accepted events c')) :
    Run.Members n c events c' := by
  induction m generalizing events c c' with
  | zero => exact h.yields.not_refuse.elim
  | succ m ih =>
    rw [membersWithin] at h
    obtain ⟨brace, c₁, hbrace, h⟩ := h.bind
    rcases hbrace.optional with ⟨token, hsign, rfl⟩ | ⟨rfl, rfl, hrefused⟩
    · obtain ⟨rfl, rfl⟩ := h.pure
      exact .close hsign.yields
    · obtain ⟨marks, c₂, hmarks, h⟩ := Comes.bind h
      obtain ⟨member, c₃, hmember, h⟩ := h.bind
      obtain ⟨colon, c₄, hcolon, h⟩ := h.bind
      obtain ⟨k, c₅, hk, h⟩ := h.bind
      obtain rfl := hk.yields.rounds
      obtain ⟨type, c₆, htype, h⟩ := h.bind
      obtain ⟨rest, c₇, hrest, h⟩ := h.bind
      obtain ⟨rfl, rfl⟩ := h.pure
      obtain ⟨c₈, htype, hend⟩ := run_memberTypeWithin htype
      exact .member hrefused (run_attributes hmarks) hmember.commit.yields hcolon.commit.yields
        htype hend (ih hrest)

theorem run_functionDecl (h : functionDecl.Comes n c (.accepted (kind, declared, events) c')) :
    Run.Declaration n kind declared c events c' := by
  obtain ⟨word, c₁, hword, h⟩ := Comes.bind h
  obtain ⟨name, c₂, hname, h⟩ := h.bind
  obtain ⟨paren, c₃, hparen, h⟩ := h.bind
  obtain ⟨params, c₄, hparams, h⟩ := h.bind
  obtain ⟨result, c₅, hresult, h⟩ := h.bind
  obtain ⟨body, c₆, hbody, h⟩ := h.bind
  obtain ⟨heq, rfl⟩ := h.pure
  obtain ⟨rfl, hpair⟩ := Prod.mk.inj heq
  obtain ⟨rfl, rfl⟩ := Prod.mk.inj hpair
  exact .function hword.yields hname.commit.yields hparen.commit.yields (run_bodyUntil hparams)
    (run_bodyUntil hresult) (run_bodyUntil hbody)

theorem run_structDecl (h : structDecl.Comes n c (.accepted (kind, declared, events) c')) :
    Run.Declaration n kind declared c events c' := by
  obtain ⟨word, c₁, hword, h⟩ := Comes.bind h
  obtain ⟨name, c₂, hname, h⟩ := h.bind
  obtain ⟨brace, c₃, hbrace, h⟩ := h.bind
  obtain ⟨k, c₄, hk, h⟩ := h.bind
  obtain rfl := hk.yields.rounds
  obtain ⟨inside, c₅, hinside, h⟩ := h.bind
  obtain ⟨heq, rfl⟩ := h.pure
  obtain ⟨rfl, hpair⟩ := Prod.mk.inj heq
  obtain ⟨rfl, rfl⟩ := Prod.mk.inj hpair
  exact .struct hword.yields hname.commit.yields hbrace.commit.yields (run_membersWithin hinside)

theorem run_valueDecl (h : valueDecl.Comes n c (.accepted (kind, declared, events) c')) :
    Run.Declaration n kind declared c events c' := by
  obtain ⟨kind', c₁, hkind, h⟩ := Comes.bind h
  obtain ⟨template, c₂, htemplate, h⟩ := h.bind
  obtain ⟨name, c₃, hname, h⟩ := h.bind
  obtain ⟨body, c₄, hbody, h⟩ := h.bind
  obtain ⟨heq, rfl⟩ := h.pure
  obtain ⟨rfl, hpair⟩ := Prod.mk.inj heq
  obtain ⟨rfl, rfl⟩ := Prod.mk.inj hpair
  obtain ⟨s, word, hvalue, hword⟩ : ∃ s word, (s, kind') ∈ Reading.valueWords ∧
      (sign s).Yields c word c₁ := by
    obtain ⟨p, hp, hkind⟩ := hkind.firstOf
    simp only [List.mem_cons, List.not_mem_nil, or_false] at hp
    rcases hp with rfl | rfl | rfl
    all_goals
      obtain ⟨word, hword, rfl⟩ := hkind.map
      exact ⟨_, word, by decide, hword.yields⟩
  have hname := hname.commit.yields
  rcases htemplate.optional with ⟨args, hargs, rfl⟩ | ⟨rfl, rfl, -⟩
  · obtain ⟨bracket, c₅, hbracket, hargs⟩ := hargs.seqRight
    exact .template hvalue hword hbracket.yields (run_bodyUntil hargs) hname (run_bodyUntil hbody)
  · exact .value hvalue hword hname (run_bodyUntil hbody)

theorem run_aliasDecl (h : aliasDecl.Comes n c (.accepted (kind, declared, events) c')) :
    Run.Declaration n kind declared c events c' := by
  obtain ⟨word, c₁, hword, h⟩ := Comes.bind h
  obtain ⟨name, c₂, hname, h⟩ := h.bind
  obtain ⟨equals, c₃, hequals, h⟩ := h.bind
  obtain ⟨body, c₄, hbody, h⟩ := h.bind
  obtain ⟨heq, rfl⟩ := h.pure
  obtain ⟨rfl, hpair⟩ := Prod.mk.inj heq
  obtain ⟨rfl, rfl⟩ := Prod.mk.inj hpair
  exact .typeAlias hword.yields hname.commit.yields hequals.commit.yields (run_bodyUntil hbody)

/-- Every declaration that is read has a run. -/
theorem run_unmarkedDecl (h : unmarkedDecl.Comes n c (.accepted (kind, declared, events) c')) :
    Run.Marked n kind declared c events c' := by
  obtain ⟨marks, c₁, hmarks, h⟩ := Comes.bind h
  obtain ⟨⟨kind', declared', rest⟩, c₂, hdecl, h⟩ := h.bind
  obtain ⟨heq, rfl⟩ := h.pure
  obtain ⟨rfl, hpair⟩ := Prod.mk.inj heq
  obtain ⟨rfl, rfl⟩ := Prod.mk.inj hpair
  refine .mk (run_attributes hmarks) ?_
  obtain ⟨p, hp, hdecl⟩ := hdecl.firstOf
  simp only [List.mem_cons, List.not_mem_nil, or_false] at hp
  rcases hp with rfl | rfl | rfl | rfl
  · exact run_functionDecl hdecl
  · exact run_structDecl hdecl
  · exact run_valueDecl hdecl
  · exact run_aliasDecl hdecl

end Comes

end Parser

/-- Where the brace stands that closes the struct, there are no more members. -/
theorem Run.Members.eq_nil_of_brace {n : Nat} {c c₁ c' : Cursor} {events : List Event} {t : Token}
    (h : Run.Members n c events c') (hc : c.rest.length < n)
    (ht : (Parser.token .shader).Yields c t c₁) (hsymbol : t.IsSymbol "\x7d") :
    events = [] ∧ ∃ brace, (Parser.sign "\x7d").Yields c brace c' := by
  cases h with
  | close hbrace => exact ⟨rfl, _, hbrace⟩
  | member hrefused =>
    obtain ⟨x, offset, hnext, rfl⟩ := ht.next
    have hx : x.Is "\x7d" := Lexeme.eq_symbol hsymbol.1 hsymbol.2 ▸ Lexeme.is_symbol _
    obtain ⟨offset', hmeets⟩ := Parser.Meets.sign hnext hc hx
    cases hmeets.eq_of_comes (.tokenIf _ _) hrefused (by simp)

end ShaderLink
