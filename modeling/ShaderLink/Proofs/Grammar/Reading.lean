import ShaderLink.Module.Item
import ShaderLink.Proofs.Grammar.Code

/-!
# What declarations are read as

What the tokens of a declaration mean, as a relation that does not mention the text
(`Reading.Body` and, for whole declarations, `Reading.Marked`): which events they leave, and what
each of their words is there for (`Reading.Role`). There is one rule for each kind of step that a
body can go on with, so that a fact about all bodies is proved by induction, with one case for each
rule.

A rule says what has to stand behind its tokens where the step depends on it, for instance that a
path goes on as far as it can and takes dotted words exactly if a parenthesis is behind them. So no
tokens can be read in two ways.
-/

namespace ShaderLink

namespace Token

/-- The token is the given symbol. -/
def IsSymbol (t : Token) (s : String) : Prop :=
  t.kind = .symbol ∧ t.text = s

/-- The token is the given reserved word. -/
def IsReserved (t : Token) (s : String) : Prop :=
  t.kind = .word ∧ t.text = s

/-- The token is a word that is not reserved. -/
def IsName (t : Token) : Prop :=
  t.kind = .word ∧ isKeyword t.text = false

instance (t : Token) (s : String) : Decidable (t.IsSymbol s) :=
  inferInstanceAs (Decidable (_ ∧ _))

/-- The stretch from the first word of a path to the last. -/
def pathSpan (first : Token) (words : List Token) : Span :=
  Span.between first.span.start ((first :: words).getLastD first).span.stop

/-- The event that a path leaves. -/
def reference (first : Token) (words : List Token) (kind : ReferenceKind) : Event :=
  .reference ((first :: words).map Token.text) (first.pathSpan words) kind

variable {t : Token} {s s' : String}

theorem IsSymbol.not_word (h : t.IsSymbol s) : t.kind ≠ .word := by
  rw [h.1]
  decide

theorem IsSymbol.not_isName (h : t.IsSymbol s) : ¬t.IsName :=
  fun hname ↦ h.not_word hname.1

theorem IsSymbol.unique (h : t.IsSymbol s) (h' : t.IsSymbol s') : s = s' :=
  h.2.symm.trans h'.2

theorem IsSymbol.not_isSymbol (h : t.IsSymbol s) (hne : s ≠ s') : ¬t.IsSymbol s' :=
  fun h' ↦ hne (h.unique h')

end Token

namespace Reading

open ShaderLink.Parser

/-! ### Words -/

/-- What a word is there for. -/
inductive Role where
  /-- It is a part of a path, which uses a name. -/
  | use
  /-- It is reserved. -/
  | reserved
  /-- It is the name of the declaration. -/
  | own
  /-- It is the name of a parameter, or what a `let`, `var` or `const` in a body declares. -/
  | declared
  /-- It is the name of a struct member. -/
  | field
  /-- It stands behind a dot, for a member of the value in front. -/
  | access
  /-- It is the name of an attribute. -/
  | mark
  /-- It is in the arguments of an attribute that takes no expressions. -/
  | enumerant
  /-- It is in the angle brackets behind a `var`, `const`, `override` or `let`. -/
  | template
deriving DecidableEq, Repr

/-- The words among tokens, all there for the same. -/
def wordsAs (role : Role) (ts : List Token) : List (Token × Role) :=
  (ts.filter fun t ↦ t.kind = .word).map fun t ↦ (t, role)

/-! ### Paths -/

/-- Words, each of them behind a separator. -/
inductive Words (separator : String) : List Token → List Token → Prop
  | nil : Words separator [] []
  | cons {mark x : Token} {ts words : List Token} (hmark : mark.IsSymbol separator)
    (hx : x.kind = .word) (h : Words separator ts words) :
    Words separator (mark :: x :: ts) (x :: words)

/-- A word behind a separator is next. -/
def GoesOn (separator : String) (ts : List Token) : Prop :=
  ∃ mark x us, ts = mark :: x :: us ∧ mark.IsSymbol separator ∧ x.kind = .word

/-- Behind words that stand behind dots, perhaps none, there is a parenthesis. -/
def Calls (ts : List Token) : Prop :=
  ∃ us words paren vs, ts = us ++ paren :: vs ∧ Words "." us words ∧ paren.IsSymbol "("

/-- The words of a path behind the first one, and what stands behind the path. Where it is called, a
path goes on with dots, and nowhere else. -/
inductive Path : Bool → List Token → List Token → List Token → Prop
  | plain {ts words vs : List Token} (hcolons : Words "::" ts words) (hend : ¬GoesOn "::" vs)
    (hcalls : ¬Calls vs) : Path false ts words vs
  | called {ts us words words' vs : List Token} (hcolons : Words "::" ts words)
    (hdots : Words "." us words') (hparen : ∃ x ∈ vs.head?, x.IsSymbol "(") :
    Path true (ts ++ us) (words ++ words') vs

/-! ### Bodies -/

/-- The brackets whose inside is read in the scope around them. -/
def groups : List (String × String) :=
  [("(", ")"), ("[", "]")]

/-- What a body leaves that goes up to a closing symbol, which is its last token, and what its words
are there for. As when it is read, the body stands behind some token and has some declarations
pending. -/
inductive Body : String → BodyMode → String → List Event → List Token → List (Token × Role) →
    List Event → Prop
  | close {closer previous : String} {mode : BodyMode} {pending : List Event} {t : Token}
    (ht : t.IsSymbol closer) : Body closer mode previous pending [t] [] pending
  /-- At the end of a statement its declarations take effect. -/
  | statement {closer previous : String} {mode : BodyMode} {pending events : List Event} {t : Token}
    {us : List Token} {roles : List (Token × Role)} (ht : t.IsSymbol ";") (hne : t.text ≠ closer)
    (h : Body closer mode t.text [] us roles events) :
    Body closer mode previous pending (t :: us) roles (pending ++ events)
  | block {closer previous : String} {mode : BodyMode} {pending inside events : List Event}
    {t : Token} {us vs : List Token} {found roles : List (Token × Role)} (ht : t.IsSymbol "\x7b")
    (hne : t.text ≠ closer) (hinside : Body "\x7d" .code "" [] us found inside)
    (h : Body closer mode t.text pending vs roles events) :
    Body closer mode previous pending (t :: (us ++ vs)) (found ++ roles)
      (.openBlock :: (inside ++ .closeBlock :: events))
  | group {closer previous last : String} {mode : BodyMode} {pending inside events : List Event}
    {t : Token} {us vs : List Token} {found roles : List (Token × Role)} (ht : t.kind = .symbol)
    (hlast : (t.text, last) ∈ groups) (hne : t.text ≠ closer)
    (hinside : Body last .code "" [] us found inside)
    (h : Body closer mode t.text pending vs roles events) :
    Body closer mode previous pending (t :: (us ++ vs)) (found ++ roles) (inside ++ events)
  /-- An attribute has no arguments unless a parenthesis is next. -/
  | attribute {closer previous : String} {mode : BodyMode} {pending events : List Event}
    {t which : Token} {vs : List Token} {roles : List (Token × Role)} (ht : t.IsSymbol "@")
    (hne : t.text ≠ closer) (hwhich : which.kind = .word)
    (hhead : ∀ x ∈ vs.head?, ¬x.IsSymbol "(")
    (h : Body closer mode t.text pending vs roles events) :
    Body closer mode previous pending (t :: which :: vs) ((which, .mark) :: roles) events
  /-- Only arguments that are expressions leave anything. -/
  | arguments {closer previous : String} {mode : BodyMode} {pending inside events : List Event}
    {t which paren : Token} {us vs : List Token} {found roles : List (Token × Role)}
    (ht : t.IsSymbol "@") (hne : t.text ≠ closer) (hwhich : which.kind = .word)
    (hparen : paren.IsSymbol "(") (hinside : Body ")" .code "" [] us found inside)
    (h : Body closer mode t.text pending vs roles events) :
    Body closer mode previous pending (t :: which :: paren :: (us ++ vs))
      ((which, .mark) :: ((if expressionAttributes.contains which.text then found else
        wordsAs .enumerant us) ++ roles))
      ((if expressionAttributes.contains which.text then inside else []) ++ events)
  | member {closer previous : String} {mode : BodyMode} {pending events : List Event} {t x : Token}
    {vs : List Token} {roles : List (Token × Role)} (ht : t.IsSymbol ".") (hne : t.text ≠ closer)
    (hx : x.kind = .word) (h : Body closer mode t.text pending vs roles events) :
    Body closer mode previous pending (t :: x :: vs) ((x, .access) :: roles) events
  | dot {closer previous : String} {mode : BodyMode} {pending events : List Event} {t : Token}
    {vs : List Token} {roles : List (Token × Role)} (ht : t.IsSymbol ".") (hne : t.text ≠ closer)
    (hhead : ∀ x ∈ vs.head?, x.kind ≠ .word)
    (h : Body closer mode t.text pending vs roles events) :
    Body closer mode previous pending (t :: vs) roles events
  | loop {closer previous : String} {mode : BodyMode} {pending header inside events : List Event}
    {t paren brace : Token} {us vs ws : List Token} {front found roles : List (Token × Role)}
    (ht : t.IsReserved "for") (hparen : paren.IsSymbol "(")
    (hheader : Body ")" .code "" [] us front header) (hbrace : brace.IsSymbol "\x7b")
    (hinside : Body "\x7d" .code "" [] vs found inside)
    (h : Body closer mode t.text pending ws roles events) :
    Body closer mode previous pending (t :: paren :: (us ++ brace :: (vs ++ ws)))
      ((t, .reserved) :: (front ++ (found ++ roles)))
      (.openBlock :: (header ++ (inside ++ .closeBlock :: events)))
  | declare {closer previous : String} {mode : BodyMode} {pending events : List Event}
    {t x : Token} {vs : List Token} {roles : List (Token × Role)} (ht : t.kind = .word)
    (hdeclares : t.text ∈ declaring) (hx : x.IsName)
    (h : Body closer mode t.text (pending ++ [.declare x.text x.span]) vs roles events) :
    Body closer mode previous pending (t :: x :: vs) ((t, .reserved) :: (x, .declared) :: roles)
      events
  /-- What stands between the angle brackets of a declaration leaves nothing. -/
  | template {closer previous : String} {mode : BodyMode} {pending inside events : List Event}
    {t bracket x : Token} {us vs : List Token} {found roles : List (Token × Role)}
    (ht : t.kind = .word) (hdeclares : t.text ∈ declaring) (hbracket : bracket.IsSymbol "<")
    (hinside : Body ">" .code "" [] us found inside) (hx : x.IsName)
    (h : Body closer mode t.text (pending ++ [.declare x.text x.span]) vs roles events) :
    Body closer mode previous pending (t :: bracket :: (us ++ x :: vs))
      ((t, .reserved) :: (wordsAs .template us ++ (x, .declared) :: roles)) events
  | keyword {closer previous : String} {mode : BodyMode} {pending events : List Event} {t : Token}
    {vs : List Token} {roles : List (Token × Role)} (ht : t.kind = .word)
    (hkeyword : isKeyword t.text = true) (hfor : t.text ≠ "for") (hdeclares : t.text ∉ declaring)
    (h : Body closer mode t.text pending vs roles events) :
    Body closer mode previous pending (t :: vs) ((t, .reserved) :: roles) events
  | parameter {closer previous : String} {pending events : List Event} {t : Token}
    {vs : List Token} {roles : List (Token × Role)} (ht : t.IsName)
    (hcolon : ∃ x ∈ vs.head?, x.IsSymbol ":")
    (h : Body closer .params t.text pending vs roles events) :
    Body closer .params previous pending (t :: vs) ((t, .declared) :: roles)
      (.declare t.text t.span :: events)
  /-- In front of a colon a name among parameters is no use. -/
  | reference {closer previous : String} {mode : BodyMode} {called : Bool}
    {pending events : List Event} {t : Token} {us vs words : List Token}
    {roles : List (Token × Role)} (ht : t.IsName)
    (hcolon : mode = .params → ∀ x ∈ (us ++ vs).head?, ¬x.IsSymbol ":")
    (hpath : Path called us words vs) (h : Body closer mode t.text pending vs roles events) :
    Body closer mode previous pending (t :: (us ++ vs)) (wordsAs .use (t :: us) ++ roles)
      (t.reference words (if called then .call else referenceKind previous) :: events)
  | other {closer previous : String} {mode : BodyMode} {pending events : List Event} {t : Token}
    {vs : List Token} {roles : List (Token × Role)} (hword : t.kind ≠ .word)
    (hsymbol : t.kind = .symbol → t.text ∉ closer :: ";" :: structural)
    (h : Body closer mode t.text pending vs roles events) :
    Body closer mode previous pending (t :: vs) roles events

theorem Body.ne_nil {closer previous : String} {mode : BodyMode} {pending events : List Event}
    {ts : List Token} {roles : List (Token × Role)}
    (h : Body closer mode previous pending ts roles events) : ts ≠ [] := by
  cases h <;> exact List.cons_ne_nil _ _

/-! ### Attributes -/

/-- The arguments of an attribute, if it has any. -/
inductive Arguments (which : String) : List Token → List (Token × Role) → List Event → Prop
  | none : Arguments which [] [] []
  | some {paren : Token} {us : List Token} {found : List (Token × Role)} {inside : List Event}
    (hparen : paren.IsSymbol "(") (hinside : Body ")" .code "" [] us found inside) :
    Arguments which (paren :: us)
      (if expressionAttributes.contains which then found else wordsAs .enumerant us)
      (if expressionAttributes.contains which then inside else [])

/-- Attributes one behind the other. -/
inductive Attributes : List Token → List (Token × Role) → List Event → Prop
  | nil : Attributes [] [] []
  | cons {t which : Token} {us vs : List Token} {found roles : List (Token × Role)}
    {inside events : List Event} (ht : t.IsSymbol "@") (hwhich : which.kind = .word)
    (hargs : Arguments which.text us found inside) (h : Attributes vs roles events) :
    Attributes (t :: which :: (us ++ vs)) ((which, .mark) :: (found ++ roles)) (inside ++ events)

/-! ### Structs -/

/-- How many angle brackets are open behind a token, with some open in front. -/
def nested (depth : Nat) (t : Token) : Nat :=
  if t.IsSymbol "<" then depth + 1 else if t.IsSymbol ">" then depth - 1 else depth

/-- An angle bracket that opens is one more to be closed. -/
theorem nested_open {t : Token} (ht : t.IsSymbol "<") (depth : Nat) :
    nested depth t = depth + 1 :=
  if_pos ht

/-- One that closes none is not counted. -/
theorem nested_close {t : Token} (ht : t.IsSymbol ">") (depth : Nat) :
    nested depth t = depth - 1 := by
  rw [nested, if_neg (ht.not_isSymbol (by decide)), if_pos ht]

theorem nested_other {t : Token} (hopen : ¬t.IsSymbol "<") (hclose : ¬t.IsSymbol ">")
    (depth : Nat) : nested depth t = depth := by
  rw [nested, if_neg hopen, if_neg hclose]

/-- The token ends the type of a member, outside of angle brackets. -/
def EndsType (t : Token) : Prop :=
  t.IsSymbol "," ∨ t.IsSymbol "\x7d"

theorem EndsType.not_isSymbol {t : Token} {s : String} (h : EndsType t)
    (hs : s ≠ "," ∧ s ≠ "\x7d") : ¬t.IsSymbol s := by
  rcases h with hcomma | hbrace
  · exact hcomma.not_isSymbol hs.1.symm
  · exact hbrace.not_isSymbol hs.2.symm

/-- The type of a member, with some angle brackets open in front. -/
inductive MemberType : Nat → List Token → List (Token × Role) → List Event → Prop
  | nil : MemberType 0 [] [] []
  | group {depth : Nat} {t : Token} {us vs : List Token} {found roles : List (Token × Role)}
    {inside events : List Event} (ht : t.IsSymbol "(")
    (hinside : Body ")" .code "" [] us found inside) (h : MemberType depth vs roles events) :
    MemberType depth (t :: (us ++ vs)) (found ++ roles) (inside ++ events)
  | reference {depth : Nat} {called : Bool} {t : Token} {us vs words : List Token}
    {roles : List (Token × Role)} {events : List Event} (ht : t.IsName)
    (hpath : Path called us words vs) (h : MemberType depth vs roles events) :
    MemberType depth (t :: (us ++ vs)) (wordsAs .use (t :: us) ++ roles)
      (t.reference words .type :: events)
  /-- What else there is leaves nothing, words that are reserved among it. -/
  | other {depth : Nat} {t : Token} {vs : List Token} {roles : List (Token × Role)}
    {events : List Event} (hparen : ¬t.IsSymbol "(") (hname : ¬t.IsName)
    (hinside : depth = 0 → ¬EndsType t) (h : MemberType (nested depth t) vs roles events) :
    MemberType depth (t :: vs) (wordsAs .reserved [t] ++ roles) events

/-- A member up to the colon behind its name. -/
inductive MemberName : List Token → List (Token × Role) → List Event → Prop
  | mk {ms : List Token} {found : List (Token × Role)} {marks : List Event} {x colon : Token}
    (hmarks : Attributes ms found marks) (hx : x.kind = .word) (hcolon : colon.IsSymbol ":") :
    MemberName (ms ++ [x, colon]) (found ++ [(x, .field)]) (marks ++ [.member x.text x.span])

/-- The members of a struct and the brace that closes it. -/
inductive Members : List Token → List (Token × Role) → List Event → Prop
  | close {t : Token} (ht : t.IsSymbol "\x7d") : Members [t] [] []
  | member {us vs ws : List Token} {comma : Token} {named typed roles : List (Token × Role)}
    {front type events : List Event} (hfront : MemberName us named front)
    (htype : MemberType 0 vs typed type) (hcomma : comma.IsSymbol ",")
    (h : Members ws roles events) :
    Members (us ++ (vs ++ comma :: ws)) (named ++ (typed ++ roles)) (front ++ (type ++ events))
  | last {us vs : List Token} {t : Token} {named typed : List (Token × Role)}
    {front type : List Event} (hfront : MemberName us named front)
    (htype : MemberType 0 vs typed type) (ht : t.IsSymbol "\x7d") :
    Members (us ++ (vs ++ [t])) (named ++ typed) (front ++ type)

/-! ### Declarations -/

/-- The words that variables, constants and overrides start with. -/
def valueWords : List (String × DeclKind) :=
  [("var", .var), ("const", .const), ("override", .override)]

theorem forall_mem_valueWords : ∀ p ∈ valueWords,
    Text.StartsWord p.1.toList ∧ p.1 ∈ ["var", "const", "override"] := by
  decide

/-- A declaration of a kind and with a name, without its attributes. -/
inductive Declaration :
    DeclKind → Token → List Token → List (Token × Role) → List Event → Prop
  | function {word name paren : Token} {us vs ws : List Token}
    {front found roles : List (Token × Role)} {params result events : List Event}
    (hword : word.IsReserved "fn") (hname : name.IsName) (hparen : paren.IsSymbol "(")
    (hparams : Body ")" .params "" [] us front params)
    (hresult : Body "\x7b" .code "" [] vs found result)
    (h : Body "\x7d" .code "" [] ws roles events) :
    Declaration .fn name (word :: name :: paren :: (us ++ (vs ++ ws)))
      ((word, .reserved) :: (name, .own) :: (front ++ (found ++ roles)))
      (params ++ (result ++ events))
  | struct {word name brace : Token} {us : List Token} {roles : List (Token × Role)}
    {events : List Event} (hword : word.IsReserved "struct") (hname : name.IsName)
    (hbrace : brace.IsSymbol "\x7b") (h : Members us roles events) :
    Declaration .struct name (word :: name :: brace :: us)
      ((word, .reserved) :: (name, .own) :: roles) events
  | value {kind : DeclKind} {word name : Token} {us : List Token} {roles : List (Token × Role)}
    {events : List Event} (hword : word.kind = .word) (hkind : (word.text, kind) ∈ valueWords)
    (hname : name.IsName) (h : Body ";" .code "" [] us roles events) :
    Declaration kind name (word :: name :: us) ((word, .reserved) :: (name, .own) :: roles) events
  | template {kind : DeclKind} {word bracket name : Token} {us vs : List Token}
    {found roles : List (Token × Role)} {inside events : List Event} (hword : word.kind = .word)
    (hkind : (word.text, kind) ∈ valueWords) (hbracket : bracket.IsSymbol "<")
    (hinside : Body ">" .code "" [] us found inside) (hname : name.IsName)
    (h : Body ";" .code "" [] vs roles events) :
    Declaration kind name (word :: bracket :: (us ++ name :: vs))
      ((word, .reserved) :: (wordsAs .template us ++ (name, .own) :: roles)) events
  | typeAlias {word name equals : Token} {us : List Token} {roles : List (Token × Role)}
    {events : List Event} (hword : word.IsReserved "alias") (hname : name.IsName)
    (hequals : equals.IsSymbol "=") (h : Body ";" .code "" [] us roles events) :
    Declaration .typeAlias name (word :: name :: equals :: us)
      ((word, .reserved) :: (name, .own) :: roles) events

/-- A declaration with its attributes. -/
inductive Marked (kind : DeclKind) (name : Token) :
    List Token → List (Token × Role) → List Event → Prop
  | mk {ms ts : List Token} {found roles : List (Token × Role)} {marks events : List Event}
    (hmarks : Attributes ms found marks) (h : Declaration kind name ts roles events) :
    Marked kind name (ms ++ ts) (found ++ roles) (marks ++ events)

end Reading

end ShaderLink
