import ShaderLink.Token.Lexicon

/-!
# Parsers

A parser reads tokens from a cursor on and comes to one of three outcomes. It **accepts** with a
value and the cursor it has reached; it **refuses**, which lets another parser be tried at the place
where it started; or it **aborts**, which nothing recovers from. `Parser.commit` turns a refusal
into an abort, at the point in a construct from where on it can be nothing else.

Refusing undoes the reading but not the **effort**: every lexed token counts as a step, also one
that is lexed again, and the furthest place at which a token was found is where errors are reported.
A parse that takes more steps than it may aborts.

Loops are bounded by a number of rounds, which the size of the text suffices for because no round
leaves the cursor where it was.
-/

namespace ShaderLink

/-- What the parsers of one text may spend. -/
structure Limits where
  /-- The tokens that may be lexed. -/
  steps : Nat
  /-- The rounds of any one loop. -/
  rounds : Nat
deriving Repr

/-- The limits for a text: as many steps as allowed, and more rounds than there are bytes. -/
def Limits.of (steps : Nat) (t : Text) : Limits :=
  ⟨steps, t.size + 1⟩

/-- What a parse has spent. -/
structure Effort where
  /-- The tokens that were lexed. -/
  steps : Nat
  /-- The furthest start of a token that was not ignored. -/
  furthest : Nat
deriving DecidableEq, Repr

namespace Effort

/-- Nothing spent. -/
def none : Effort :=
  ⟨0, 0⟩

/-- One step more. -/
def step (e : Effort) : Effort :=
  { e with steps := e.steps + 1 }

/-- A token found at `offset`. -/
def reach (e : Effort) (offset : Nat) : Effort :=
  { e with furthest := max e.furthest offset }

end Effort

/-- What a parser comes to. -/
inductive Outcome (α : Type) where
  /-- It has read a value. -/
  | accepted (value : α) (next : Cursor)
  /-- Something else stands here. -/
  | refused
  /-- The text is wrong. -/
  | aborted (notes : List Note)

/-- A reader of values of type `α`. -/
def Parser (α : Type) : Type :=
  Limits → Cursor → Effort → Outcome α × Effort

namespace Parser

variable {α β : Type}

/-! ### Sequencing -/

instance : Monad Parser where
  pure a := fun _ c e ↦ (.accepted a c, e)
  bind p f := fun limits c e ↦
    match p limits c e with
    | (.accepted a c', e') => f a limits c' e'
    | (.refused, e') => (.refused, e')
    | (.aborted notes, e') => (.aborted notes, e')

/-- Nothing of the kind. -/
def refuse : Parser α :=
  fun _ _ e ↦ (.refused, e)

/-- An error that nothing recovers from. -/
def abort (label : Label) : Parser α :=
  fun _ _ e ↦ (.aborted [.invalid label], e)

/-- The offset of the cursor. -/
def offset : Parser Nat :=
  fun _ c e ↦ (.accepted c.offset c, e)

/-- The cursor, to come back to. -/
def here : Parser Cursor :=
  fun _ c e ↦ (.accepted c c, e)

/-- Comes back to a cursor. -/
def goBack (c : Cursor) : Parser Unit :=
  fun _ _ e ↦ (.accepted () c, e)

/-- The number of rounds that a loop may take. -/
def rounds : Parser Nat :=
  fun limits c e ↦ (.accepted limits.rounds c, e)

/-! ### Choice -/

/-- The second parser where the first refuses. -/
def orElse (p q : Parser α) : Parser α := fun limits c e ↦
  match p limits c e with
  | (.refused, e') => q limits c e'
  | other => other

/-- The first of several parsers that does not refuse. -/
def firstOf : List (Parser α) → Parser α
  | [] => refuse
  | p :: ps => p.orElse (firstOf ps)

/-- What the parser reads, or nothing where it refuses. -/
def optional (p : Parser α) : Parser (Option α) :=
  orElse (some <$> p) (pure none)

/-- Reads without moving the cursor. -/
def peek (p : Parser α) : Parser α := fun limits c e ↦
  match p limits c e with
  | (.accepted a _, e') => (.accepted a c, e')
  | other => other

/-- Accepts, without moving the cursor, exactly where the parser refuses. -/
def absent (p : Parser α) : Parser Unit := fun limits c e ↦
  match p limits c e with
  | (.accepted _ _, e') => (.refused, e')
  | (.refused, e') => (.accepted () c, e')
  | (.aborted notes, e') => (.aborted notes, e')

/-- From here on nothing else is possible: a refusal aborts, and every abort notes what was
expected. -/
def commit (p : Parser α) (what : String) : Parser α := fun limits c e ↦
  match p limits c e with
  | (.refused, e') => (.aborted [.expected what], e')
  | (.aborted notes, e') => (.aborted (notes ++ [.expected what]), e')
  | accepted => accepted

/-- A refusal aborts without a word. -/
def insist (p : Parser α) : Parser α := fun limits c e ↦
  match p limits c e with
  | (.refused, e') => (.aborted [], e')
  | other => other

/-! ### Repetition -/

/-- As many values as there are, in at most the given number of rounds. -/
def manyWithin (p : Parser α) : Nat → Parser (List α)
  | 0 => pure []
  | n + 1 => do
    match ← optional p with
    | none => return []
    | some a => return a :: (← manyWithin p n)

/-- As many values as there are. -/
def many (p : Parser α) : Parser (List α) := do
  manyWithin p (← rounds)

/-- At least one value, with separators between. A separator that no value follows is left. -/
def separated₁ (p : Parser α) (separator : Parser β) : Parser (List α) := do
  let first ← p
  return first :: (← many (separator *> p))

/-- Any number of values, with separators between. -/
def separated (p : Parser α) (separator : Parser β) : Parser (List α) := do
  return (← optional (separated₁ p separator)).getD []

/-! ### Tokens -/

/-- The next token of a lexicon, ignored or not. -/
def lex (l : Lexicon) : Parser Token := fun limits c e ↦
  if limits.steps < e.step.steps then
    (.aborted [.invalid .stepLimit], e.step)
  else
    match l.lex c with
    | .finished => (.refused, e.step)
    | .broken notes => (.aborted notes, e.step)
    | .token t next =>
      (.accepted t next, if l.ignores t.kind then e.step else e.step.reach c.offset)

/-- The next token that is not ignored, behind fewer than the given number of ignored ones. -/
def tokenWithin (l : Lexicon) : Nat → Parser Token
  | 0 => refuse
  | n + 1 => do
    let t ← lex l
    if l.ignores t.kind then tokenWithin l n else return t

/-- The next token that is not ignored. -/
def token (l : Lexicon) : Parser Token := do
  tokenWithin l (← rounds)

/-- The next token, if it satisfies a condition. -/
def tokenIf (l : Lexicon) (p : Token → Bool) : Parser Token := do
  let t ← token l
  if p t then return t else refuse

/-- The next token, if it is of the given kind. -/
def ofKind (l : Lexicon) (kind : TokenKind) : Parser Token :=
  tokenIf l fun t ↦ t.kind == kind

/-- The next token, if it is the given word, symbol or directive. -/
def exactly (l : Lexicon) (text : String) : Parser Token :=
  tokenIf l fun t ↦ t.text == text && [.word, .symbol, .directive].contains t.kind

/-- The end of the text. -/
def finished (l : Lexicon) : Parser Unit :=
  absent (token l)

/-- Reads ignored tokens up to the next one that is not. -/
def skipIgnored (l : Lexicon) : Parser Unit := do
  let _ ← many do
    let t ← lex l
    if l.ignores t.kind then return () else refuse

/-- What the parser reads, with the span from the first token to the last. -/
def spanned (l : Lexicon) (p : Parser α) : Parser (α × Span) := do
  skipIgnored l
  let start ← offset
  let a ← p
  return (a, Span.between start (← offset))

/-- Runs a parser on a whole text. -/
def run (p : Parser α) (steps : Nat) (t : Text) : Outcome α × Effort :=
  p (Limits.of steps t) (Cursor.start t) Effort.none

end Parser

end ShaderLink
