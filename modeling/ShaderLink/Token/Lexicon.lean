import ShaderLink.Token.Basic
import ShaderLink.Token.Scan

/-!
# Lexicons

A lexicon is an ordered list of lexical rules, of which the first that matches decides what a token
is, together with the kinds of token that are skipped unless somebody asks for them. There are two:
one for shader code and one for the rest of a directive's line, where line breaks count, `a/*` is a
wildcard and so block comments are not recognised, and `./` stands for a place.

Every nonempty text starts with a token of either lexicon, because a character that no rule
recognises is a token of its own. Only a broken lexeme stops the reading.
-/

namespace ShaderLink

/-- The sets of lexical rules. -/
inductive Lexicon where
  /-- Shader code. -/
  | shader
  /-- The arguments of a directive, up to the end of its line. -/
  | directive
deriving DecidableEq, Repr

namespace Lexicon

/-- The characters that are symbols in shader code. -/
def shaderSymbols : List Char :=
  ['(', ')', '[', ']', '{', '}', ':', ';', ',', '.', '@', '<', '>', '=', '+', '-', '*', '/', '%',
    '&', '|', '^', '!', '~', '?', '_']

/-- The characters that are symbols in a directive. -/
def directiveSymbols : List Char :=
  ['/', '.', '(', ')', ',', '{', '}', '*', ';']

/-- The first of some fixed lexemes, else a single one of some characters. -/
def symbol (lexemes : List String) (symbols : List Char) (t : Text) : Scan :=
  lexemes.foldr (fun lexeme scan ↦ (Scan.literal lexeme t).orElse scan)
    (Scan.one (fun c ↦ c ∈ symbols) t)

/-- A number sign and the identifier behind it. -/
def directiveWord : Text → Scan
  | '#' :: t =>
    match Scan.identifier t with
    | .matched lexeme rest => .matched ('#' :: lexeme) rest
    | other => other
  | _ => .missed

/-- The rules of a lexicon, in the order in which they are tried. -/
def rules : Lexicon → List (TokenKind × (Text → Scan))
  | shader =>
    [(.space, Scan.run isBlank),
      (.comment, fun t ↦ (Scan.lineComment t).orElse (Scan.blockComment t)),
      (.directive, directiveWord),
      (.number, Scan.number),
      (.word, Scan.identifier),
      (.symbol, symbol ["::", "->"] shaderSymbols)]
  | directive =>
    [(.space, Scan.run fun c ↦ isBlank c && !isLineBreak c),
      (.comment, Scan.lineComment),
      (.lineBreak, Scan.newLine),
      (.relativePrefix, fun t ↦ (Scan.literal "../" t).orElse (Scan.literal "./" t)),
      (.number, Scan.number),
      (.word, Scan.identifier),
      (.symbol, symbol ["::"] directiveSymbols)]

/-- Whether tokens of a kind are skipped. -/
def ignores (_ : Lexicon) (kind : TokenKind) : Bool :=
  kind == .space || kind == .comment

end Lexicon

/-- How far a text has been read. -/
structure Cursor where
  /-- What is left to read. -/
  rest : Text
  /-- The bytes that have been read. -/
  offset : Nat
deriving DecidableEq, Repr

namespace Cursor

/-- The start of a text. -/
def start (t : Text) : Cursor :=
  ⟨t, 0⟩

/-- The cursor behind a lexeme, with the token that the lexeme is. -/
def read (c : Cursor) (kind : TokenKind) (lexeme rest : Text) : Token × Cursor :=
  (⟨kind, String.ofList lexeme, ⟨c.offset, lexeme.size⟩⟩, ⟨rest, c.offset + lexeme.size⟩)

end Cursor

/-- What stands at a cursor. -/
inductive Lexed where
  /-- The end of the text. -/
  | finished
  /-- A token, ignored or not, and the cursor behind it. -/
  | token (token : Token) (next : Cursor)
  /-- A lexeme that cannot be finished. -/
  | broken (notes : List Note)
deriving DecidableEq, Repr

/-- The token that the first matching rule finds, or else the next character by itself. -/
def Cursor.lexWith (c : Cursor) : List (TokenKind × (Text → Scan)) → Lexed
  | [] =>
    match c.rest with
    | [] => .finished
    | char :: rest => let (token, next) := c.read .unknown [char] rest; .token token next
  | (kind, rule) :: rules =>
    match rule c.rest with
    | .matched lexeme rest => let (token, next) := c.read kind lexeme rest; .token token next
    | .missed => c.lexWith rules
    | .broken notes => .broken notes

/-- The token at a cursor in a lexicon. -/
def Lexicon.lex (l : Lexicon) (c : Cursor) : Lexed :=
  c.lexWith l.rules

end ShaderLink
