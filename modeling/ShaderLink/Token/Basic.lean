import ShaderLink.Text.Span

/-!
# Tokens

A token is a piece of a text with its kind and the span it covers.
-/

namespace ShaderLink

/-- What a token is. -/
inductive TokenKind where
  /-- A run of blanks. -/
  | space
  | comment
  /-- A line break, where lines matter. -/
  | lineBreak
  /-- A number sign with a word, like `#import`, `#export` and `#module`. -/
  | directive
  | word
  | number
  | symbol
  /-- A marker in front of an import path, which is `./` or `../`. -/
  | relativePrefix
  /-- A character that no rule recognises. -/
  | unknown
deriving DecidableEq, Repr

/-- A piece of a text that the grammar treats as one. -/
structure Token where
  kind : TokenKind
  text : String
  span : Span
deriving DecidableEq, Repr

/-- The reserved words, which name no declaration and refer to none. -/
def keywords : List String :=
  ["alias", "break", "case", "const", "const_assert", "continue", "continuing", "default",
    "diagnostic", "discard", "else", "enable", "false", "fn", "for", "if", "let", "loop",
    "override", "requires", "return", "struct", "switch", "true", "var", "while"]

/-- Whether a word is reserved. -/
def isKeyword (word : String) : Bool :=
  keywords.contains word

end ShaderLink
