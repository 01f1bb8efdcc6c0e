import ShaderLink.Text.Blank
import ShaderLink.Text.Identifier.Start
import ShaderLink.Text.Identifier.Rest

/-!
# Identifiers

An identifier starts with a character of the class `XID_Start`, or with an underscore that is not
alone, and goes on with characters of the class `XID_Continue`. ASCII is decided without looking at
the tables.
-/

namespace ShaderLink

/-- Whether a character has the property `XID_Start`. -/
def isIdentifierStart (c : Char) : Bool :=
  c.isAlpha || (0x80 ≤ c.toNat && inRanges identifierStartRanges c)

/-- Whether a character has the property `XID_Continue`. -/
def isIdentifierRest (c : Char) : Bool :=
  c.isAlphanum || c == '_' ||
    (0x80 ≤ c.toNat && (inRanges identifierStartRanges c || inRanges identifierRestRanges c))

/-- What starts an identifier also continues one. -/
theorem isIdentifierRest_of_isIdentifierStart {c : Char} (h : isIdentifierStart c = true) :
    isIdentifierRest c = true := by
  simp only [isIdentifierStart, isIdentifierRest, Char.isAlphanum, Bool.or_eq_true,
    Bool.and_eq_true] at h ⊢
  rcases h with h | ⟨h, h'⟩
  · exact .inl (.inl (.inl h))
  · exact .inr ⟨h, .inl h'⟩

end ShaderLink
