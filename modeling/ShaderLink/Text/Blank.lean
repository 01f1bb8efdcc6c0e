import ShaderLink.Text.Basic

/-!
# Blanks and line breaks

Two classes of characters shape the layout of a text: the **blanks**, which have the Unicode
property `White_Space`, and the **line breaks**, the seven of them that end a line of shader code.
Positions count line feeds only; line breaks matter where a directive ends with its line.
-/

namespace ShaderLink

/-- Whether one of the ranges of code points holds the character. -/
def inRanges (ranges : List (Nat × Nat)) (c : Char) : Bool :=
  ranges.any fun r ↦ r.1 ≤ c.toNat && c.toNat ≤ r.2

/-- The code points with the property `White_Space`. -/
def blankRanges : List (Nat × Nat) :=
  [(0x09, 0x0D), (0x20, 0x20), (0x85, 0x85), (0xA0, 0xA0), (0x1680, 0x1680), (0x2000, 0x200A),
    (0x2028, 0x2029), (0x202F, 0x202F), (0x205F, 0x205F), (0x3000, 0x3000)]

/-- Whether a character is a blank. -/
def isBlank (c : Char) : Bool :=
  inRanges blankRanges c

/-- Whether a character breaks a line of shader code. -/
def isLineBreak (c : Char) : Bool :=
  inRanges [(0x0A, 0x0D), (0x85, 0x85), (0x2028, 0x2029)] c

/-- Every line break is a blank. -/
theorem isBlank_of_isLineBreak {c : Char} (h : isLineBreak c = true) : isBlank c = true := by
  simp only [isLineBreak, isBlank, inRanges, blankRanges, List.any_cons, List.any_nil,
    Bool.or_eq_true, Bool.and_eq_true, decide_eq_true_eq, Bool.or_false] at h ⊢
  omega

namespace Text

/-- A text without the blanks in front. -/
def trimStart (t : Text) : Text :=
  t.dropWhile isBlank

/-- A text without the blanks behind. -/
def trimEnd (t : Text) : Text :=
  (t.reverse.dropWhile isBlank).reverse

/-- A text without the blanks on either side. -/
def trim (t : Text) : Text :=
  trimEnd (trimStart t)

end Text

end ShaderLink
