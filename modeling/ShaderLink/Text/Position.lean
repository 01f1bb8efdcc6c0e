import ShaderLink.Text.Basic

/-!
# Lines and columns

Messages name a place by its line and column, both counted from one. A line ends with a line feed
and with nothing else, and a column counts characters, not bytes. An offset inside a character is
the place where that character starts, and an offset behind the text is the end of the text, so
every offset whatsoever has a position.
-/

namespace ShaderLink

/-- A place in a text as a reader counts it, from line one and column one. -/
structure Position where
  line : Nat
  column : Nat
deriving DecidableEq, Repr, Inhabited

/-- The position behind the last character of `before`. -/
def Position.after (before : Text) : Position where
  line := before.count '\n' + 1
  column := (before.reverse.takeWhile (· ≠ '\n')).length + 1

/-- The position of the byte offset `n`. -/
def Text.position (t : Text) (n : Nat) : Position :=
  Position.after (t.upTo n)

@[simp] theorem Position.after_nil : Position.after [] = ⟨1, 1⟩ := rfl

/-- A line feed starts the next line. -/
theorem Position.after_concat_lineFeed (before : Text) :
    Position.after (before ++ ['\n']) = ⟨(Position.after before).line + 1, 1⟩ := by
  simp [Position.after]

/-- Any other character moves one column on. -/
theorem Position.after_concat (before : Text) {c : Char} (hc : c ≠ '\n') :
    Position.after (before ++ [c]) =
      ⟨(Position.after before).line, (Position.after before).column + 1⟩ := by
  simp [Position.after, List.count_append, hc]

end ShaderLink
