/-!
# Texts and byte offsets

A text is a list of characters. Every position the library talks about is a **byte offset** into
the text's UTF-8 form, because that is what editors and graphics drivers count in. The two views
meet in `Text.size`, the number of bytes, and in `Text.splitAt?`, which cuts a text at an offset and
succeeds exactly where the offset lies between two characters.

Nothing here looks at what the characters mean.
-/

namespace ShaderLink

/-- A text, as the list of its characters. -/
abbrev Text := List Char

namespace Text

/-! ### The number of bytes -/

/-- The number of bytes of a text in UTF-8. -/
def size : Text → Nat
  | [] => 0
  | c :: t => c.utf8Size + size t

@[simp] theorem size_nil : size [] = 0 := rfl

@[simp] theorem size_cons (c : Char) (t : Text) : size (c :: t) = c.utf8Size + size t := rfl

@[simp] theorem size_append (s t : Text) : size (s ++ t) = size s + size t := by
  induction s with
  | nil => simp
  | cons c s ih => rw [List.cons_append, size_cons, size_cons, ih, Nat.add_assoc]

/-- Every character takes at least one byte, so only the empty text has none. -/
theorem size_eq_zero_iff {t : Text} : t.size = 0 ↔ t = [] := by
  cases t with
  | nil => simp
  | cons c t => simp [Nat.ne_of_gt c.utf8Size_pos]

/-! ### Cutting at an offset -/

/-- Cuts a text after `n` bytes. There is no cut inside a character or behind the end. -/
def splitAt? : Text → Nat → Option (Text × Text)
  | t, 0 => some ([], t)
  | [], _ + 1 => none
  | c :: t, n + 1 =>
    if c.utf8Size ≤ n + 1 then
      (splitAt? t (n + 1 - c.utf8Size)).map fun p ↦ (c :: p.1, p.2)
    else
      none

@[simp] theorem splitAt?_zero (t : Text) : splitAt? t 0 = some ([], t) := by
  cases t <;> rfl

/-- A cut loses nothing, and its first part has the requested size. -/
theorem eq_append_of_splitAt? {t : Text} {n : Nat} {p : Text × Text} (h : splitAt? t n = some p) :
    t = p.1 ++ p.2 ∧ p.1.size = n := by
  fun_induction splitAt? t n generalizing p with
  | case1 t =>
    obtain rfl : ([], t) = p := by simpa using h
    simp
  | case2 n => simp at h
  | case3 c t n hle ih =>
    obtain ⟨q, hq, rfl⟩ := Option.map_eq_some_iff.1 h
    obtain ⟨ht, hs⟩ := ih hq
    simp only [size_cons, hs, List.cons_append]
    exact ⟨congrArg _ ht, by omega⟩
  | case4 => simp at h

/-- The end of every prefix is a place to cut. -/
@[simp] theorem splitAt?_append (s t : Text) : splitAt? (s ++ t) s.size = some (s, t) := by
  induction s with
  | nil => simp
  | cons c s ih =>
    have hc := c.utf8Size_pos
    obtain ⟨n, hn⟩ : ∃ n, size (c :: s) = n + 1 := ⟨c.utf8Size + size s - 1, by simp; omega⟩
    have hle : c.utf8Size ≤ n + 1 := by rw [← hn]; simp
    have hsub : n + 1 - c.utf8Size = size s := by rw [← hn]; simp
    rw [hn, List.cons_append, splitAt?, if_pos hle, hsub, ih]
    rfl

/-- The characters that end at or before byte `n`: the longest prefix of at most `n` bytes. -/
def upTo : Text → Nat → Text
  | [], _ => []
  | c :: t, n => if c.utf8Size ≤ n then c :: upTo t (n - c.utf8Size) else []

/-! ### Lines -/

/-- The lines of a text, each with the line feed that ends it. Only the last may lack one. -/
def lines : Text → List Text
  | [] => []
  | c :: t =>
    if c = '\n' then
      [c] :: lines t
    else
      match lines t with
      | [] => [[c]]
      | l :: ls => (c :: l) :: ls

/-- Putting the lines together again gives the text. -/
@[simp] theorem flatten_lines (t : Text) : t.lines.flatten = t := by
  induction t with
  | nil => rfl
  | cons c t ih =>
    rw [lines]
    split
    · simp [ih]
    · split <;> simp_all

/-! ### Prefixes and pieces -/

/-- The rest of a text after a given beginning, if it begins that way. -/
def dropPrefix? (t : Text) (start : String) : Option Text :=
  if start.toList.isPrefixOf t then some (t.drop start.toList.length) else none

/-- The rest of a text before a given ending, if it ends that way. -/
def dropSuffix? (t : Text) (ending : String) : Option Text :=
  if ending.toList.isSuffixOf t then some (t.take (t.length - ending.toList.length)) else none

/-- The nonempty pieces between separators. -/
def pieces (isSeparator : Char → Bool) (t : Text) : List Text :=
  (t.splitOnP isSeparator).filter fun piece ↦ !piece.isEmpty

end Text

end ShaderLink
