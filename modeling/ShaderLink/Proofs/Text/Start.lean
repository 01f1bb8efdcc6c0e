import ShaderLink.Text.Identifier

/-!
# How texts start

All that the lexical rules look at behind a lexeme is whether an identifier starts there, and if
none does, which character is the first one. Texts that agree on this have the **same start**
(`Text.SameStart`). They then agree on every class of characters that no identifier starts with,
like the blanks and the digits.
-/

namespace ShaderLink

/-! ### Characters that start identifiers -/

/-- A character in one of the ranges is in none that is apart from all of them. -/
theorem inRanges_eq_false_of_apart {xs ys : List (Nat × Nat)}
    (h : ∀ x ∈ xs, ∀ y ∈ ys, x.2 < y.1 ∨ y.2 < x.1) {c : Char} (hc : inRanges xs c = true) :
    inRanges ys c = false := by
  obtain ⟨x, hx, hin⟩ := List.any_eq_true.1 hc
  refine List.any_eq_false.2 fun y hy ↦ ?_
  have hapart := h x hx y hy
  simp only [Bool.and_eq_true, decide_eq_true_eq] at hin ⊢
  omega

/-- The ASCII characters that start identifiers are the letters. -/
theorem isIdentifierStart_cases {c : Char} (h : isIdentifierStart c = true) :
    ((65 ≤ c.toNat ∧ c.toNat ≤ 90) ∨ (97 ≤ c.toNat ∧ c.toNat ≤ 122)) ∨
      (128 ≤ c.toNat ∧ inRanges identifierStartRanges c = true) := by
  rw [isIdentifierStart, Bool.or_eq_true, Bool.and_eq_true, decide_eq_true_eq] at h
  refine h.imp_left fun hletter ↦ ((Bool.or_eq_true _ _).mp hletter).imp of_decide_eq_true ?_
  exact fun hlower ↦ ((Bool.and_eq_true _ _).mp hlower).imp of_decide_eq_true of_decide_eq_true

/-- No blank starts an identifier. -/
theorem isBlank_eq_false {c : Char} (h : isIdentifierStart c = true) : isBlank c = false := by
  rcases isIdentifierStart_cases h with hletter | ⟨-, hrange⟩
  · simp only [isBlank, inRanges, blankRanges, List.any_cons, List.any_nil,
      Bool.or_eq_false_iff, Bool.and_eq_false_iff, decide_eq_false_iff_not, and_true]
    omega
  · exact inRanges_eq_false_of_apart (by decide +kernel) hrange

/-- Nor does a digit. -/
theorem isDigit_eq_false {c : Char} (h : isIdentifierStart c = true) : c.isDigit = false := by
  have hcases := isIdentifierStart_cases h
  simp only [Char.isDigit, Bool.and_eq_false_iff, decide_eq_false_iff_not, ge_iff_le,
    UInt32.le_iff_toNat_le]
  show ¬48 ≤ c.toNat ∨ ¬c.toNat ≤ 57
  omega

namespace Text

/-- An identifier stands at the start of the text. -/
def StartsWord : Text → Prop
  | [] => False
  | c :: t => isIdentifierStart c = true ∨ c = '_' ∧ t.head?.any isIdentifierRest = true

instance : DecidablePred StartsWord
  | [] => .isFalse id
  | c :: t => inferInstanceAs
      (Decidable (isIdentifierStart c = true ∨ c = '_' ∧ t.head?.any isIdentifierRest = true))

/-- Both texts start with an identifier, or neither does and their first characters are the same. -/
def SameStart (r r' : Text) : Prop :=
  (r.StartsWord ∧ r'.StartsWord) ∨ (¬r.StartsWord ∧ ¬r'.StartsWord ∧ r.head? = r'.head?)

/-- The text is a single identifier. -/
def IsIdentifier (t : Text) : Prop :=
  t.StartsWord ∧ ∀ c ∈ t, isIdentifierRest c = true

instance : DecidablePred IsIdentifier :=
  fun t ↦ decidable_of_iff (t.StartsWord ∧ t.all isIdentifierRest = true)
    (and_congr_right fun _ ↦ List.all_eq_true)

variable {s r r' : Text}

/-- A text that starts with a word does so whatever follows. -/
theorem StartsWord.append (h : s.StartsWord) (r : Text) : (s ++ r).StartsWord := by
  cases s with
  | nil => exact h.elim
  | cons c s =>
    rcases h with h | ⟨hc, hs⟩
    · exact .inl h
    · cases s with
      | nil => cases hs
      | cons d s => exact .inr ⟨hc, hs⟩

theorem SameStart.refl (r : Text) : SameStart r r := by
  by_cases h : r.StartsWord
  · exact .inl ⟨h, h⟩
  · exact .inr ⟨h, h, rfl⟩

/-- Texts that start alike and not with a word start with the same character. -/
theorem SameStart.head?_eq (h : SameStart r r') (hr : ¬r.StartsWord) : r.head? = r'.head? :=
  h.elim (fun hboth ↦ absurd hboth.1 hr) fun hneither ↦ hneither.2.2

/-- Both start with a word or none does. -/
theorem SameStart.startsWord_iff (h : SameStart r r') : r.StartsWord ↔ r'.StartsWord := by
  rcases h with ⟨hr, hr'⟩ | ⟨hr, hr', -⟩
  · exact iff_of_true hr hr'
  · exact iff_of_false hr hr'

theorem StartsWord.head?_any_eq_false {p : Char → Bool}
    (hstart : ∀ c, isIdentifierStart c = true → p c = false) (hunderscore : p '_' = false)
    (h : r.StartsWord) : r.head?.any p = false := by
  cases r with
  | nil => rfl
  | cons c t =>
    rcases h with h | ⟨rfl, -⟩
    · exact hstart c h
    · exact hunderscore

/-- Texts of the same start agree on all classes of characters that no identifier starts with. -/
theorem SameStart.any_head? (h : SameStart r r') {p : Char → Bool}
    (hstart : ∀ c, isIdentifierStart c = true → p c = false) (hunderscore : p '_' = false) :
    r.head?.any p = r'.head?.any p := by
  rcases h with ⟨hr, hr'⟩ | ⟨-, -, hhead⟩
  · rw [hr.head?_any_eq_false hstart hunderscore, hr'.head?_any_eq_false hstart hunderscore]
  · rw [hhead]

/-- What starts an identifier goes on with it. -/
theorem StartsWord.any_isIdentifierRest (h : r.StartsWord) :
    r.head?.any isIdentifierRest = true := by
  cases r with
  | nil => exact h.elim
  | cons c t =>
    rcases h with h | ⟨rfl, -⟩
    · exact isIdentifierRest_of_isIdentifierStart h
    · rfl

/-- A text that does not start with a character of a class does not start with an identifier if all
characters that identifiers start with are in the class. -/
theorem not_startsWord {p : Char → Bool} (hstart : ∀ c, isIdentifierStart c = true → p c = true)
    (hunderscore : p '_' = true) (h : r.head?.any p = false) : ¬r.StartsWord := by
  intro hr
  cases r with
  | nil => exact hr
  | cons c t =>
    have hc : p c = false := h
    rcases hr with hr | ⟨rfl, -⟩
    · rw [hstart c hr] at hc
      cases hc
    · rw [hunderscore] at hc
      cases hc

/-- A text that does not start with an identifier does not start with a letter. -/
theorem any_isIdentifierStart_eq_false (h : ¬r.StartsWord) :
    r.head?.any isIdentifierStart = false := by
  cases r with
  | nil => rfl
  | cons c t => exact Bool.eq_false_iff.2 fun hc ↦ h (.inl hc)

theorem SameStart.any_isIdentifierRest (h : SameStart r r') :
    r.head?.any isIdentifierRest = r'.head?.any isIdentifierRest := by
  rcases h with ⟨hr, hr'⟩ | ⟨-, -, hhead⟩
  · rw [hr.any_isIdentifierRest, hr'.any_isIdentifierRest]
  · rw [hhead]

/-- Texts of the same start have it also behind another text. -/
theorem SameStart.append (h : SameStart r r') (s : Text) : SameStart (s ++ r) (s ++ r') := by
  cases s with
  | nil => exact h
  | cons c s =>
    have hhead : ((c :: s) ++ r).head? = ((c :: s) ++ r').head? := rfl
    have hiff : StartsWord ((c :: s) ++ r) ↔ StartsWord ((c :: s) ++ r') := by
      cases s with
      | nil => exact or_congr_right (and_congr_right' (Bool.eq_iff_iff.1 h.any_isIdentifierRest))
      | cons d s => exact Iff.rfl
    by_cases hstarts : StartsWord ((c :: s) ++ r)
    · exact .inl ⟨hstarts, hiff.1 hstarts⟩
    · exact .inr ⟨hstarts, fun h ↦ hstarts (hiff.2 h), hhead⟩

end Text

end ShaderLink
