import Mathlib.Data.List.TakeWhile
import ShaderLink.Proofs.Text.Start
import ShaderLink.Proofs.Token.Lexeme

/-!
# Where numbers end

Numbers are put together from pieces, each of which goes on as long as it can: digits, a point, an
exponent, a suffix. Which piece ends where only depends on the first character behind it, except
that the letter of an exponent needs digits behind it to count. As long as the number stands in
front of no letter, this exception does not matter, and so a number is read the same in front of all
texts that start with the same character (`Scan.number_of_head?`). Characters that numbers are not
made of need not even be told apart (`Scan.number_of_alike`).
-/

namespace ShaderLink

namespace Scan

open Text

/-! ### Splitting off characters -/

variable {p : Char → Bool} {s t u u' : Text}

/-- Whether numbers can have the character in them. -/
def isNumeric (c : Char) : Bool :=
  isHexDigit c || c ∈ ['.', '+', '-', 'x', 'X', 'p', 'P', 'h', 'i', 'u']

/-- The first characters of both texts are in the same classes of characters that numbers are made
of. -/
def Alike (u u' : Text) : Prop :=
  ∀ p : Char → Bool, (∀ c, p c = true → isNumeric c = true) → u.head?.any p = u'.head?.any p

/-- Only the next character counts. -/
theorem alike_of_head? (h : u.head? = u'.head?) : Alike u u' :=
  fun p _ ↦ by rw [h]

/-- Numbers go on with neither text. -/
theorem alike_of_any (h : u.head?.any isNumeric = false) (h' : u'.head?.any isNumeric = false) :
    Alike u u' := by
  have hfalse {t : Text} (ht : t.head?.any isNumeric = false) {p : Char → Bool}
      (hp : ∀ c, p c = true → isNumeric c = true) : t.head?.any p = false := by
    cases t with
    | nil => rfl
    | cons c t =>
      have hc : isNumeric c = false := ht
      exact Bool.eq_false_iff.2 fun hpc ↦ by simp [hp c hpc] at hc
  intro p hp
  rw [hfalse h hp, hfalse h' hp]

/-- Texts that go on alike do so behind the same text. -/
theorem Alike.append (h : Alike u u') (s : Text) : Alike (s ++ u) (s ++ u') := by
  cases s with
  | nil => exact h
  | cons c s => exact fun _ _ ↦ rfl

theorem Alike.any_isDigit (h : Alike u u') :
    u.head?.any Char.isDigit = u'.head?.any Char.isDigit :=
  h _ fun c hc ↦ by simp [isNumeric, isHexDigit, hc]

theorem Alike.any_isHexDigit (h : Alike u u') : u.head?.any isHexDigit = u'.head?.any isHexDigit :=
  h _ fun c hc ↦ by simp [isNumeric, hc]

theorem Alike.any_mem (h : Alike u u') {cs : List Char} (hcs : cs.all isNumeric = true) :
    u.head?.any (fun c ↦ decide (c ∈ cs)) = u'.head?.any (fun c ↦ decide (c ∈ cs)) :=
  h _ fun c hc ↦ List.all_eq_true.1 hcs c (of_decide_eq_true hc)

theorem Alike.head?_ne_point (h : Alike u u') (hu : u.head? ≠ some '.') : u'.head? ≠ some '.' := by
  have hany : u.head?.any (fun c ↦ decide (c ∈ ['.'])) = u'.head?.any fun c ↦ decide (c ∈ ['.']) :=
    h.any_mem (by decide)
  intro hu'
  rw [hu'] at hany
  cases u with
  | nil => cases hany
  | cons c u =>
    have hc : c = '.' := by simpa using hany
    exact hu (congrArg some hc)

/-- What is split off is as long as the characters go, no longer. -/
theorem splitWhile_eq_iff :
    splitWhile p (s ++ u) = (s, u) ↔ (∀ c ∈ s, p c = true) ∧ u.head?.any p = false := by
  rw [splitWhile, Prod.mk.injEq]
  constructor
  · rintro ⟨htake, hdrop⟩
    refine ⟨fun c hc ↦ ?_, ?_⟩
    · rw [← htake] at hc
      exact List.mem_takeWhile_imp hc
    · cases u with
      | nil => rfl
      | cons c u =>
        have hhead := List.head?_dropWhile_not p (s ++ c :: u)
        rw [hdrop] at hhead
        simpa using hhead
  · rintro ⟨hs, hu⟩
    rw [List.takeWhile_append_of_pos hs, List.dropWhile_append_of_pos hs]
    cases u with
    | nil => simp
    | cons c u =>
      have hc : p c = false := hu
      simp [hc]

/-- Where a run ends depends on the next character only. -/
theorem splitWhile_of_any (hany : u.head?.any p = u'.head?.any p)
    (h : splitWhile p (s ++ u) = (s, u)) : splitWhile p (s ++ u') = (s, u') := by
  rw [splitWhile_eq_iff] at h ⊢
  rwa [← hany]

theorem splitWhile_of_head? (hhead : u.head? = u'.head?) (h : splitWhile p (s ++ u) = (s, u)) :
    splitWhile p (s ++ u') = (s, u') :=
  splitWhile_of_any (by rw [hhead]) h

/-- One character is split off, or there is none of the list. -/
theorem splitOne_eq_iff {cs : List Char} :
    splitOne cs (s ++ u) = (s, u) ↔
      (∃ c ∈ cs, s = [c]) ∨ s = [] ∧ u.head?.any (fun c ↦ decide (c ∈ cs)) = false := by
  cases s with
  | nil => cases u <;> simp [splitOne]
  | cons c s =>
    by_cases hc : c ∈ cs
    · simp only [List.cons_append, splitOne, if_pos hc, Prod.mk.injEq, List.cons.injEq, true_and]
      constructor
      · rintro ⟨rfl, -⟩
        exact .inl ⟨c, hc, rfl, rfl⟩
      · rintro (⟨c', -, -, rfl⟩ | ⟨hnil, -⟩)
        · exact ⟨rfl, rfl⟩
        · cases hnil
    · simp only [List.cons_append, splitOne, if_neg hc]
      constructor
      · intro h
        cases h
      · rintro (⟨c', hc', heq⟩ | ⟨hnil, -⟩)
        · exact absurd ((List.cons.inj heq).1 ▸ hc') hc
        · cases hnil

theorem splitOne_of_alike {cs : List Char} (hcs : cs.all isNumeric = true)
    (halike : Alike u u') (h : splitOne cs (s ++ u) = (s, u)) :
    splitOne cs (s ++ u') = (s, u') := by
  rw [splitOne_eq_iff] at h ⊢
  rwa [← halike.any_mem hcs]

/-- An exponent is a letter, perhaps a sign, and digits. -/
theorem exponent?_eq_iff {letters : List Char} :
    exponent? letters (s ++ u) = some (s, u) ↔ ∃ c ∈ letters, ∃ sign digits,
      s = c :: (sign ++ digits) ∧ digits ≠ [] ∧
      splitOne ['+', '-'] (sign ++ (digits ++ u)) = (sign, digits ++ u) ∧
      splitWhile Char.isDigit (digits ++ u) = (digits, u) := by
  constructor
  · intro h
    cases hsu : s ++ u with
    | nil =>
      rw [hsu] at h
      cases h
    | cons c t =>
      rw [hsu, exponent?, Option.ite_none_right_eq_some] at h
      obtain ⟨⟨hc, hdigits⟩, heq⟩ := h
      obtain ⟨hs, hu⟩ := Prod.mk.inj (Option.some.inj heq)
      have hbehind : (splitWhile Char.isDigit (splitOne ['+', '-'] t).2).1 ++ u =
          (splitOne ['+', '-'] t).2 := by
        rw [← hu, splitWhile_append]
      refine ⟨c, hc, _, _, hs.symm, hdigits, ?_, ?_⟩
      · rw [hbehind, splitOne_append]
      · rw [hbehind, ← hu]
  · rintro ⟨c, hc, sign, digits, rfl, hdigits, hsign, hrest⟩
    rw [List.cons_append, List.append_assoc, exponent?, hsign, hrest]
    simp [hc, hdigits]

/-- An exponent ends where its digits do. -/
theorem exponent?_of_alike {letters : List Char} (halike : Alike u u')
    (h : exponent? letters (s ++ u) = some (s, u)) :
    exponent? letters (s ++ u') = some (s, u') := by
  rw [exponent?_eq_iff] at h ⊢
  obtain ⟨c, hc, sign, digits, rfl, hne, hsign, hdigits⟩ := h
  exact ⟨c, hc, sign, digits, rfl, hne, splitOne_of_alike (by decide) (halike.append digits) hsign,
    splitWhile_of_any halike.any_isDigit hdigits⟩

/-! ### Numbers -/

/-- No letter stands at the start of the text, so no exponent and no suffix of a number does. -/
theorem exponent?_eq_none {letters : List Char}
    (hu : u.head?.any (fun c ↦ decide (c ∈ letters)) = false) : exponent? letters u = none := by
  cases u with
  | nil => rfl
  | cons c u =>
    have hc : c ∉ letters := by simpa using hu
    rw [exponent?]
    simp [hc]

/-- What may be an exponent is one or none in both texts. -/
theorem optional_exponent_of_alike {letters : List Char} (halike : Alike u u')
    (hletters : letters.all isNumeric = true)
    (hu : u.head?.any (fun c ↦ decide (c ∈ letters)) = false)
    (h : (exponent? letters (s ++ u)).getD ([], s ++ u) = (s, u)) :
    (exponent? letters (s ++ u')).getD ([], s ++ u') = (s, u') := by
  cases hexp : exponent? letters (s ++ u) with
  | some e =>
    rw [hexp, Option.getD_some] at h
    rw [h] at hexp
    rw [exponent?_of_alike halike hexp, Option.getD_some]
  | none =>
    rw [hexp, Option.getD_none] at h
    obtain rfl := (Prod.mk.inj h).1
    rw [List.nil_append, exponent?_eq_none (by rwa [← halike.any_mem hletters]), Option.getD_none]

/-- What is split off behind a point is digits, an exponent and a suffix. -/
theorem splitFraction_eq_iff :
    splitFraction (s ++ u) = (s, u) ↔ ∃ digits exponent suffix,
      s = digits ++ (exponent ++ suffix) ∧
      splitWhile Char.isDigit (digits ++ (exponent ++ (suffix ++ u))) =
        (digits, exponent ++ (suffix ++ u)) ∧
      (exponent? ['e', 'E'] (exponent ++ (suffix ++ u))).getD ([], exponent ++ (suffix ++ u)) =
        (exponent, suffix ++ u) ∧
      splitOne ['f', 'h'] (suffix ++ u) = (suffix, u) := by
  rw [splitFraction]
  constructor
  · intro h
    generalize s ++ u = t at h
    obtain ⟨rfl, rfl⟩ := Prod.mk.inj h
    refine ⟨_, _, _, rfl, ?_⟩
    rw [splitOne_append, exponent?_getD_append, splitWhile_append]
    exact ⟨rfl, rfl, rfl⟩
  · rintro ⟨digits, exponent, suffix, rfl, hdigits, hexponent, hsuffix⟩
    rw [List.append_assoc, List.append_assoc, hdigits, hexponent, hsuffix]

/-- No letter stands at the start of the text. -/
theorem any_letters_eq_false (hu : u.head?.any isIdentifierStart = false) {letters : List Char}
    (hletters : letters.all isIdentifierStart = true) :
    u.head?.any (fun c ↦ decide (c ∈ letters)) = false := by
  cases u with
  | nil => rfl
  | cons c u =>
    refine decide_eq_false fun hc ↦ ?_
    have hc' : isIdentifierStart c = false := hu
    rw [List.all_eq_true.1 hletters c hc] at hc'
    cases hc'

/-- The digits behind a point end where another character, but no letter, follows. -/
theorem splitFraction_of_alike (halike : Alike u u')
    (hu : u.head?.any isIdentifierStart = false) (h : splitFraction (s ++ u) = (s, u)) :
    splitFraction (s ++ u') = (s, u') := by
  rw [splitFraction_eq_iff] at h ⊢
  obtain ⟨digits, exponent, suffix, rfl, hdigits, hexponent, hsuffix⟩ := h
  have halike₁ := halike.append suffix
  have halike₂ := halike₁.append exponent
  -- a suffix is no exponent
  have hletter : (suffix ++ u).head?.any (fun c ↦ decide (c ∈ ['e', 'E'])) = false := by
    rcases splitOne_eq_iff.1 hsuffix with ⟨c, hc, rfl⟩ | ⟨rfl, -⟩
    · simp only [List.mem_cons, List.not_mem_nil, or_false] at hc
      rcases hc with rfl | rfl <;> rfl
    · exact any_letters_eq_false hu rfl
  exact ⟨digits, exponent, suffix, rfl, splitWhile_of_any halike₂.any_isDigit hdigits,
    optional_exponent_of_alike halike₁ (by decide) hletter hexponent,
    splitOne_of_alike (by decide) halike hsuffix⟩

/-- A decimal number with a point. -/
theorem decimal_point {digits rest : Text}
    (h : splitWhile Char.isDigit (digits ++ '.' :: rest) = (digits, '.' :: rest)) :
    decimal (digits ++ '.' :: rest) =
      if digits = [] ∧ rest.head?.any Char.isDigit = false then missed
      else matched (digits ++ '.' :: (splitFraction rest).1) (splitFraction rest).2 := by
  rw [decimal, h]
  simp

/-- A decimal number without a point. -/
theorem decimal_whole {digits rest : Text}
    (h : splitWhile Char.isDigit (digits ++ rest) = (digits, rest))
    (hpoint : rest.head? ≠ some '.') :
    decimal (digits ++ rest) =
      if digits = [] then missed
      else
        match exponent? ['e', 'E'] rest with
        | some exponent =>
          matched (digits ++ (exponent.1 ++ (splitOne ['f', 'h'] exponent.2).1))
            (splitOne ['f', 'h'] exponent.2).2
        | none =>
          matched (digits ++ (splitOne ['f', 'h', 'i', 'u'] rest).1)
            (splitOne ['f', 'h', 'i', 'u'] rest).2 := by
  rw [decimal, h]
  dsimp only
  split
  · exact absurd rfl hpoint
  · exact if_congr List.isEmpty_iff rfl rfl

/-- A decimal number with a point is read again in front of what goes on alike. -/
theorem decimal_point_of_alike (halike : Alike u u')
    (hu : u.head?.any isIdentifierStart = false) {digits fraction : Text}
    (hdigits : splitWhile Char.isDigit (digits ++ '.' :: (fraction ++ u)) =
      (digits, '.' :: (fraction ++ u)))
    (hfraction : splitFraction (fraction ++ u) = (fraction, u))
    (hsome : ¬(digits = [] ∧ (fraction ++ u).head?.any Char.isDigit = false)) :
    decimal (digits ++ '.' :: (fraction ++ u')) = matched (digits ++ '.' :: fraction) u' := by
  have hdigits' : splitWhile Char.isDigit (digits ++ '.' :: (fraction ++ u')) =
      (digits, '.' :: (fraction ++ u')) :=
        splitWhile_of_head? (u := '.' :: (fraction ++ u)) rfl hdigits
  rw [decimal_point hdigits', splitFraction_of_alike halike hu hfraction, if_neg]
  rwa [← (halike.append fraction).any_isDigit]

/-- A number without a point ends with a suffix, perhaps behind an exponent. -/
theorem decimal_whole_of_alike (halike : Alike u u')
    (hu : u.head?.any isIdentifierStart = false) {digits t : Text} (hne : digits ≠ [])
    (hdigits : splitWhile Char.isDigit (digits ++ t) = (digits, t)) (hpoint : t.head? ≠ some '.')
    (h : decimal (digits ++ t) = matched s u) : decimal (s ++ u') = matched s u' := by
  rw [decimal_whole hdigits hpoint, if_neg hne] at h
  have hkept {tail : Text} (ht : t = tail ++ u) :
      splitWhile Char.isDigit (digits ++ (tail ++ u')) = (digits, tail ++ u') ∧
        (tail ++ u').head? ≠ some '.' := by
    rw [ht] at hdigits hpoint
    have hnext := halike.append tail
    exact ⟨splitWhile_of_any hnext.any_isDigit hdigits, hnext.head?_ne_point hpoint⟩
  split at h
  · rename_i exponent hexp
    generalize hsuffix : splitOne ['f', 'h'] exponent.2 = suffix at h
    obtain ⟨rfl, rfl⟩ := matched.inj h
    have hbehind : exponent.2 = suffix.1 ++ suffix.2 := by rw [← hsuffix, splitOne_append]
    have ht : t = (exponent.1 ++ suffix.1) ++ suffix.2 := by
      rw [List.append_assoc, ← hbehind, exponent?_append hexp]
    obtain ⟨hdigits', hpoint'⟩ := hkept ht
    obtain ⟨number, behind⟩ := exponent
    obtain rfl : behind = suffix.1 ++ suffix.2 := hbehind
    rw [ht, List.append_assoc] at hexp
    rw [List.append_assoc] at hdigits' hpoint'
    rw [List.append_assoc, List.append_assoc, decimal_whole hdigits' hpoint', if_neg hne,
      exponent?_of_alike (halike.append suffix.1) hexp]
    dsimp only
    rw [splitOne_of_alike (by decide) halike hsuffix]
  · rename_i hexp
    generalize hsuffix : splitOne ['f', 'h', 'i', 'u'] t = suffix at h
    obtain ⟨rfl, rfl⟩ := matched.inj h
    have ht : t = suffix.1 ++ suffix.2 := by rw [← hsuffix, splitOne_append]
    obtain ⟨hdigits', hpoint'⟩ := hkept ht
    rw [ht] at hsuffix
    -- a suffix is no exponent
    have hletter : (suffix.1 ++ u').head?.any (fun c ↦ decide (c ∈ ['e', 'E'])) = false := by
      rcases splitOne_eq_iff.1 hsuffix with ⟨c, hc, hone⟩ | ⟨hnil, -⟩
      · rw [hone]
        simp only [List.mem_cons, List.not_mem_nil, or_false] at hc
        rcases hc with rfl | rfl | rfl | rfl <;> rfl
      · rw [hnil, List.nil_append, ← halike.any_mem (by decide)]
        exact any_letters_eq_false hu rfl
    rw [List.append_assoc, decimal_whole hdigits' hpoint', if_neg hne, exponent?_eq_none hletter]
    dsimp only
    rw [splitOne_of_alike (by decide) halike hsuffix]

/-- So is every decimal number. -/
theorem decimal_of_alike (halike : Alike u u')
    (hu : u.head?.any isIdentifierStart = false) (h : decimal t = matched s u) :
    decimal (s ++ u') = matched s u' := by
  have ht := splitWhile_append Char.isDigit t
  generalize hsplit : splitWhile Char.isDigit t = whole at ht
  obtain ⟨digits, tail⟩ := whole
  subst ht
  by_cases hpoint : tail.head? = some '.'
  · obtain ⟨rest, rfl⟩ := List.head?_eq_some_iff.1 hpoint
    rw [decimal_point hsplit] at h
    split at h
    · cases h
    · rename_i hsome
      generalize hfraction : splitFraction rest = fraction at h
      obtain ⟨rfl, rfl⟩ := matched.inj h
      obtain rfl : fraction.1 ++ fraction.2 = rest := by rw [← hfraction, splitFraction_append]
      rw [List.append_assoc]
      exact decimal_point_of_alike halike hu hsplit hfraction hsome
  · refine decimal_whole_of_alike halike hu ?_ hsplit hpoint h
    rintro rfl
    rw [decimal_whole hsplit hpoint, if_pos rfl] at h
    cases h

/-- What is read as a binary exponent is read again in front of what goes on alike. -/
theorem binaryExponent_of_alike {read lexeme : Text}
    (h : binaryExponent read t = matched lexeme u) :
    ∃ s, lexeme = read ++ s ∧ t = s ++ u ∧ ∀ u' : Text, Alike u u' →
      u.head?.any isIdentifierStart = false →
        binaryExponent read (s ++ u') = matched lexeme u' := by
  rw [binaryExponent] at h
  split at h
  · rename_i exponent hexp
    generalize hsuffix : splitOne ['f', 'h'] exponent.2 = suffix at h
    obtain ⟨rfl, rfl⟩ := matched.inj h
    obtain ⟨number, behind⟩ := exponent
    obtain rfl : behind = suffix.1 ++ suffix.2 := by rw [← hsuffix, splitOne_append]
    have ht := exponent?_append hexp
    rw [← ht] at hexp
    refine ⟨number ++ suffix.1, rfl, by rw [List.append_assoc, ht], fun u' halike hu ↦ ?_⟩
    rw [List.append_assoc, binaryExponent, exponent?_of_alike (halike.append suffix.1) hexp]
    dsimp only
    rw [splitOne_of_alike (by decide) halike hsuffix]
  · split at h
    · cases h
    · obtain ⟨rfl, rfl⟩ := matched.inj h
      refine ⟨[], (List.append_nil _).symm, rfl, fun u' halike hu ↦ ?_⟩
      have hletter : u'.head?.any (fun c ↦ decide (c ∈ ['p', 'P'])) = false := by
        rw [← halike.any_mem (by decide)]
        exact any_letters_eq_false hu rfl
      rw [List.nil_append, binaryExponent, exponent?_eq_none hletter]
      dsimp only
      rw [hletter]
      rfl

/-- A hexadecimal number with a point. -/
theorem hexDigits_point (mark : Text) {digits rest : Text}
    (h : splitWhile isHexDigit (digits ++ '.' :: rest) = (digits, '.' :: rest)) :
    hexDigits mark (digits ++ '.' :: rest) =
      if digits = [] ∧ (splitWhile isHexDigit rest).1 = [] then missed
      else binaryExponent (mark ++ (digits ++ '.' :: (splitWhile isHexDigit rest).1))
        (splitWhile isHexDigit rest).2 := by
  rw [hexDigits, h]
  simp only [List.isEmpty_iff]

/-- A hexadecimal number without a point. -/
theorem hexDigits_whole (mark : Text) {digits rest : Text}
    (h : splitWhile isHexDigit (digits ++ rest) = (digits, rest)) (hpoint : rest.head? ≠ some '.') :
    hexDigits mark (digits ++ rest) =
      if digits = [] then missed
      else if rest.head?.any (fun c ↦ decide (c ∈ ['i', 'u'])) then
        matched (mark ++ (digits ++ (splitOne ['i', 'u'] rest).1)) (splitOne ['i', 'u'] rest).2
      else binaryExponent (mark ++ digits) rest := by
  rw [hexDigits, h]
  dsimp only
  split
  · exact absurd rfl hpoint
  · simp only [List.isEmpty_iff]

/-- So are the digits behind the mark of a hexadecimal number. -/
theorem hexDigits_of_alike {mark lexeme : Text} (halike : Alike u u')
    (hu : u.head?.any isIdentifierStart = false) (h : hexDigits mark t = matched lexeme u) :
    ∃ s, lexeme = mark ++ s ∧ t = s ++ u ∧ hexDigits mark (s ++ u') = matched lexeme u' := by
  have ht := splitWhile_append isHexDigit t
  generalize hsplit : splitWhile isHexDigit t = whole at ht
  obtain ⟨digits, tail⟩ := whole
  subst ht
  -- with a point, the digits are followed by digits and perhaps an exponent
  by_cases hpoint : tail.head? = some '.'
  · obtain ⟨rest, rfl⟩ := List.head?_eq_some_iff.1 hpoint
    rw [hexDigits_point mark hsplit] at h
    split at h
    · cases h
    · rename_i hsome
      generalize hfraction : splitWhile isHexDigit rest = fraction at h hsome
      obtain ⟨fraction, behind⟩ := fraction
      obtain ⟨s, rfl, rfl, hexp⟩ := binaryExponent_of_alike h
      obtain rfl : fraction ++ (s ++ u) = rest := by
        have hrest := splitWhile_append isHexDigit rest
        rwa [hfraction] at hrest
      refine ⟨digits ++ '.' :: (fraction ++ s), by simp, by simp, ?_⟩
      have hsplit' : splitWhile isHexDigit (digits ++ '.' :: (fraction ++ (s ++ u'))) =
          (digits, '.' :: (fraction ++ (s ++ u'))) :=
        splitWhile_of_head? (u := '.' :: (fraction ++ (s ++ u))) rfl hsplit
      have hfraction' := splitWhile_of_any (halike.append s).any_isHexDigit hfraction
      rw [List.append_assoc, List.cons_append, List.append_assoc, hexDigits_point mark hsplit',
        hfraction', if_neg hsome]
      exact hexp u' halike hu
  · rw [hexDigits_whole mark hsplit hpoint] at h
    -- without a point, the digits end where what is behind them starts
    have hkept {s : Text} (hs : tail = s ++ u) :
        splitWhile isHexDigit (digits ++ (s ++ u')) = (digits, s ++ u') ∧
          (s ++ u').head? ≠ some '.' ∧ Alike tail (s ++ u') := by
      rw [hs] at hsplit hpoint ⊢
      have hnext := halike.append s
      exact ⟨splitWhile_of_any hnext.any_isHexDigit hsplit, hnext.head?_ne_point hpoint, hnext⟩
    split at h
    · cases h
    · rename_i hne
      split at h
      · rename_i hsuffixed
        generalize hsuffix : splitOne ['i', 'u'] tail = suffix at h
        obtain ⟨rfl, rfl⟩ := matched.inj h
        obtain rfl : suffix.1 ++ suffix.2 = tail := by rw [← hsuffix, splitOne_append]
        obtain ⟨hsplit', hpoint', hsame⟩ := hkept rfl
        refine ⟨digits ++ suffix.1, rfl, by rw [List.append_assoc], ?_⟩
        rw [List.append_assoc, hexDigits_whole mark hsplit' hpoint', if_neg hne,
          if_pos (by rwa [← hsame.any_mem (by decide)]),
          splitOne_of_alike (by decide) halike hsuffix]
      · rename_i hsuffixed
        obtain ⟨s, rfl, hs, hexp⟩ := binaryExponent_of_alike h
        obtain ⟨hsplit', hpoint', hsame⟩ := hkept hs
        refine ⟨digits ++ s, by rw [List.append_assoc], by rw [hs, List.append_assoc], ?_⟩
        rw [List.append_assoc, hexDigits_whole mark hsplit' hpoint', if_neg hne,
          if_neg (by rwa [← hsame.any_mem (by decide)])]
        exact hexp u' halike hu

/-- So is a hexadecimal number as a whole. -/
theorem hexadecimal_of_alike (halike : Alike u u')
    (hu : u.head?.any isIdentifierStart = false) (h : hexadecimal (s ++ u) = matched s u) :
    hexadecimal (s ++ u') = matched s u' := by
  generalize ht : s ++ u = t at h
  rw [hexadecimal.eq_def] at h
  split at h
  · obtain ⟨s', rfl, -, hdigits⟩ := hexDigits_of_alike halike hu h
    exact hdigits
  · obtain ⟨s', rfl, -, hdigits⟩ := hexDigits_of_alike halike hu h
    exact hdigits
  · cases h

/-- A zero in front of a letter that starts no exponent and no suffix is a number by itself. -/
theorem decimal_zero {c : Char} (hc : c ∈ ['x', 'X']) (t : Text) :
    decimal ('0' :: c :: t) = matched ['0'] (c :: t) := by
  simp only [List.mem_cons, List.not_mem_nil, or_false] at hc
  rcases hc with rfl | rfl <;> rfl

/-- What starts no hexadecimal number does not come to start one. -/
theorem hexadecimal_eq_missed (halike : Alike u u')
    (hu : u.head?.any isIdentifierStart = false) (h : decimal (s ++ u) = matched s u) :
    hexadecimal (s ++ u') = missed := by
  have hnot {c : Char} (hc : c ∈ ['x', 'X']) (t : Text) : s ++ u' ≠ '0' :: c :: t := by
    intro heq
    obtain ⟨s', rfl⟩ : ∃ s', s = '0' :: s' := by
      cases s with
      | nil => exact absurd rfl (splits_decimal _ _ _ h).2
      | cons d s' => exact ⟨s', by rw [(List.cons.inj heq).1]⟩
    cases s' with
    | nil =>
      have hletter : u'.head?.any (fun c ↦ decide (c ∈ ['x', 'X'])) = false := by
        rw [← halike.any_mem (by decide)]
        exact any_letters_eq_false hu rfl
      have hu' : u' = c :: t := (List.cons.inj heq).2
      rw [hu'] at hletter
      exact absurd hc (of_decide_eq_false hletter)
    | cons d s' =>
      obtain ⟨rfl, -⟩ := List.cons.inj (List.cons.inj heq).2
      rw [List.cons_append, List.cons_append, decimal_zero hc] at h
      cases (matched.inj h).1
  rw [hexadecimal.eq_def]
  split
  · rename_i t heq
    exact absurd heq (hnot (by decide) t)
  · rename_i t heq
    exact absurd heq (hnot (by decide) t)
  · rfl

/-- A number is read the same in front of other texts that it does not go on with. -/
theorem number_of_alike (halike : Alike u u')
    (hu : u.head?.any isIdentifierStart = false) (h : number (s ++ u) = matched s u) :
    number (s ++ u') = matched s u' := by
  rw [number] at h ⊢
  cases hhex : hexadecimal (s ++ u) with
  | matched lexeme rest =>
    rw [hhex] at h
    rw [hexadecimal_of_alike halike hu (hhex.trans h)]
    rfl
  | missed =>
    rw [hhex] at h
    rw [hexadecimal_eq_missed halike hu h]
    exact decimal_of_alike halike hu h
  | broken notes =>
    rw [hhex] at h
    cases h

/-- A number is read again in front of every text that starts with the same character. -/
theorem number_of_head? (hhead : u.head? = u'.head?)
    (hu : u.head?.any isIdentifierStart = false) (h : number (s ++ u) = matched s u) :
    number (s ++ u') = matched s u' :=
  number_of_alike (alike_of_head? hhead) hu h

theorem orElse_eq_missed_iff {first second : Scan} :
    first.orElse second = missed ↔ first = missed ∧ second = missed := by
  cases first <;> simp [orElse]

/-- A decimal number starts with a digit or with a point and a digit. -/
theorem decimal_eq_missed_iff :
    decimal t = missed ↔ t.head?.any Char.isDigit = false ∧
      ∀ rest, t = '.' :: rest → rest.head?.any Char.isDigit = false := by
  have hwhole := splitWhile_append Char.isDigit t
  generalize hsplit : splitWhile Char.isDigit t = whole at hwhole
  obtain ⟨digits, tail⟩ := whole
  subst hwhole
  obtain ⟨hdigits, htail⟩ := splitWhile_eq_iff.1 hsplit
  cases digits with
  | nil =>
    rw [List.nil_append] at hsplit ⊢
    by_cases hpoint : tail.head? = some '.'
    · obtain ⟨rest, rfl⟩ := List.head?_eq_some_iff.1 hpoint
      have hdecimal := @decimal_point [] rest hsplit
      rw [List.nil_append] at hdecimal
      rw [hdecimal]
      simp
    · have hdecimal := @decimal_whole [] tail hsplit hpoint
      rw [List.nil_append] at hdecimal
      rw [hdecimal, if_pos rfl]
      refine iff_of_true rfl ⟨htail, ?_⟩
      rintro rest rfl
      exact absurd rfl hpoint
  | cons d digits =>
    have hd : d.isDigit = true := hdigits d List.mem_cons_self
    refine iff_of_false ?_ fun h ↦ by simp [hd] at h
    by_cases hpoint : tail.head? = some '.'
    · obtain ⟨rest, rfl⟩ := List.head?_eq_some_iff.1 hpoint
      rw [decimal_point hsplit]
      simp
    · rw [decimal_whole hsplit hpoint, if_neg (List.cons_ne_nil d digits)]
      split
      · exact nofun
      · exact nofun

/-- A hexadecimal number starts with a decimal digit, so decimal numbers decide. -/
theorem number_eq_missed_iff : number t = missed ↔ decimal t = missed := by
  rw [number, orElse_eq_missed_iff]
  refine and_iff_right_of_imp fun h ↦ ?_
  have hhead := (decimal_eq_missed_iff.1 h).1
  rw [hexadecimal.eq_def]
  split
  · cases hhead
  · cases hhead
  · rfl

/-! ### The characters of numbers -/

/-- What is split off has the characters that it is split off for. -/
theorem numeric_splitWhile (hp : ∀ c, p c = true → isNumeric c = true) (t : Text) :
    ∀ c ∈ (splitWhile p t).1, isNumeric c = true :=
  fun c hc ↦ hp c (List.mem_takeWhile_imp hc)

theorem numeric_digits (t : Text) : ∀ c ∈ (splitWhile Char.isDigit t).1, isNumeric c = true :=
  numeric_splitWhile (fun c hc ↦ by simp [isNumeric, isHexDigit, hc]) t

theorem numeric_hexDigits (t : Text) : ∀ c ∈ (splitWhile isHexDigit t).1, isNumeric c = true :=
  numeric_splitWhile (fun c hc ↦ by simp [isNumeric, hc]) t

theorem numeric_splitOne {cs : List Char} (hcs : cs.all isNumeric = true) (t : Text) :
    ∀ c ∈ (splitOne cs t).1, isNumeric c = true := by
  cases t with
  | nil => exact List.forall_mem_nil _
  | cons c t =>
    rw [splitOne]
    split
    · rename_i hc
      exact List.forall_mem_singleton.2 (List.all_eq_true.1 hcs c hc)
    · exact List.forall_mem_nil _

theorem numeric_exponent {letters : List Char} (hletters : letters.all isNumeric = true)
    {e : Text × Text} (h : exponent? letters t = some e) : ∀ c ∈ e.1, isNumeric c = true := by
  cases t with
  | nil => cases h
  | cons c t =>
    rw [exponent?, Option.ite_none_right_eq_some] at h
    obtain ⟨⟨hc, -⟩, heq⟩ := h
    obtain rfl := Option.some.inj heq
    exact List.forall_mem_cons.2 ⟨List.all_eq_true.1 hletters c hc, List.forall_mem_append.2
      ⟨numeric_splitOne (by decide) t, numeric_digits _⟩⟩

theorem numeric_splitFraction (t : Text) : ∀ c ∈ (splitFraction t).1, isNumeric c = true := by
  rw [splitFraction]
  refine List.forall_mem_append.2 ⟨numeric_digits t, List.forall_mem_append.2
    ⟨?_, numeric_splitOne (by decide) _⟩⟩
  cases hexp : exponent? ['e', 'E'] (splitWhile Char.isDigit t).2 with
  | none => exact List.forall_mem_nil _
  | some e => exact numeric_exponent (by decide) hexp

/-- Decimal numbers have no other characters. -/
theorem numeric_decimal (h : decimal t = matched s u) : ∀ c ∈ s, isNumeric c = true := by
  have hdigits := numeric_digits t
  simp only [decimal] at h
  split at h
  · split at h
    · cases h
    · obtain ⟨rfl, -⟩ := matched.inj h
      exact List.forall_mem_append.2 ⟨hdigits, List.forall_mem_cons.2
        ⟨by decide, numeric_splitFraction _⟩⟩
  · split at h
    · cases h
    · split at h
      · rename_i hexp
        obtain ⟨rfl, -⟩ := matched.inj h
        exact List.forall_mem_append.2 ⟨hdigits, List.forall_mem_append.2
          ⟨numeric_exponent (by decide) hexp, numeric_splitOne (by decide) _⟩⟩
      · obtain ⟨rfl, -⟩ := matched.inj h
        exact List.forall_mem_append.2 ⟨hdigits, numeric_splitOne (by decide) _⟩

theorem numeric_binaryExponent {read : Text} (hread : ∀ c ∈ read, isNumeric c = true)
    (h : binaryExponent read t = matched s u) : ∀ c ∈ s, isNumeric c = true := by
  rw [binaryExponent] at h
  split at h
  · rename_i hexp
    obtain ⟨rfl, -⟩ := matched.inj h
    exact List.forall_mem_append.2 ⟨hread, List.forall_mem_append.2
      ⟨numeric_exponent (by decide) hexp, numeric_splitOne (by decide) _⟩⟩
  · split at h
    · cases h
    · obtain ⟨rfl, -⟩ := matched.inj h
      exact hread

/-- Nor have hexadecimal ones behind their mark. -/
theorem numeric_hexadecimal_digits {mark : Text} (hall : mark.all isNumeric = true)
    (h : hexDigits mark t = matched s u) : ∀ c ∈ s, isNumeric c = true := by
  have hmark := List.all_eq_true.1 hall
  have hdigits := numeric_hexDigits t
  simp only [hexDigits] at h
  split at h
  · split at h
    · cases h
    · exact numeric_binaryExponent (List.forall_mem_append.2 ⟨hmark, List.forall_mem_append.2
        ⟨hdigits, List.forall_mem_cons.2 ⟨by decide, numeric_hexDigits _⟩⟩⟩) h
  · split at h
    · cases h
    · split at h
      · obtain ⟨rfl, -⟩ := matched.inj h
        exact List.forall_mem_append.2 ⟨hmark, List.forall_mem_append.2
          ⟨hdigits, numeric_splitOne (by decide) _⟩⟩
      · exact numeric_binaryExponent (List.forall_mem_append.2 ⟨hmark, hdigits⟩) h

/-- Numbers are made of numeric characters. -/
theorem numeric_number (h : number t = matched s u) : ∀ c ∈ s, isNumeric c = true := by
  rw [number] at h
  cases hhex : hexadecimal t with
  | matched lexeme rest =>
    rw [hhex] at h
    obtain ⟨rfl, rfl⟩ := matched.inj h
    rw [hexadecimal.eq_def] at hhex
    split at hhex
    · exact numeric_hexadecimal_digits (by decide) hhex
    · exact numeric_hexadecimal_digits (by decide) hhex
    · cases hhex
  | missed =>
    rw [hhex] at h
    exact numeric_decimal h
  | broken notes =>
    rw [hhex] at h
    cases h

end Scan

end ShaderLink
