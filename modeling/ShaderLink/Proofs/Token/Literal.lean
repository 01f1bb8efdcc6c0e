import ShaderLink.Proofs.Token.LongestPrefix
import ShaderLink.Proofs.Token.Number

/-!
# Number literals

The number literals are two languages, `Literal.decimals` and `Literal.hexadecimals`, and the rules
for numbers find the longest prefix of a text that is in them. Their parts are read greedily, and
each is followed by characters that it does not go on with; only the letters of a hexadecimal number
have two meanings, which is why a half-written exponent breaks the number (`Literal.HalfWritten`)
instead of being left out.
-/

namespace ShaderLink

open scoped Computability

open Text

/-! ### Languages -/

namespace Literal

/-- Digits, and a sign in front of them if there is one. -/
def signed : Language Char :=
  optional (anyOf ['+', '-']) * someOf Char.isDigit

/-- One of some letters, and behind it how far the point is to be moved. -/
def exponents (letters : List Char) : Language Char :=
  anyOf letters * signed

/-- What stands behind the point of a decimal number, with the digits given. -/
def fractions (digits : Language Char) : Language Char :=
  digits * (optional (exponents ['e', 'E']) * optional (anyOf ['f', 'h']))

/-- What stands behind the first digits of a decimal number: a fraction, an exponent or a suffix. -/
def decimalTails : Language Char :=
  anyOf ['.'] * fractions (oneOf Char.isDigit)∗ +
    (exponents ['e', 'E'] * optional (anyOf ['f', 'h']) + (anyOf ['f', 'h'] + anyOf ['i', 'u']))

/-- The decimal literals. -/
def decimals : Language Char :=
  someOf Char.isDigit * optional decimalTails + anyOf ['.'] * fractions (someOf Char.isDigit)

/-- The exponents of hexadecimal numbers, with the suffixes that only stand behind them. -/
def binaryExponents : Language Char :=
  exponents ['p', 'P'] * optional (anyOf ['f', 'h'])

/-- What hexadecimal literals start with. -/
def marks : Language Char :=
  anyOf ['0'] * anyOf ['x', 'X']

/-- What stands behind the first digits of a hexadecimal number: a suffix, an exponent or a
fraction. -/
def hexTails : Language Char :=
  anyOf ['i', 'u'] + (binaryExponents +
    anyOf ['.'] * ((oneOf Scan.isHexDigit)∗ * optional binaryExponents))

/-- What stands behind the mark of a hexadecimal literal. -/
def hexBodies : Language Char :=
  someOf Scan.isHexDigit * optional hexTails +
    anyOf ['.'] * (someOf Scan.isHexDigit * optional binaryExponents)

/-- The hexadecimal literals. -/
def hexadecimals : Language Char :=
  marks * hexBodies

/-- What stands behind the mark of a hexadecimal literal in front of an exponent. -/
def mantissas : Language Char :=
  someOf Scan.isHexDigit * optional (anyOf ['.'] * (oneOf Scan.isHexDigit)∗) +
    anyOf ['.'] * someOf Scan.isHexDigit

/-- Behind a hexadecimal number without suffix there is the letter of an exponent, but no digits
behind that. -/
def HalfWritten (t : Text) : Prop :=
  ∃ number ∈ marks * mantissas, ∃ letter ∈ ['p', 'P'], ∃ behind,
    t = number ++ letter :: behind ∧ Lacks signed behind

/-! ### Where parts start and stop -/

variable {cs : List Char} {q : Char → Bool}

theorem apart_of_all (h : cs.all (fun c ↦ !q c) = true) (c : Char) (hc : decide (c ∈ cs) = true) :
    q c = false :=
  Bool.not_eq_true' _ ▸ List.all_eq_true.1 h c (of_decide_eq_true hc)

theorem apart_of_all_symm (h : cs.all (fun c ↦ !q c) = true) (c : Char) (hc : q c = true) :
    decide (c ∈ cs) = false :=
  Bool.eq_false_iff.2 fun hmem ↦ by simp [apart_of_all h c hmem] at hc

/-- What may follow the digits of a decimal number starts with one of these. -/
theorem startsIn_decimalTails :
    StartsIn decimalTails fun c ↦ decide (c ∈ ['.', 'e', 'E', 'f', 'h', 'i', 'u']) :=
  .add (.anyOf_mul (by decide)) (.add (.mul_left (.anyOf_mul (by decide)) nil_notMem_anyOf_mul)
    (.add (.anyOf (by decide)) (.anyOf (by decide))))

theorem startsIn_binaryExponents (h : ['p', 'P'].all q = true) : StartsIn binaryExponents q :=
  .mul_left (.anyOf_mul h) nil_notMem_anyOf_mul

/-- What may follow those of a hexadecimal number starts with one of these. -/
theorem startsIn_hexTails : StartsIn hexTails fun c ↦ decide (c ∈ ['i', 'u', 'p', 'P', '.']) :=
  .add (.anyOf (by decide)) (.add (startsIn_binaryExponents (by decide)) (.anyOf_mul (by decide)))

theorem stopsAt_sign (h : ['+', '-'].all (fun c ↦ !q c) = true) :
    StopsAt (optional (anyOf ['+', '-'])) q :=
  StopsAt.oneOf.optional (.oneOf fun _ ↦ id) (apart_of_all h)

/-- Only digits go on with an exponent. -/
theorem stopsAt_exponents : StopsAt (exponents cs) fun c ↦ decide (c ∈ ['f', 'h']) := by
  have hsigned : StopsAt signed fun c ↦ decide (c ∈ ['f', 'h']) :=
    (stopsAt_sign (q := Char.isDigit) (by decide)).mul (.someOf fun _ ↦ id)
      (stopsAt_sign (by decide)) (.someOf (apart_of_all_symm (by decide)))
  exact StopsAt.oneOf.mul (.any _) .oneOf hsigned

theorem stopsAt_marks : StopsAt marks q :=
  StopsAt.oneOf.mul (.any _) .oneOf .oneOf

end Literal

namespace Scan

open Literal

variable {p : Char → Bool} {D : Language Char} {t : Text}

/-! ### Pieces -/

/-- A run goes on as far as its class does. -/
theorem longest_splitWhile (p : Char → Bool) (t : Text) :
    Longest (oneOf p)∗ t (splitWhile p t).1 (splitWhile p t).2 where
  eq := (splitWhile_append p t).symm
  mem := mem_kstar_oneOf.2 fun _ hc ↦ List.mem_takeWhile_imp hc
  length_le := by
    rintro s hs ⟨rest, rfl⟩
    rw [splitWhile, List.takeWhile_append_of_pos (mem_kstar_oneOf.1 hs), List.length_append]
    exact Nat.le_add_right _ _

/-- It is empty if the first character is not of the class. -/
theorem splitWhile_eq_nil_iff : (splitWhile p t).1 = [] ↔ t.head?.any p = false := by
  cases t with
  | nil => exact iff_of_true rfl rfl
  | cons c t =>
    by_cases hc : p c = true <;> simp [splitWhile, hc]

/-- A run that is not empty is the longest nonempty one. -/
theorem longest_someOf (h : (splitWhile p t).1 ≠ []) :
    Longest (someOf p) t (splitWhile p t).1 (splitWhile p t).2 where
  eq := (splitWhile_append p t).symm
  mem := mem_someOf.2 ⟨h, fun _ hc ↦ List.mem_takeWhile_imp hc⟩
  length_le s hs hpre :=
    (longest_splitWhile p t).length_le s (mem_kstar_oneOf.2 (mem_someOf.1 hs).2) hpre

theorem longest_digits {digits tail : Text} (hne : digits ≠ [])
    (h : splitWhile p (digits ++ tail) = (digits, tail)) :
    Longest (someOf p) (digits ++ tail) digits tail := by
  have hdigits := @longest_someOf p (digits ++ tail)
  rw [h] at hdigits
  exact hdigits hne

/-- One that is empty shows that there is none. -/
theorem lacks_someOf (h : (splitWhile p t).1 = []) : Lacks (someOf p) t := by
  intro s hs hpre
  obtain ⟨hne, hall⟩ := mem_someOf.1 hs
  have hle := (longest_splitWhile p t).length_le s (mem_kstar_oneOf.2 hall) hpre
  rw [h] at hle
  exact hne (List.length_eq_zero_iff.1 (Nat.le_zero.1 hle))

/-- A character of some is taken if it is there. -/
theorem longest_splitOne (cs : List Char) (t : Text) :
    Longest (optional (anyOf cs)) t (splitOne cs t).1 (splitOne cs t).2 := by
  cases t with
  | nil => exact (Lacks.anyOf rfl).longest_optional
  | cons c t =>
    rw [splitOne]
    split
    · rename_i hc
      exact (Longest.oneOf (decide_eq_true hc) t).optional
    · rename_i hc
      exact (Lacks.anyOf (t := c :: t) (decide_eq_false hc)).longest_optional

/-- Digits are taken with the sign in front of them. -/
theorem longest_signed (h : (splitWhile Char.isDigit (splitOne ['+', '-'] t).2).1 ≠ []) :
    Longest signed t
      ((splitOne ['+', '-'] t).1 ++ (splitWhile Char.isDigit (splitOne ['+', '-'] t).2).1)
      (splitWhile Char.isDigit (splitOne ['+', '-'] t).2).2 :=
  (longest_splitOne _ t).mul (longest_someOf h) (stopsAt_sign (by decide)) (.someOf fun _ ↦ id)

/-- A sign without digits is no number. -/
theorem lacks_signed (h : (splitWhile Char.isDigit (splitOne ['+', '-'] t).2).1 = []) :
    Lacks signed t :=
  (longest_splitOne _ t).lacks_mul (lacks_someOf h) (stopsAt_sign (by decide)) (.someOf fun _ ↦ id)

/-! ### Exponents -/

/-- An exponent is read where there is one, as far as it goes. -/
theorem longest_exponent {letters : List Char} {e : Text × Text}
    (h : exponent? letters t = some e) : Longest (exponents letters) t e.1 e.2 := by
  cases t with
  | nil => cases h
  | cons c t =>
    rw [exponent?, Option.ite_none_right_eq_some] at h
    obtain ⟨⟨hc, hdigits⟩, heq⟩ := h
    obtain rfl := Option.some.inj heq
    exact (Longest.oneOf (decide_eq_true hc) t).mul (longest_signed hdigits) .oneOf (.any _)

/-- A letter starts an exponent if there are digits behind it. -/
theorem exponent?_cons_eq_none_iff {letters : List Char} {c : Char} (hc : c ∈ letters) :
    exponent? letters (c :: t) = none ↔ Lacks signed t := by
  rw [exponent?, ite_eq_right_iff]
  constructor
  · intro h
    refine lacks_signed (by_contra fun hdigits ↦ ?_)
    cases h ⟨hc, hdigits⟩
  · rintro h ⟨-, hdigits⟩
    exact absurd h (longest_signed hdigits).not_lacks

/-- Without digits there is no exponent, even if its letter is there. -/
theorem lacks_exponent {letters : List Char} (h : exponent? letters t = none) :
    Lacks (exponents letters) t := by
  cases t with
  | nil => exact Lacks.mul_left (.anyOf rfl)
  | cons c t =>
    by_cases hc : c ∈ letters
    · exact (Longest.anyOf hc t).lacks_mul ((exponent?_cons_eq_none_iff hc).1 h) .oneOf (.any _)
    · exact (Lacks.anyOf (t := c :: t) (decide_eq_false hc)).mul_left

/-- An exponent is taken as a whole or not at all. -/
theorem longest_optional_exponent (letters : List Char) (t : Text) :
    Longest (optional (exponents letters)) t ((exponent? letters t).getD ([], t)).1
      ((exponent? letters t).getD ([], t)).2 := by
  cases h : exponent? letters t with
  | some e => exact (longest_exponent h).optional
  | none => exact (lacks_exponent h).longest_optional

/-! ### Decimal numbers -/

/-- The digits of a fraction, its exponent and its suffix are taken in this order. -/
theorem longest_splitFraction
    (hdigits : Longest D t (splitWhile Char.isDigit t).1 (splitWhile Char.isDigit t).2)
    (hstop : StopsAt D fun c ↦ decide (c ∈ ['e', 'E', 'f', 'h'])) :
    Longest (fractions D) t (splitFraction t).1 (splitFraction t).2 := by
  have hexponent : StopsAt (optional (exponents ['e', 'E'])) fun c ↦ decide (c ∈ ['f', 'h']) :=
    stopsAt_exponents.optional (p := fun c ↦ decide (c ∈ ['e', 'E'])) (.anyOf_mul (by decide))
      (apart_of_all (by decide))
  have hbehind := (longest_optional_exponent ['e', 'E'] (splitWhile Char.isDigit t).2).mul
    (longest_splitOne ['f', 'h'] _) hexponent (StartsIn.oneOf fun _ ↦ id).optional
  have hstart : StartsIn (optional (exponents ['e', 'E']) * optional (anyOf ['f', 'h']))
      fun c ↦ decide (c ∈ ['e', 'E', 'f', 'h']) :=
    .mul (.optional (.anyOf_mul (by decide))) (.optional (.anyOf (by decide)))
  rw [splitFraction]
  exact hdigits.mul hbehind hstop hstart

/-- What a scan finds at the start of a text is the longest word of the language that stands there,
or nothing if there is none, and it only breaks as it is said to. -/
def Finds (L : Language Char) (breaks : Prop) (t : Text) : Scan → Prop
  | matched s rest => Longest L t s rest
  | missed => Lacks L t
  | broken notes => notes = [] ∧ breaks

namespace Finds

variable {L : Language Char} {breaks : Prop} {x : Scan} {s rest : Text} {notes : List Note}

/-- A number is matched if it is found and nothing is broken off. -/
theorem matched_iff (h : Finds L breaks t x) (hbreaks : breaks → x = broken []) :
    x = matched s rest ↔ Longest L t s rest ∧ ¬breaks := by
  constructor
  · rintro rfl
    exact ⟨h, fun hb ↦ nomatch hbreaks hb⟩
  · rintro ⟨hlongest, hnot⟩
    cases x with
    | matched s' rest' =>
      obtain ⟨rfl, rfl⟩ := Longest.unique h hlongest
      rfl
    | missed => exact absurd h hlongest.not_lacks
    | broken notes => exact absurd h.2 hnot

/-- It is missed if there is none. -/
theorem missed_iff (h : Finds L breaks t x) (hbreaks : breaks → ¬Lacks L t) :
    x = missed ↔ Lacks L t := by
  constructor
  · rintro rfl
    exact h
  · intro hlacks
    cases x with
    | matched s rest => exact absurd hlacks (Longest.not_lacks h)
    | missed => rfl
    | broken notes => exact absurd hlacks (hbreaks h.2)

/-- It is broken if what was begun cannot be finished. -/
theorem broken_iff (h : Finds L breaks t x) (hbreaks : breaks → x = broken []) :
    x = broken notes ↔ notes = [] ∧ breaks := by
  constructor
  · rintro rfl
    exact h
  · rintro ⟨rfl, hb⟩
    exact hbreaks hb

end Finds

theorem lacks_point {L : Language Char} (h : t.head? ≠ some '.') : Lacks (anyOf ['.'] * L) t := by
  refine Lacks.mul_left (.anyOf ?_)
  cases t with
  | nil => rfl
  | cons c t => exact decide_eq_false fun hc ↦ h (congrArg some (List.mem_singleton.1 hc))

/-- A number that starts with digits does not start with a point. -/
theorem lacks_point_of_digits {L : Language Char} {digits tail : Text} (hpoint : p '.' = false)
    (hne : digits ≠ []) (h : splitWhile p (digits ++ tail) = (digits, tail)) :
    Lacks (anyOf ['.'] * L) (digits ++ tail) := by
  refine lacks_point fun hhead ↦ ?_
  obtain ⟨c, digits, rfl⟩ := List.exists_cons_of_ne_nil hne
  have hc := (splitWhile_eq_iff.1 h).1 c List.mem_cons_self
  rw [Option.some.inj hhead, hpoint] at hc
  cases hc

/-- Behind a point there is a fraction, perhaps an empty one. -/
theorem longest_tail_point (rest : Text) :
    Longest decimalTails ('.' :: rest) ('.' :: (splitFraction rest).1) (splitFraction rest).2 := by
  have hfraction := longest_splitFraction (longest_splitWhile Char.isDigit rest)
    (.kstar (apart_of_all_symm (by decide)))
  exact ((Longest.anyOf (List.mem_singleton_self _) rest).mul hfraction .oneOf (.any _)).add_left
    (.add (.mul_left (.mul_left (.anyOf rfl))) (.add (.anyOf rfl) (.anyOf rfl)))

/-- Without a point there may be an exponent. -/
theorem longest_tail_exponent {e : Text × Text} (h : exponent? ['e', 'E'] t = some e)
    (hpoint : t.head? ≠ some '.') :
    Longest decimalTails t (e.1 ++ (splitOne ['f', 'h'] e.2).1) (splitOne ['f', 'h'] e.2).2 := by
  have hexponent := longest_exponent h
  have hlacks : Lacks (anyOf ['f', 'h'] + anyOf ['i', 'u']) t :=
    hexponent.lacks_of_starts (p := fun c ↦ decide (c ∈ ['e', 'E']))
      (q := fun c ↦ decide (c ∈ ['f', 'h', 'i', 'u'])) (.anyOf_mul (by decide))
      (.add (.anyOf (by decide)) (.anyOf (by decide))) (apart_of_all (by decide))
      nil_notMem_anyOf_mul (nil_notMem_add nil_notMem_oneOf nil_notMem_oneOf)
  have hsuffixed := hexponent.mul (longest_splitOne ['f', 'h'] e.2) stopsAt_exponents
    (StartsIn.oneOf fun _ ↦ id).optional
  exact (hsuffixed.add_left hlacks).add_right (lacks_point hpoint)

/-- Without either there may be a suffix alone. -/
theorem longest_tail_suffix (h : exponent? ['e', 'E'] t = none) (hpoint : t.head? ≠ some '.') :
    Longest (optional decimalTails) t (splitOne ['f', 'h', 'i', 'u'] t).1
      (splitOne ['f', 'h', 'i', 'u'] t).2 := by
  have hsuffix := longest_splitOne ['f', 'h', 'i', 'u'] t
  have happend : anyOf ['f', 'h', 'i', 'u'] = anyOf ['f', 'h'] + anyOf ['i', 'u'] :=
    anyOf_append ['f', 'h'] ['i', 'u']
  rw [happend] at hsuffix
  exact (hsuffix.optional_add_right (lacks_exponent h).mul_left).optional_add_right
    (lacks_point hpoint)

/-- A decimal number that starts with digits. -/
theorem finds_decimal_digits {digits tail : Text} (hne : digits ≠ [])
    (hsplit : splitWhile Char.isDigit (digits ++ tail) = (digits, tail)) :
    Finds decimals False (digits ++ tail) (decimal (digits ++ tail)) := by
  have hdigits := longest_digits hne hsplit
  have hstop : StopsAt (someOf Char.isDigit)
      fun c ↦ decide (c ∈ ['.', 'e', 'E', 'f', 'h', 'i', 'u']) :=
    .someOf (apart_of_all_symm (by decide))
  have hfinds {s rest : Text} (h : Longest (optional decimalTails) tail s rest) :
      Longest decimals (digits ++ tail) (digits ++ s) rest :=
    (hdigits.mul h hstop startsIn_decimalTails.optional).add_left
      (lacks_point_of_digits (by decide) hne hsplit)
  by_cases hpoint : tail.head? = some '.'
  · obtain ⟨rest, rfl⟩ := List.head?_eq_some_iff.1 hpoint
    rw [decimal_point hsplit, if_neg fun h ↦ hne h.1]
    exact hfinds (longest_tail_point rest).optional
  · rw [decimal_whole hsplit hpoint, if_neg hne]
    split
    · rename_i e hexp
      exact hfinds (longest_tail_exponent hexp hpoint).optional
    · rename_i hexp
      exact hfinds (longest_tail_suffix hexp hpoint)

/-- A decimal number that does not start with digits starts with a point and digits. -/
theorem finds_decimal_point (hsplit : splitWhile Char.isDigit t = ([], t)) :
    Finds decimals False t (decimal t) := by
  have hlacks : Lacks (someOf Char.isDigit * optional decimalTails) t :=
    (lacks_someOf (by rw [hsplit])).mul_left
  by_cases hpoint : t.head? = some '.'
  · obtain ⟨rest, rfl⟩ := List.head?_eq_some_iff.1 hpoint
    have hmark := Longest.anyOf (List.mem_singleton_self '.') rest
    have hdecimal := @decimal_point [] _ hsplit
    rw [List.nil_append] at hdecimal
    rw [hdecimal]
    split
    · rename_i hnone
      have hnone := lacks_someOf (splitWhile_eq_nil_iff.2 hnone.2)
      exact hlacks.add (hmark.lacks_mul hnone.mul_left .oneOf (.any _))
    · rename_i hsome
      have hdigits : (splitWhile Char.isDigit rest).1 ≠ [] :=
        fun hnil ↦ hsome ⟨rfl, splitWhile_eq_nil_iff.1 hnil⟩
      have hfraction := longest_splitFraction (longest_someOf hdigits)
        (.someOf (apart_of_all_symm (by decide)))
      exact (hmark.mul hfraction .oneOf (.any _)).add_right hlacks
  · have hdecimal := @decimal_whole [] _ hsplit hpoint
    rw [List.nil_append, if_pos rfl] at hdecimal
    rw [hdecimal]
    exact hlacks.add (lacks_point hpoint)

/-- Decimal numbers are found by these rules, and none is broken off. -/
theorem finds_decimal (t : Text) : Finds decimals False t (decimal t) := by
  have ht := splitWhile_append Char.isDigit t
  generalize hsplit : splitWhile Char.isDigit t = whole at ht
  obtain ⟨digits, tail⟩ := whole
  subst ht
  by_cases hne : digits = []
  · subst hne
    exact finds_decimal_point hsplit
  · exact finds_decimal_digits hne hsplit

/-! ### Hexadecimal numbers -/

section

variable {mark digits fraction tail rest behind : Text}

theorem longest_marks (hmark : mark ∈ marks) (t : Text) : Longest marks (mark ++ t) mark t := by
  obtain ⟨-, ⟨c, hc, rfl⟩, -, ⟨d, hd, rfl⟩, rfl⟩ := Language.mem_mul.1 hmark
  exact (Longest.oneOf hc ([d] ++ t)).mul (.oneOf hd t) .oneOf (.any _)

/-- Behind the mark the longest body makes the longest number. -/
theorem longest_marked {s : Text} (hmark : mark ∈ marks) (h : Longest hexBodies t s rest) :
    Longest hexadecimals (mark ++ t) (mark ++ s) rest :=
  (longest_marks hmark t).mul h stopsAt_marks (.any _)

/-- Without a body the mark is no number. -/
theorem lacks_marked (hmark : mark ∈ marks) (h : Lacks hexBodies t) :
    Lacks hexadecimals (mark ++ t) :=
  (longest_marks hmark t).lacks_mul h stopsAt_marks (.any _)

/-- A hexadecimal number that starts with digits. -/
theorem longest_hexBody {s : Text} (hne : digits ≠ [])
    (hsplit : splitWhile isHexDigit (digits ++ tail) = (digits, tail))
    (h : Longest (optional hexTails) tail s rest) :
    Longest hexBodies (digits ++ tail) (digits ++ s) rest := by
  have hstop : StopsAt (someOf isHexDigit) fun c ↦ decide (c ∈ ['i', 'u', 'p', 'P', '.']) :=
    .someOf (apart_of_all_symm (by decide))
  exact ((longest_digits hne hsplit).mul h hstop startsIn_hexTails.optional).add_left
    (lacks_point_of_digits (by decide) hne hsplit)

/-- A suffix ends a hexadecimal number. -/
theorem longest_hexBody_suffix (hne : digits ≠ [])
    (hsplit : splitWhile isHexDigit (digits ++ tail) = (digits, tail))
    (hsuffix : tail.head?.any (fun c ↦ decide (c ∈ ['i', 'u'])) = true) :
    Longest hexBodies (digits ++ tail) (digits ++ (splitOne ['i', 'u'] tail).1)
      (splitOne ['i', 'u'] tail).2 := by
  have hstart : StartsIn
      (binaryExponents + anyOf ['.'] * ((oneOf isHexDigit)∗ * optional binaryExponents))
      fun c ↦ decide (c ∈ ['p', 'P', '.']) :=
    .add (startsIn_binaryExponents (by decide)) (.anyOf_mul (by decide))
  have hapart : ∀ c, decide (c ∈ ['i', 'u']) = true → decide (c ∈ ['p', 'P', '.']) = false :=
    apart_of_all (by decide)
  have hlacks := Lacks.of_head? (t := tail) hstart
    (nil_notMem_add (nil_notMem_mul nil_notMem_anyOf_mul) nil_notMem_anyOf_mul) <| by
      cases tail with
      | nil => cases hsuffix
      | cons c tail => exact hapart c hsuffix
  exact longest_hexBody hne hsplit ((longest_splitOne ['i', 'u'] tail).optional_add_left hlacks)

/-- Without a point and a suffix there may be an exponent. -/
theorem longest_hexBody_exponent {s : Text} (hne : digits ≠ [])
    (hsplit : splitWhile isHexDigit (digits ++ tail) = (digits, tail))
    (hpoint : tail.head? ≠ some '.')
    (hsuffix : tail.head?.any (fun c ↦ decide (c ∈ ['i', 'u'])) = false)
    (h : Longest (optional binaryExponents) tail s rest) :
    Longest hexBodies (digits ++ tail) (digits ++ s) rest :=
  longest_hexBody hne hsplit
    ((h.optional_add_left (lacks_point hpoint)).optional_add_right (.anyOf hsuffix))

/-- A hexadecimal number with a point. -/
theorem longest_hexBody_point {s : Text} (hne : ¬(digits = [] ∧ fraction = []))
    (hsplit : splitWhile isHexDigit (digits ++ '.' :: tail) = (digits, '.' :: tail))
    (hfraction : splitWhile isHexDigit tail = (fraction, behind))
    (h : Longest (optional binaryExponents) behind s rest) :
    Longest hexBodies (digits ++ '.' :: tail) (digits ++ '.' :: fraction ++ s) rest := by
  have hmark := Longest.anyOf (List.mem_singleton_self '.') tail
  have hstart : StartsIn (optional binaryExponents) fun c ↦ decide (c ∈ ['p', 'P']) :=
    (startsIn_binaryExponents (by decide)).optional
  have hapart : ∀ c, isHexDigit c = true → decide (c ∈ ['p', 'P']) = false :=
    apart_of_all_symm (by decide)
  obtain rfl : fraction ++ behind = tail := by
    have htail := splitWhile_append isHexDigit tail
    rwa [hfraction] at htail
  by_cases hdigits : digits = []
  · subst hdigits
    have hdigits := longest_digits (fun h ↦ hne ⟨rfl, h⟩) hfraction
    refine (hmark.mul (hdigits.mul h (.someOf hapart) hstart) .oneOf (.any _)).add_right ?_
    exact (Lacks.of_head? (.someOf fun _ ↦ id) nil_notMem_someOf rfl).mul_left
  · have hdigits' := longest_splitWhile isHexDigit (fraction ++ behind)
    rw [hfraction] at hdigits'
    have htail : Longest hexTails ('.' :: (fraction ++ behind)) ('.' :: (fraction ++ s)) rest :=
      ((hmark.mul (hdigits'.mul h (.kstar hapart) hstart) .oneOf (.any _)).add_right
        (.mul_left (.mul_left (.anyOf rfl)))).add_right (.anyOf rfl)
    rw [List.append_assoc, List.cons_append]
    exact longest_hexBody hdigits hsplit htail.optional

/-- A mantissa is digits, with a point in any place if there is one. -/
theorem mem_mantissas_iff {s : Text} :
    s ∈ mantissas ↔ (s ≠ [] ∧ ∀ c ∈ s, isHexDigit c = true) ∨
      ∃ digits fraction, s = digits ++ '.' :: fraction ∧ (∀ c ∈ digits, isHexDigit c = true) ∧
        (∀ c ∈ fraction, isHexDigit c = true) ∧ ¬(digits = [] ∧ fraction = []) := by
  have hpoint : ['.'] ∈ anyOf ['.'] := singleton_mem_oneOf (by decide)
  have of_point {s : Text} (hs : s ∈ anyOf ['.']) : s = ['.'] := by
    obtain ⟨c, hc, rfl⟩ := hs
    rw [List.mem_singleton.1 (of_decide_eq_true hc)]
  constructor
  · rintro (hs | hs)
    · obtain ⟨digits, hdigits, more, hmore, rfl⟩ := Language.mem_mul.1 hs
      obtain ⟨hne, hdigits⟩ := mem_someOf.1 hdigits
      rcases hmore with rfl | hmore
      · rw [List.append_nil]
        exact .inl ⟨hne, hdigits⟩
      · obtain ⟨mark, hmark, fraction, hfraction, rfl⟩ := Language.mem_mul.1 hmore
        rw [of_point hmark]
        exact .inr ⟨digits, fraction, rfl, hdigits, mem_kstar_oneOf.1 hfraction, fun h ↦ hne h.1⟩
    · obtain ⟨mark, hmark, fraction, hfraction, rfl⟩ := Language.mem_mul.1 hs
      obtain ⟨hne, hfraction⟩ := mem_someOf.1 hfraction
      rw [of_point hmark]
      exact .inr ⟨[], fraction, rfl, List.forall_mem_nil _, hfraction, fun h ↦ hne h.2⟩
  · rintro (hs | ⟨digits, fraction, rfl, hdigits, hfraction, hne⟩)
    · exact .inl (Language.mem_mul.2 ⟨s, mem_someOf.2 hs, [], .inl rfl, List.append_nil s⟩)
    · by_cases hnil : digits = []
      · subst hnil
        exact .inr (Language.mem_mul.2
          ⟨['.'], hpoint, fraction, mem_someOf.2 ⟨fun h ↦ hne ⟨rfl, h⟩, hfraction⟩, rfl⟩)
      · exact .inl (Language.append_mem_mul (mem_someOf.2 ⟨hnil, hdigits⟩)
          (.inr (Language.append_mem_mul hpoint (mem_kstar_oneOf.2 hfraction))))

/-- An exponent behind a number without suffix may be missing, but not be half-written. -/
theorem finds_binaryExponent {number : Text} (hnumber : number ∈ marks * mantissas)
    (h : ∀ s rest, Longest (optional binaryExponents) behind s rest →
      Longest hexadecimals (number ++ behind) (number ++ s) rest) :
    Finds hexadecimals (HalfWritten (number ++ behind)) (number ++ behind)
      (binaryExponent number behind) := by
  rw [binaryExponent]
  split
  · rename_i e hexp
    exact h _ _ ((longest_exponent hexp).mul (longest_splitOne ['f', 'h'] e.2) stopsAt_exponents
      (StartsIn.oneOf fun _ ↦ id).optional).optional
  · rename_i hexp
    split
    · rename_i hletter
      cases behind with
      | nil => cases hletter
      | cons letter behind =>
        have hletter : letter ∈ ['p', 'P'] := of_decide_eq_true hletter
        exact ⟨rfl, number, hnumber, letter, hletter, behind, rfl,
          (exponent?_cons_eq_none_iff hletter).1 hexp⟩
    · have hlacks : Lacks binaryExponents behind := (lacks_exponent hexp).mul_left
      have hnone := h [] behind hlacks.longest_optional
      rwa [List.append_nil] at hnone

/-- Behind a mark hexadecimal numbers are found, and an exponent may be broken off. -/
theorem finds_hexDigits (hmark : mark ∈ marks) (t : Text) :
    Finds hexadecimals (HalfWritten (mark ++ t)) (mark ++ t) (hexDigits mark t) := by
  have ht := splitWhile_append isHexDigit t
  generalize hsplit : splitWhile isHexDigit t = whole at ht
  obtain ⟨digits, tail⟩ := whole
  subst ht
  obtain ⟨hdigits, -⟩ := splitWhile_eq_iff.1 hsplit
  -- with a point behind the digits the number is longer than without
  by_cases hpoint : tail.head? = some '.'
  · obtain ⟨tail, rfl⟩ := List.head?_eq_some_iff.1 hpoint
    rw [hexDigits_point mark hsplit]
    have htail := splitWhile_append isHexDigit tail
    generalize hfraction : splitWhile isHexDigit tail = behind at htail
    obtain ⟨fraction, behind⟩ := behind
    subst htail
    split
    · rename_i hnil
      obtain ⟨rfl, rfl⟩ := hnil
      have hnone : Lacks (someOf isHexDigit) ([] ++ behind) := lacks_someOf (by rw [hfraction])
      exact lacks_marked hmark (.add (lacks_someOf (by rw [hsplit])).mul_left
        ((Longest.anyOf (List.mem_singleton_self '.') _).lacks_mul hnone.mul_left .oneOf (.any _)))
    · rename_i hne
      have hnumber := mem_mantissas_iff.2
        (.inr ⟨digits, fraction, rfl, hdigits, (splitWhile_eq_iff.1 hfraction).1, hne⟩)
      have hfinds := @finds_binaryExponent behind _
        (Language.append_mem_mul hmark hnumber) fun s rest h ↦ by
          have hbody := longest_marked hmark (longest_hexBody_point hne hsplit hfraction h)
          simpa using hbody
      simpa using hfinds
  · rw [hexDigits_whole mark hsplit hpoint]
    split
    · rename_i hnil
      subst hnil
      exact lacks_marked hmark (.add (lacks_someOf (by rw [hsplit])).mul_left (lacks_point hpoint))
    · rename_i hne
      split
      · rename_i hsuffix
        exact longest_marked hmark (longest_hexBody_suffix hne hsplit hsuffix)
      · rename_i hsuffix
        have hnumber := mem_mantissas_iff.2 (.inl ⟨hne, hdigits⟩)
        have hfinds := @finds_binaryExponent tail _
          (Language.append_mem_mul hmark hnumber) fun s rest h ↦ by
            have hbody := longest_marked hmark (longest_hexBody_exponent hne hsplit hpoint
              (Bool.eq_false_iff.2 hsuffix) h)
            simpa using hbody
        simpa using hfinds

theorem mem_marks_iff : mark ∈ marks ↔ mark = ['0', 'x'] ∨ mark = ['0', 'X'] := by
  constructor
  · intro h
    obtain ⟨-, ⟨c, hc, rfl⟩, -, ⟨d, hd, rfl⟩, rfl⟩ := Language.mem_mul.1 h
    have hd : d ∈ ['x', 'X'] := of_decide_eq_true hd
    rw [List.mem_singleton.1 (of_decide_eq_true hc)]
    simpa using hd
  · rintro (rfl | rfl)
    · exact Language.append_mem_mul (a := ['0']) (singleton_mem_oneOf (by decide))
        (singleton_mem_oneOf (by decide))
    · exact Language.append_mem_mul (a := ['0']) (singleton_mem_oneOf (by decide))
        (singleton_mem_oneOf (by decide))

/-- Hexadecimal numbers are found by these rules. -/
theorem finds_hexadecimal (t : Text) : Finds hexadecimals (HalfWritten t) t (hexadecimal t) := by
  rw [hexadecimal.eq_def]
  split
  · exact finds_hexDigits (mem_marks_iff.2 (.inl rfl)) _
  · exact finds_hexDigits (mem_marks_iff.2 (.inr rfl)) _
  · rename_i hlower hupper
    refine Lacks.mul_left ?_
    rintro mark hmark ⟨rest, rfl⟩
    rcases mem_marks_iff.1 hmark with rfl | rfl
    · exact hlower rest rfl
    · exact hupper rest rfl

/-- The letter of an exponent behind a mantissa commits the rule to it. -/
theorem hexDigits_of_mantissa {number : Text} {letter : Char} (mark : Text)
    (hnumber : number ∈ mantissas) (hletter : letter ∈ ['p', 'P']) (h : Lacks signed behind) :
    hexDigits mark (number ++ letter :: behind) = broken [] := by
  have hbroken (number : Text) : binaryExponent number (letter :: behind) = broken [] := by
    rw [binaryExponent, (exponent?_cons_eq_none_iff hletter).2 h]
    exact if_pos (decide_eq_true hletter)
  have hletter' : isHexDigit letter = false ∧ letter ≠ '.' ∧ letter ∉ ['i', 'u'] := by
    simp only [List.mem_cons, List.not_mem_nil, or_false] at hletter
    rcases hletter with rfl | rfl <;> decide
  obtain ⟨hhex, hpoint, hsuffix⟩ := hletter'
  have hhead : (letter :: behind).head?.any isHexDigit = false := hhex
  rcases mem_mantissas_iff.1 hnumber with
    ⟨hne, hdigits⟩ | ⟨digits, fraction, rfl, hdigits, hfraction, hne⟩
  · have hsplit := splitWhile_eq_iff.2 ⟨hdigits, hhead⟩
    have hsuffixed : ¬(letter :: behind).head?.any (fun c ↦ decide (c ∈ ['i', 'u'])) = true :=
      fun hany ↦ hsuffix (of_decide_eq_true hany)
    rw [hexDigits_whole mark hsplit fun hhead ↦ hpoint (Option.some.inj hhead), if_neg hne,
      if_neg hsuffixed, hbroken]
  · have hsplit := splitWhile_eq_iff.2 ⟨hfraction, hhead⟩
    have hsplit' : splitWhile isHexDigit (digits ++ '.' :: (fraction ++ letter :: behind)) =
        (digits, '.' :: (fraction ++ letter :: behind)) := splitWhile_eq_iff.2 ⟨hdigits, rfl⟩
    rw [List.append_assoc, List.cons_append, hexDigits_point mark hsplit', hsplit, if_neg hne,
      hbroken]

/-- A number that breaks off in its exponent is broken. -/
theorem hexadecimal_of_halfWritten (h : HalfWritten t) : hexadecimal t = broken [] := by
  obtain ⟨number, hnumber, letter, hletter, behind, rfl, hlacks⟩ := h
  obtain ⟨mark, hmark, mantissa, hmantissa, rfl⟩ := Language.mem_mul.1 hnumber
  rw [List.append_assoc]
  rcases mem_marks_iff.1 hmark with rfl | rfl
  · exact hexDigits_of_mantissa _ hmantissa hletter hlacks
  · exact hexDigits_of_mantissa _ hmantissa hletter hlacks

example : hexadecimal ['0', 'x', '1', '.', 'p', '+'] = broken [] := by decide

/-- What is in front of the letter is a number by itself. -/
theorem not_lacks_of_halfWritten (h : HalfWritten t) : ¬Lacks hexadecimals t := by
  obtain ⟨number, hnumber, letter, -, behind, rfl, -⟩ := h
  obtain ⟨mark, hmark, mantissa, hmantissa, rfl⟩ := Language.mem_mul.1 hnumber
  have hbody : mantissa ∈ hexBodies := by
    rcases hmantissa with hmantissa | hmantissa
    · obtain ⟨digits, hdigits, more, hmore, rfl⟩ := Language.mem_mul.1 hmantissa
      refine .inl (Language.append_mem_mul hdigits ?_)
      rcases hmore with rfl | hmore
      · exact .inl rfl
      · obtain ⟨mark, hmark, fraction, hfraction, rfl⟩ := Language.mem_mul.1 hmore
        exact .inr (.inr (.inr (Language.append_mem_mul hmark
          (Language.mem_mul.2 ⟨fraction, hfraction, [], .inl rfl, List.append_nil _⟩))))
    · obtain ⟨mark, hmark, fraction, hfraction, rfl⟩ := Language.mem_mul.1 hmantissa
      exact .inr (Language.append_mem_mul hmark
        (Language.mem_mul.2 ⟨fraction, hfraction, [], .inl rfl, List.append_nil _⟩))
  exact fun hlacks ↦ hlacks _ (Language.append_mem_mul hmark hbody) (List.prefix_append _ _)

end

/-! ### Main statement -/

/-- A number is the longest prefix of the text that is a literal of its sort. The rule for decimal
numbers never breaks, and the one for hexadecimal numbers does at half-written exponents only. -/
theorem literals_are_longest (t : Text) :
    ((∀ s rest, decimal t = matched s rest ↔ Longest decimals t s rest) ∧
      (decimal t = missed ↔ Lacks decimals t) ∧ ∀ notes, decimal t ≠ broken notes) ∧
    (∀ s rest, hexadecimal t = matched s rest ↔ Longest hexadecimals t s rest ∧ ¬HalfWritten t) ∧
      (hexadecimal t = missed ↔ Lacks hexadecimals t) ∧
      ∀ notes, hexadecimal t = broken notes ↔ notes = [] ∧ HalfWritten t := by
  have hdecimal := finds_decimal t
  have hhex := finds_hexadecimal t
  refine ⟨⟨fun s rest ↦ ?_, hdecimal.missed_iff False.elim, fun notes hbroken ↦ ?_⟩,
    fun s rest ↦ hhex.matched_iff hexadecimal_of_halfWritten,
    hhex.missed_iff not_lacks_of_halfWritten,
    fun notes ↦ hhex.broken_iff hexadecimal_of_halfWritten⟩
  · rw [hdecimal.matched_iff False.elim, not_false_eq_true, and_true]
  · exact ((hdecimal.broken_iff False.elim).1 hbroken).2

end Scan

end ShaderLink
