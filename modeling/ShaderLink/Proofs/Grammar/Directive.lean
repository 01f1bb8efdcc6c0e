import ShaderLink.Import.Syntax
import ShaderLink.Proofs.Grammar.Tokens

/-!
# Tokens of directives

The rest of a directive's line has a lexicon of its own, in which `./` and `//` compete with the
separators `.` and `/`, and a point with the numbers that start with one. What a lexeme must not
stand in front of to be read is said lexeme by lexeme (`Lexeme.Leads`). A text that is spelled out
lexeme by lexeme, with blanks wherever two of them would run together (`Spaced`), is then read one
lexeme at a time (`Cursor.Step`).
-/

namespace ShaderLink

theorem toNat_of_isDigit {c : Char} (h : c.isDigit = true) : 48 ≤ c.toNat ∧ c.toNat ≤ 57 := by
  simpa [Char.isDigit, UInt32.le_iff_toNat_le] using h

/-- No visible ASCII character is a blank. -/
theorem isBlank_eq_false_of_toNat {c : Char} (h : 33 ≤ c.toNat) (h' : c.toNat ≤ 126) :
    isBlank c = false := by
  simp only [isBlank, inRanges, blankRanges, List.any_cons, List.any_nil, Bool.or_eq_false_iff,
    Bool.and_eq_false_iff, decide_eq_false_iff_not, and_true]
  omega

/-- Numbers are made of visible ASCII characters behind the asterisk. -/
theorem toNat_of_isNumeric {c : Char} (h : Scan.isNumeric c = true) :
    43 ≤ c.toNat ∧ c.toNat ≤ 122 := by
  rw [Scan.isNumeric, Bool.or_eq_true, Scan.isHexDigit, Bool.or_eq_true, Bool.or_eq_true] at h
  rcases h with ((h | h) | h) | h
  · have := toNat_of_isDigit h
    omega
  · have h : 97 ≤ c.toNat ∧ c.toNat ≤ 102 := by simpa [Char.le_def, UInt32.le_iff_toNat_le] using h
    omega
  · have h : 65 ≤ c.toNat ∧ c.toNat ≤ 70 := by simpa [Char.le_def, UInt32.le_iff_toNat_le] using h
    omega
  · have hall : ['.', '+', '-', 'x', 'X', 'p', 'P', 'h', 'i', 'u'].all
        (fun d ↦ 43 ≤ d.toNat ∧ d.toNat ≤ 122) = true := by decide
    exact of_decide_eq_true (List.all_eq_true.1 hall c (of_decide_eq_true h))

/-- All characters are blanks that do not break the line. -/
def Text.IsSpacing (t : Text) : Prop :=
  ∀ c ∈ t, isBlank c = true ∧ isLineBreak c = false

/-- Something that may stand behind a separator starts here. -/
def Text.GoesOn (t : Text) : Prop :=
  t.head?.any isBlank = true ∨ t.StartsWord ∨ t.head? = some '*' ∨ t.head? = some '\x7b'

/-- The text is a single line break. A carriage return and the line feed behind it are one. -/
def Text.IsLineBreak (t : Text) : Prop :=
  t = ['\r', '\n'] ∨ ∃ c, isLineBreak c = true ∧ t = [c]

/-- What may stand behind a separator starts with nothing that the separator could be part of. -/
theorem Text.GoesOn.any_eq_false {t : Text} (h : t.GoesOn) :
    t.head?.any (fun c ↦ c == '/' || c == '.' || c.isDigit) = false := by
  cases t with
  | nil => rfl
  | cons c t =>
    refine Bool.eq_false_iff.2 fun hc ↦ ?_
    have hbounds : 46 ≤ c.toNat ∧ c.toNat ≤ 57 := by
      have hc : (c = '/' ∨ c = '.') ∨ c.isDigit = true := by simpa using hc
      rcases hc with (rfl | rfl) | hc
      · decide
      · decide
      · have := toNat_of_isDigit hc
        omega
    rcases h with h | (h | ⟨rfl, -⟩) | h | h
    · exact Bool.eq_false_iff.1 (isBlank_eq_false_of_toNat (by omega) (by omega)) h
    · have := isIdentifierStart_cases h
      omega
    · exact absurd hbounds (by decide)
    · rw [Option.some.inj h] at hbounds
      exact absurd hbounds (by decide)
    · rw [Option.some.inj h] at hbounds
      exact absurd hbounds (by decide)

namespace Scan

variable {p : Char → Bool} {s t : Text}

theorem run_eq_missed_iff : run p t = missed ↔ t.head?.any p = false := by
  cases t with
  | nil => exact iff_of_true rfl rfl
  | cons c t =>
    rw [run]
    split
    · rename_i hc
      exact iff_of_false (fun h ↦ by cases h) (by simp [hc])
    · rename_i hc
      exact iff_of_true rfl (Bool.eq_false_iff.2 hc)

theorem run_eq_matched {rest : Text} (hne : s ≠ []) (hs : ∀ c ∈ s, p c = true)
    (hrest : rest.head?.any p = false) : run p (s ++ rest) = matched s rest := by
  obtain ⟨c, s, rfl⟩ := List.exists_cons_of_ne_nil hne
  obtain ⟨hc, hs⟩ := List.forall_mem_cons.1 hs
  obtain ⟨htake, hdrop⟩ := Prod.mk.inj (splitWhile_eq_iff.2 ⟨hs, hrest⟩)
  rw [List.cons_append, run, if_pos hc, htake, hdrop]

theorem newLine_eq_missed (h : t.head?.any isLineBreak = false) : newLine t = missed := by
  rw [newLine.eq_def]
  split
  · cases h
  · cases t with
    | nil => rfl
    | cons c t => exact if_neg (Bool.eq_false_iff.1 h)

/-- A marker of a relative path starts with a point. -/
theorem relativePrefix_eq_missed (h : t.head? ≠ some '.') :
    (literal "../" t).orElse (literal "./" t) = missed := by
  cases t with
  | nil => rfl
  | cons c t =>
    have hc : '.' ≠ c := fun heq ↦ h (congrArg some heq.symm)
    simp [literal, Text.dropPrefix?, orElse, hc]

/-- Behind the point of a marker stands another one or a slash. -/
theorem relativePrefix_point_eq_missed (h : t.head? ≠ some '.') (h' : t.head? ≠ some '/') :
    (literal "../" ('.' :: t)).orElse (literal "./" ('.' :: t)) = missed := by
  cases t with
  | nil => rfl
  | cons c t =>
    have hc : '.' ≠ c := fun heq ↦ h (congrArg some heq.symm)
    have hc' : '/' ≠ c := fun heq ↦ h' (congrArg some heq.symm)
    simp [literal, Text.dropPrefix?, orElse, hc, hc']

/-- A number starts with a digit, or with a point and a digit. -/
theorem head_of_number {rest : Text} (h : number t = matched s rest) :
    t.head?.any Char.isDigit = true ∨ ∃ behind, t = '.' :: behind ∧
      behind.head?.any Char.isDigit = true := by
  by_contra hnot
  rw [not_or, Bool.not_eq_true, not_exists] at hnot
  have hmissed : number t = missed := number_eq_missed_iff.2 (decimal_eq_missed_iff.2
    ⟨hnot.1, fun behind hbehind ↦ Bool.eq_false_iff.2 fun hdigit ↦ hnot.2 behind ⟨hbehind, hdigit⟩⟩)
  cases hmissed.symm.trans h

end Scan

namespace Lexeme

variable {x : Lexeme} {s w rest : Text}

/-- In a directive, the lexeme is read in front of the text. -/
def Leads (x : Lexeme) (rest : Text) : Prop :=
  x.FoundBy rest Lexicon.directive.rules

theorem Leads.lex (h : x.Leads rest) (offset : Nat) :
    Lexicon.directive.lex ⟨x.text ++ rest, offset⟩ =
      .token (x.token offset) ⟨rest, offset + x.text.size⟩ :=
  FoundBy.lexWith h offset

/-- Blanks are read up to what is no blank. -/
theorem leads_spacing (hne : s ≠ []) (hs : s.IsSpacing)
    (hrest : rest.head?.any (fun c ↦ isBlank c && !isLineBreak c) = false) :
    (⟨.space, s⟩ : Lexeme).Leads rest :=
  .inl ⟨rfl, Scan.run_eq_matched hne (fun c hc ↦ by simp [hs c hc]) hrest⟩

/-- Blanks go on up to a lexeme that is not one. -/
theorem Leads.head?_any_spacing (h : x.Leads rest) (hkind : x.kind ≠ .space) :
    (x.text ++ rest).head?.any (fun c ↦ isBlank c && !isLineBreak c) = false := by
  rcases h with ⟨hspace, -⟩ | ⟨hmissed, -⟩
  · exact absurd hspace hkind
  · exact Scan.run_eq_missed_iff.1 hmissed

/-- Where no blank, no comment and no marker can start, only numbers, words and symbols are
tried. -/
theorem leads_of_head
    (hhead : ∀ c ∈ (x.text ++ rest).head?, isBlank c = false ∧ c ≠ '/' ∧ c ≠ '.')
    (h : x.FoundBy rest [(.number, Scan.number), (.word, Scan.identifier),
      (.symbol, Lexicon.symbol ["::"] Lexicon.directiveSymbols)]) : x.Leads rest := by
  have hany {p : Char → Bool} (hp : ∀ c, p c = true → isBlank c = true) :
      (x.text ++ rest).head?.any p = false := by
    cases hc : (x.text ++ rest).head? with
    | none => rfl
    | some c => exact Bool.eq_false_iff.2 fun hpc ↦
        Bool.eq_false_iff.1 (hhead c hc).1 (hp c hpc)
  refine .inr ⟨Scan.run_eq_missed_iff.2 (hany fun c hc ↦ (Bool.and_eq_true_iff.1 hc).1), .inr ⟨?_,
    .inr ⟨Scan.newLine_eq_missed (hany fun c ↦ isBlank_of_isLineBreak), .inr
      ⟨Scan.relativePrefix_eq_missed fun hpoint ↦ (hhead _ hpoint).2.2 rfl, h⟩⟩⟩⟩
  refine Scan.lineComment_eq_missed_iff.2 ?_
  rintro ⟨behind, heq⟩
  exact (hhead '/' (by rw [heq]; rfl)).2.1 rfl

/-- An identifier is a word in front of what it cannot go on with. -/
theorem leads_word (hw : w.IsIdentifier) (hrest : rest.head?.any isIdentifierRest = false) :
    (⟨.word, w⟩ : Lexeme).Leads rest := by
  have hstarts : (w ++ rest).StartsWord := hw.1.append rest
  refine leads_of_head (fun c hc ↦ ?_) (.inr ⟨(missed_of_startsWord hstarts).2.2.2,
    .inl ⟨rfl, identifier_of_isIdentifier hw hrest⟩⟩)
  obtain ⟨behind, heq⟩ := List.head?_eq_some_iff.1 hc
  have hstart : isIdentifierStart c = true ∨ c = '_' := by
    rw [show w ++ rest = c :: behind from heq] at hstarts
    exact hstarts.imp_right And.left
  have hne {d : Char} (hd : isIdentifierStart d = false ∧ d ≠ '_') : c ≠ d := by
    rintro rfl
    rcases hstart with hstart | rfl
    · simp [hd.1] at hstart
    · exact hd.2 rfl
  refine ⟨?_, hne (by decide), hne (by decide)⟩
  rcases hstart with hstart | rfl
  · exact isBlank_eq_false hstart
  · decide

/-- A number is read in front of what it cannot go on with. -/
theorem leads_number (hs : Scan.number s = .matched s [])
    (hrest : rest.head?.any Scan.isNumeric = false) : (⟨.number, s⟩ : Lexeme).Leads rest := by
  have hnumber : Scan.number (s ++ rest) = .matched s rest :=
    Scan.number_of_alike (Scan.alike_of_any rfl hrest) rfl (by rwa [List.append_nil])
  rcases Scan.head_of_number hnumber with hdigit | ⟨behind, heq, hdigit⟩
  · refine leads_of_head (fun c hc ↦ ?_) (.inl ⟨rfl, hnumber⟩)
    have hc' : c.isDigit = true := by
      rw [show (s ++ rest).head? = some c from hc] at hdigit
      exact hdigit
    have hbounds := toNat_of_isDigit hc'
    refine ⟨isBlank_eq_false_of_toNat (by omega) (by omega), ?_, ?_⟩ <;> rintro rfl <;>
      exact absurd hc' (by decide)
  · have hne {c : Char} (hc : c.isDigit = false) : behind.head? ≠ some c := by
      intro hhead
      rw [hhead] at hdigit
      exact Bool.eq_false_iff.1 hc hdigit
    have hmissed := Scan.relativePrefix_point_eq_missed (hne (by decide : '.'.isDigit = false))
      (hne (by decide : '/'.isDigit = false))
    show Lexeme.FoundBy _ _ _
    refine .inr ⟨?_, .inr ⟨?_, .inr ⟨?_, .inr ⟨?_, .inl ⟨rfl, hnumber⟩⟩⟩⟩⟩ <;> rw [heq]
    · rfl
    · rfl
    · rfl
    · exact hmissed

/-- The symbols that no other lexeme starts with. -/
def plainSymbols : List String :=
  ["::", "(", ")", ",", "\x7b", "\x7d", "*", ";"]

theorem leads_plain {s : String} (hs : s ∈ plainSymbols) (rest : Text) : (symbol s).Leads rest := by
  simp only [plainSymbols, List.mem_cons, List.not_mem_nil, or_false] at hs
  rcases hs with rfl | rfl | rfl | rfl | rfl | rfl | rfl | rfl <;>
    exact .inr ⟨rfl, .inr ⟨rfl, .inr ⟨rfl, .inr ⟨rfl, .inr ⟨rfl, .inr ⟨rfl, .inl ⟨rfl, rfl⟩⟩⟩⟩⟩⟩⟩

/-- A separator is read in front of what may stand behind it. -/
theorem leads_separator {s : String} (hs : s ∈ ["/", "::", "."]) (hrest : rest.GoesOn) :
    (symbol s).Leads rest := by
  have hne {c : Char} (hc : (c == '/' || c == '.' || c.isDigit) = true) : rest.head? ≠ some c := by
    intro hhead
    have hany := hrest.any_eq_false
    rw [hhead] at hany
    exact Bool.eq_false_iff.1 hany hc
  have hslash : rest.head? ≠ some '/' := hne (by decide)
  have hpoint : rest.head? ≠ some '.' := hne (by decide)
  simp only [List.mem_cons, List.not_mem_nil, or_false] at hs
  rcases hs with rfl | rfl | rfl
  · have hcomment : Scan.lineComment ('/' :: rest) = .missed := by
      refine Scan.lineComment_eq_missed_iff.2 ?_
      rintro ⟨behind, heq⟩
      exact hslash (by rw [(List.cons.inj heq).2]; rfl)
    exact .inr ⟨rfl, .inr ⟨hcomment, .inr ⟨rfl, .inr ⟨rfl, .inr ⟨rfl, .inr ⟨rfl,
      .inl ⟨rfl, rfl⟩⟩⟩⟩⟩⟩⟩
  · exact leads_plain (by decide) rest
  · have hnumber : Scan.number ('.' :: rest) = .missed := by
      refine Scan.number_eq_missed_iff.2 (Scan.decimal_eq_missed_iff.2 ⟨rfl, fun behind heq ↦ ?_⟩)
      rw [← (List.cons.inj heq).2]
      cases hhead : rest.head? with
      | none => rfl
      | some c =>
        refine Bool.eq_false_iff.2 fun hc ↦ hne ?_ hhead
        rw [Bool.or_eq_true]
        exact .inr hc
    exact .inr ⟨rfl, .inr ⟨rfl, .inr ⟨rfl, .inr ⟨Scan.relativePrefix_point_eq_missed hpoint hslash,
      .inr ⟨hnumber, .inr ⟨rfl, .inl ⟨rfl, rfl⟩⟩⟩⟩⟩⟩⟩

/-- A marker of a relative path as a lexeme. -/
def marker (s : String) : Lexeme :=
  ⟨.relativePrefix, s.toList⟩

theorem leads_marker {s : String} (hs : s ∈ ["./", "../"]) (rest : Text) :
    (marker s).Leads rest := by
  simp only [List.mem_cons, List.not_mem_nil, or_false] at hs
  rcases hs with rfl | rfl <;> exact .inr ⟨rfl, .inr ⟨rfl, .inr ⟨rfl, .inl ⟨rfl, rfl⟩⟩⟩⟩

theorem leads_lineBreak (hs : s.IsLineBreak) (hrest : s = ['\r'] → rest.head? ≠ some '\n') :
    (⟨.lineBreak, s⟩ : Lexeme).Leads rest := by
  rcases hs with rfl | ⟨c, hc, rfl⟩
  · exact .inr ⟨rfl, .inr ⟨rfl, .inl ⟨rfl, rfl⟩⟩⟩
  · have hspace : Scan.run (fun c ↦ isBlank c && !isLineBreak c) (c :: rest) = .missed :=
      Scan.run_eq_missed_iff.2 (by simp [hc])
    have hcomment : Scan.lineComment (c :: rest) = .missed := by
      refine Scan.lineComment_eq_missed_iff.2 ?_
      rintro ⟨behind, heq⟩
      rw [(List.cons.inj heq).1] at hc
      exact absurd hc (by decide)
    refine .inr ⟨hspace, .inr ⟨hcomment, .inl ⟨rfl, ?_⟩⟩⟩
    show Scan.newLine (c :: rest) = .matched [c] rest
    rw [Scan.newLine.eq_def]
    split
    · rename_i behind heq
      obtain ⟨rfl, rfl⟩ := List.cons.inj heq
      exact absurd rfl (hrest rfl)
    · exact if_pos hc

end Lexeme

instance (x : Lexeme) (s : String) : Decidable (x.Is s) :=
  inferInstanceAs (Decidable (_ ∧ _))

/-! ### Texts spelled out -/

/-- The lexeme does not run together with the text behind it. -/
def Lexeme.Apart (x : Lexeme) (rest : Text) : Prop :=
  (x.kind = .word → rest.head?.any isIdentifierRest = false) ∧
    (x.text = ['\r'] → rest.head? ≠ some '\n')

instance (x : Lexeme) (rest : Text) : Decidable (x.Apart rest) :=
  inferInstanceAs (Decidable (_ ∧ _))

/-- The text is that of the lexemes, perhaps with blanks between them. Between lexemes that would
run together there are some. -/
def Spaced : List Lexeme → Text → Prop
  | [], t => t.IsSpacing
  | x :: xs, t => ∃ spacing rest, t = spacing ++ (x.text ++ rest) ∧ spacing.IsSpacing ∧
    x.Apart rest ∧ Spaced xs rest

namespace Lexeme

variable {x y : Lexeme} {xs ys : List Lexeme} {s rest : Text}

theorem Apart.append (h : x.Apart rest) {r : Text} (hr : r.head?.any isIdentifierRest = false)
    (hr' : r.head? ≠ some '\n') : x.Apart (rest ++ r) := by
  cases rest with
  | nil => exact ⟨fun _ ↦ hr, fun _ ↦ hr'⟩
  | cons c rest => exact h

/-- The lexeme may stand behind a separator. -/
def Opens (x : Lexeme) : Prop :=
  ∀ rest, (x.text ++ rest).GoesOn

/-- The lexeme can be told apart from those behind it. -/
inductive Stands : Lexeme → List Lexeme → Prop
  | word {w : Text} {xs : List Lexeme} (hw : w.IsIdentifier) : Stands ⟨.word, w⟩ xs
  | number {s : Text} {y : Lexeme} {ys : List Lexeme} (hs : Scan.number s = .matched s [])
    (hy : y = symbol "," ∨ y = symbol ")") : Stands ⟨.number, s⟩ (y :: ys)
  | plain {s : String} {xs : List Lexeme} (hs : s ∈ plainSymbols) : Stands (symbol s) xs
  | separator {s : String} {y : Lexeme} {ys : List Lexeme} (hs : s ∈ ["/", "::", "."])
    (hy : y.Opens) : Stands (symbol s) (y :: ys)
  | marker {s : String} {xs : List Lexeme} (hs : s ∈ ["./", "../"]) : Stands (marker s) xs
  | lineBreak {s : Text} {xs : List Lexeme} (hs : s.IsLineBreak) : Stands ⟨.lineBreak, s⟩ xs

/-- A text that is spelled out starts with its first lexeme, or with blanks. -/
theorem head?_of_spaced (h : Spaced (y :: ys) rest) :
    rest.head?.any isBlank = true ∨ ∃ behind, rest = y.text ++ behind := by
  obtain ⟨spacing, behind, rfl, hspacing, -⟩ := h
  cases spacing with
  | nil => exact .inr ⟨behind, rfl⟩
  | cons c spacing => exact .inl (hspacing c List.mem_cons_self).1

/-- In a text that is spelled out, a lexeme is read where it stands. -/
theorem Stands.leads (h : Stands x xs) (hspaced : Spaced xs rest) (hapart : x.Apart rest) :
    x.Leads rest := by
  cases h with
  | word hw => exact leads_word hw (hapart.1 rfl)
  | number hs hy =>
    refine leads_number hs ?_
    have hnot {c : Char} (hc : c.toNat < 43 ∨ c = ',') : Scan.isNumeric c = false := by
      rcases hc with hc | rfl
      · refine Bool.eq_false_iff.2 fun hnumeric ↦ ?_
        have := toNat_of_isNumeric hnumeric
        omega
      · decide
    rcases head?_of_spaced hspaced with hblank | ⟨behind, rfl⟩
    · cases rest with
      | nil => rfl
      | cons c rest =>
        refine Bool.eq_false_iff.2 fun hnumeric ↦ ?_
        have hbounds := toNat_of_isNumeric hnumeric
        have hblank : isBlank c = true := hblank
        rw [isBlank_eq_false_of_toNat (by omega) (by omega)] at hblank
        cases hblank
    · rcases hy with rfl | rfl
      · exact hnot (.inr rfl)
      · exact hnot (.inl (by decide))
  | plain hs => exact leads_plain hs rest
  | separator hs hy =>
    refine leads_separator hs ?_
    rcases head?_of_spaced hspaced with hblank | ⟨behind, rfl⟩
    · exact .inl hblank
    · exact hy behind
  | marker hs => exact leads_marker hs rest
  | lineBreak hs => exact leads_lineBreak hs hapart.2

theorem Stands.kept (h : Stands x xs) : Lexicon.directive.ignores x.kind = false := by
  cases h <;> rfl

end Lexeme

namespace Spaced

variable {x : Lexeme} {xs ys : List Lexeme} {s t u : Text}

theorem cons {rest : Text} (h : Spaced xs rest) (hs : s.IsSpacing) (hx : x.Apart rest) :
    Spaced (x :: xs) (s ++ (x.text ++ rest)) :=
  ⟨s, rest, rfl, hs, hx, h⟩

/-- Without blanks in front, the text starts with the first lexeme. -/
theorem cons_next {rest : Text} (hx : x.Apart rest) (h : Spaced xs rest) :
    Spaced (x :: xs) (x.text ++ rest) :=
  h.cons (List.forall_mem_nil _) hx

/-- There may be blanks in front. -/
theorem behind (hs : s.IsSpacing) (h : Spaced xs t) : Spaced xs (s ++ t) := by
  cases xs with
  | nil => exact List.forall_mem_append.2 ⟨hs, h⟩
  | cons x xs =>
    obtain ⟨spacing, rest, rfl, hspacing, hrest⟩ := h
    exact ⟨s ++ spacing, rest, (List.append_assoc _ _ _).symm,
      List.forall_mem_append.2 ⟨hs, hspacing⟩, hrest⟩

/-- Texts are spelled out one behind the other if nothing runs together between them. -/
theorem append (h : Spaced xs t) (h' : Spaced ys u) (hu : u.head?.any isIdentifierRest = false)
    (hu' : u.head? ≠ some '\n') : Spaced (xs ++ ys) (t ++ u) := by
  induction xs generalizing t with
  | nil => exact h'.behind h
  | cons x xs ih =>
    obtain ⟨spacing, rest, rfl, hspacing, hapart, hxs⟩ := h
    exact ⟨spacing, rest ++ u, by simp only [List.append_assoc], hspacing, hapart.append hu hu',
      ih hxs⟩

theorem length_le (h : Spaced xs t) (hxs : ∀ x ∈ xs, x.text ≠ []) : xs.length ≤ t.length := by
  induction xs generalizing t with
  | nil => exact Nat.zero_le _
  | cons x xs ih =>
    obtain ⟨spacing, rest, rfl, -, -, hrest⟩ := h
    obtain ⟨hx, hxs⟩ := List.forall_mem_cons.1 hxs
    have hpos := List.length_pos_iff.2 hx
    have hle := ih hrest hxs
    rw [List.length_cons, List.length_append, List.length_append]
    omega

/-- The text has the characters of the lexemes, and blanks. -/
theorem mem_cases (h : Spaced xs t) {c : Char} (hc : c ∈ t) :
    isBlank c = true ∨ ∃ x ∈ xs, c ∈ x.text := by
  induction xs generalizing t with
  | nil => exact .inl (h c hc).1
  | cons x xs ih =>
    obtain ⟨spacing, rest, rfl, hspacing, -, hrest⟩ := h
    rcases List.mem_append.1 hc with hc | hc
    · exact .inl (hspacing c hc).1
    · rcases List.mem_append.1 hc with hc | hc
      · exact .inr ⟨x, List.mem_cons_self, hc⟩
      · exact (ih hrest hc).imp_right fun ⟨y, hy, hcy⟩ ↦ ⟨y, List.mem_cons_of_mem x hy, hcy⟩

end Spaced

namespace Cursor

variable {c c' : Cursor} {x : Lexeme} {xs ys : List Lexeme}

/-- In a directive, the lexeme stands between the cursors, perhaps behind blanks. -/
structure Step (c : Cursor) (x : Lexeme) (c' : Cursor) : Prop where
  split : ∃ spacing : Text, c.rest = spacing ++ (x.text ++ c'.rest) ∧ spacing.IsSpacing ∧
    c'.offset = c.offset + spacing.size + x.text.size
  leads : x.Leads c'.rest
  kept : Lexicon.directive.ignores x.kind = false

/-- In a text that is spelled out, the first lexeme is next. -/
theorem exists_step (h : Spaced (x :: xs) c.rest) (hx : x.Stands xs) :
    ∃ c', c.Step x c' ∧ Spaced xs c'.rest := by
  obtain ⟨spacing, rest, hrest, hspacing, hapart, hxs⟩ := h
  exact ⟨⟨rest, c.offset + spacing.size + x.text.size⟩,
    ⟨⟨spacing, hrest, hspacing, rfl⟩, hx.leads hxs hapart, hx.kept⟩, hxs⟩

end Cursor

namespace Parser.Meets

variable {n : Nat} {c c' : Cursor} {x : Lexeme}

/-- The next lexeme of a directive is read. -/
theorem token_of_step (h : c.Step x c') (hn : 1 < n) :
    ∃ offset, (Parser.token .directive).Meets n c (.accepted (x.token offset) c') := by
  obtain ⟨⟨spacing, hrest, hspacing, hoffset⟩, hleads, hkept⟩ := h
  obtain ⟨rest, offset⟩ := c
  obtain ⟨rest', offset'⟩ := c'
  dsimp only at hrest hoffset
  subst hrest hoffset
  obtain ⟨m, rfl⟩ : ∃ m, n = m + 2 := ⟨n - 2, by omega⟩
  have hlex := hleads.lex (offset + spacing.size)
  by_cases hnil : spacing = []
  · subst hnil
    exact ⟨_, rounds.bind (tokenWithin_found hlex hkept (m + 1))⟩
  · have hspace : x.kind ≠ .space := fun hkind ↦ by simp [Lexicon.ignores, hkind] at hkept
    have hblank := (Lexeme.leads_spacing hnil hspacing (hleads.head?_any_spacing hspace)).lex offset
    exact ⟨_, rounds.bind (tokenWithin_behind hblank rfl (tokenWithin_found hlex hkept m))⟩

/-- At the end of a text there is no token of a directive. -/
theorem token_refused_of_spacing (h : c.rest.IsSpacing) (hn : 1 < n) :
    (Parser.token .directive).Meets n c .refused := by
  obtain ⟨rest, offset⟩ := c
  obtain ⟨m, rfl⟩ : ∃ m, n = m + 2 := ⟨n - 2, by omega⟩
  by_cases hnil : rest = []
  · refine rounds.bind ?_
    rw [Parser.tokenWithin]
    exact bind_refused (lex_nil hnil)
  · have hleads : (⟨.space, rest⟩ : Lexeme).Leads [] := Lexeme.leads_spacing hnil h rfl
    have hlex := hleads.lex offset
    rw [List.append_nil] at hlex
    refine rounds.bind (tokenWithin_behind hlex rfl ?_)
    rw [Parser.tokenWithin]
    exact bind_refused (lex_nil rfl)

end Parser.Meets

end ShaderLink
