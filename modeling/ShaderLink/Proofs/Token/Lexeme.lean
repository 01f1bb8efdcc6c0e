import ShaderLink.Token.Lexicon

/-!
# Lexemes are prefixes

Whatever a lexical rule makes of a text, it only splits it: the lexeme is not empty, and lexeme and
rest together are the text (`Scan.Splits`). The rules are built from a few pieces that split off a
beginning, which may be empty, so most proofs below put the equations of these pieces together.

Reading one token of a lexicon then advances the cursor by the lexeme, and the token's span is the
stretch that was passed.
-/

namespace ShaderLink

namespace Scan

/-- A scan of `t` that matches splits `t`, and its lexeme is not empty. -/
def Splits (t : Text) (s : Scan) : Prop :=
  ∀ lexeme rest, s = matched lexeme rest → lexeme ++ rest = t ∧ lexeme ≠ []

variable {t : Text}

theorem splits_matched {lexeme rest : Text} (h : lexeme ++ rest = t) (hne : lexeme ≠ []) :
    Splits t (matched lexeme rest) := by
  intro lexeme' rest' heq
  obtain ⟨rfl, rfl⟩ := matched.inj heq
  exact ⟨h, hne⟩

theorem splits_missed : Splits t missed :=
  fun _ _ h ↦ nomatch h

theorem splits_broken (notes : List Note) : Splits t (broken notes) :=
  fun _ _ h ↦ nomatch h

/-- An alternative splits the text if both of its sides do. -/
theorem Splits.orElse {first second : Scan} (hf : Splits t first) (hs : Splits t second) :
    Splits t (first.orElse second) := by
  cases first with
  | missed => exact hs
  | matched lexeme rest => exact hf
  | broken notes => exact splits_broken notes

/-! ### Pieces -/

/-- Splitting at the end of a run loses nothing. -/
@[simp] theorem splitWhile_append (p : Char → Bool) (t : Text) :
    (splitWhile p t).1 ++ (splitWhile p t).2 = t :=
  List.takeWhile_append_dropWhile

@[simp] theorem splitOne_append (cs : List Char) (t : Text) :
    (splitOne cs t).1 ++ (splitOne cs t).2 = t := by
  cases t with
  | nil => rfl
  | cons c t =>
    rw [splitOne]
    split <;> rfl

/-- An exponent splits off its letter, its sign and its digits. -/
theorem exponent?_append {letters : List Char} {t : Text} {e : Text × Text}
    (h : exponent? letters t = some e) : e.1 ++ e.2 = t := by
  cases t with
  | nil => simp [exponent?] at h
  | cons c t =>
    simp only [exponent?, Option.ite_none_right_eq_some] at h
    obtain ⟨-, heq⟩ := h
    obtain rfl := Option.some.inj heq
    simp

/-- A missing exponent splits off nothing. -/
theorem exponent?_getD_append (letters : List Char) (t : Text) :
    ((exponent? letters t).getD ([], t)).1 ++ ((exponent? letters t).getD ([], t)).2 = t := by
  cases h : exponent? letters t with
  | none => rfl
  | some e => exact exponent?_append h

/-- Without a point the fraction is empty. -/
@[simp] theorem splitFraction_append (t : Text) :
    (splitFraction t).1 ++ (splitFraction t).2 = t := by
  simp only [splitFraction, List.append_assoc, splitOne_append, exponent?_getD_append,
    splitWhile_append]

/-! ### Layout and words -/

theorem splits_one (p : Char → Bool) (t : Text) : Splits t (one p t) := by
  cases t with
  | nil => exact splits_missed
  | cons c t =>
    rw [one]
    split
    · exact splits_matched rfl (by simp)
    · exact splits_missed

/-- A run is only found if it is not empty. -/
theorem splits_run (p : Char → Bool) (t : Text) : Splits t (run p t) := by
  cases t with
  | nil => exact splits_missed
  | cons c t =>
    rw [run]
    split
    · exact splits_matched (by simp [List.takeWhile_append_dropWhile]) (by simp)
    · exact splits_missed

theorem splits_literal {lexeme : String} (hne : lexeme.toList ≠ []) (t : Text) :
    Splits t (literal lexeme t) := by
  simp only [literal, Text.dropPrefix?]
  split
  · rename_i rest h
    obtain ⟨hpre, rfl⟩ : lexeme.toList.isPrefixOf t ∧ t.drop lexeme.toList.length = rest := by
      simpa using h
    obtain ⟨behind, rfl⟩ := List.isPrefixOf_iff_prefix.1 hpre
    exact splits_matched (by rw [List.drop_left]) hne
  · exact splits_missed

theorem splits_newLine (t : Text) : Splits t (newLine t) := by
  unfold newLine
  split
  · exact splits_matched rfl (by simp)
  · exact splits_one _ _

/-- A line comment has its two slashes at least. -/
theorem splits_lineComment (t : Text) : Splits t (lineComment t) := by
  unfold lineComment
  split
  · exact splits_matched (by simp) (by simp)
  · exact splits_missed

/-- What closes a comment and what stands behind it are what was left to read. -/
theorem closeComment_append (t : Text) :
    ∀ p, closeComment t = some p → p.1.1 ++ p.1.2 = t := by
  fun_induction closeComment t with
  | case1 => simp
  | case2 t => simp
  | case3 t h ih => simp
  | case4 => simp
  | case5 => simp_all
  | case6 => simp
  | case7 => simp_all

/-- A block comment starts with the signs that open it. -/
theorem splits_blockComment (t : Text) : Splits t (blockComment t) := by
  unfold blockComment
  split
  · split
    · rename_i p hp
      exact splits_matched (by simp [closeComment_append _ p hp]) (by simp)
    · exact splits_broken _
  · exact splits_missed

/-- An identifier has its first character at least. -/
theorem splits_identifier (t : Text) : Splits t (identifier t) := by
  cases t with
  | nil => exact splits_missed
  | cons c t =>
    have hmatch : Splits (c :: t)
        (matched (c :: (splitWhile isIdentifierRest t).1) (splitWhile isIdentifierRest t).2) :=
      splits_matched (by simp) (by simp)
    simp only [identifier]
    split
    · split
      · exact splits_missed
      · exact hmatch
    · split
      · exact hmatch
      · exact splits_missed

/-! ### Numbers -/

/-- A run of characters that is not empty makes no empty lexeme. -/
theorem append_ne_nil_of_isEmpty {s : Text} (h : ¬s.isEmpty = true) (s' : Text) :
    s ++ s' ≠ [] := by
  intro hnil
  exact h (List.isEmpty_iff.2 (List.append_eq_nil_iff.1 hnil).1)

theorem splits_decimal (t : Text) : Splits t (decimal t) := by
  have hwhole := splitWhile_append Char.isDigit t
  simp only [decimal]
  split
  · rename_i rest hrest
    rw [hrest] at hwhole
    split
    · exact splits_missed
    · exact splits_matched (by simp [hwhole]) (by simp)
  · split
    · exact splits_missed
    · rename_i hne
      split
      · rename_i exponent hexp
        refine splits_matched ?_ (append_ne_nil_of_isEmpty hne _)
        rw [List.append_assoc, List.append_assoc, splitOne_append, exponent?_append hexp, hwhole]
      · refine splits_matched ?_ (append_ne_nil_of_isEmpty hne _)
        rw [List.append_assoc, splitOne_append, hwhole]

/-- What has been read of the number stands in front of the exponent. -/
theorem splits_binaryExponent (read : Text) (hne : read ≠ []) (t : Text) :
    Splits (read ++ t) (binaryExponent read t) := by
  rw [binaryExponent]
  split
  · rename_i exponent hexp
    refine splits_matched ?_ (by simp [hne])
    rw [List.append_assoc, List.append_assoc, splitOne_append, exponent?_append hexp]
  · split
    · exact splits_broken _
    · exact splits_matched rfl hne

/-- The mark of a hexadecimal number stands in front of its digits. -/
theorem splits_hexDigits (mark : Text) (hne : mark ≠ []) (t : Text) :
    Splits (mark ++ t) (hexDigits mark t) := by
  have hwhole := splitWhile_append isHexDigit t
  simp only [hexDigits]
  split
  · rename_i rest hrest
    rw [hrest] at hwhole
    split
    · exact splits_missed
    · have hread := splits_binaryExponent
        (mark ++ ((splitWhile isHexDigit t).1 ++ '.' :: (splitWhile isHexDigit rest).1))
        (by simp [hne]) (splitWhile isHexDigit rest).2
      rwa [List.append_assoc, List.append_assoc, List.cons_append, splitWhile_append,
        hwhole] at hread
  · split
    · exact splits_missed
    · split
      · refine splits_matched ?_ (by simp [hne])
        rw [List.append_assoc, List.append_assoc, splitOne_append, hwhole]
      · have hread := splits_binaryExponent (mark ++ (splitWhile isHexDigit t).1)
          (by simp [hne]) (splitWhile isHexDigit t).2
        rwa [List.append_assoc, hwhole] at hread

/-- Numbers are hexadecimal or decimal. -/
theorem splits_number (t : Text) : Splits t (number t) := by
  refine Splits.orElse ?_ (splits_decimal t)
  unfold hexadecimal
  split
  · exact splits_hexDigits ['0', 'x'] (by simp) _
  · exact splits_hexDigits ['0', 'X'] (by simp) _
  · exact splits_missed

end Scan

/-! ### Lexicons -/

namespace Lexicon

open Scan

theorem splits_symbol {lexemes : List String} (h : ∀ lexeme ∈ lexemes, lexeme.toList ≠ [])
    (symbols : List Char) (t : Text) : Splits t (symbol lexemes symbols t) := by
  induction lexemes with
  | nil => exact splits_one _ _
  | cons lexeme lexemes ih =>
    refine (splits_literal (h lexeme List.mem_cons_self) t).orElse (ih fun l hl ↦ ?_)
    exact h l (List.mem_cons_of_mem _ hl)

/-- The number sign is part of the lexeme. -/
theorem splits_directiveWord (t : Text) : Splits t (directiveWord t) := by
  unfold directiveWord
  split
  · rename_i t
    have hword := splits_identifier t
    split
    · rename_i lexeme rest heq
      exact splits_matched (by simp [(hword lexeme rest heq).1]) (by simp)
    · rename_i other hother
      cases hscan : identifier t with
      | matched lexeme rest => exact absurd hscan (hother lexeme rest)
      | missed => exact splits_missed
      | broken notes => exact splits_broken notes
  · exact splits_missed

/-- Every rule of both lexicons splits every text. -/
theorem splits_rule (l : Lexicon) (t : Text) : ∀ rule ∈ l.rules, Splits t (rule.2 t) := by
  cases l with
  | shader =>
    simp only [rules, List.forall_mem_cons, List.not_mem_nil, false_imp_iff, implies_true,
      and_true]
    exact ⟨splits_run _ t, (splits_lineComment t).orElse (splits_blockComment t),
      splits_directiveWord t, splits_number t, splits_identifier t,
      splits_symbol (by decide) _ t⟩
  | directive =>
    simp only [rules, List.forall_mem_cons, List.not_mem_nil, false_imp_iff, implies_true,
      and_true]
    exact ⟨splits_run _ t, splits_lineComment t, splits_newLine t,
      (splits_literal (by decide) t).orElse (splits_literal (by decide) t), splits_number t,
      splits_identifier t, splits_symbol (by decide) _ t⟩

end Lexicon

namespace Cursor

/-- `next` is the cursor behind the lexeme that `token` is and that starts at `c`. -/
def Passes (c : Cursor) (token : Token) (next : Cursor) : Prop :=
  ∃ lexeme, c.rest = lexeme ++ next.rest ∧ lexeme ≠ [] ∧ next.offset = c.offset + lexeme.size ∧
    token.span = ⟨c.offset, lexeme.size⟩ ∧ token.text = String.ofList lexeme

theorem passes_of_splits {c next : Cursor} {kind : TokenKind} {token : Token} (lexeme rest : Text)
    (h : lexeme ++ rest = c.rest) (hne : lexeme ≠ [])
    (hread : c.read kind lexeme rest = (token, next)) : c.Passes token next := by
  obtain ⟨rfl, rfl⟩ := Prod.mk.inj hread
  exact ⟨lexeme, h.symm, hne, rfl, rfl, rfl⟩

/-- Whichever rule finds the token, the cursor passes its lexeme. Where none does, it passes a
single character. -/
theorem passes_of_lexWith {c next : Cursor} {token : Token}
    {rules : List (TokenKind × (Text → Scan))}
    (hrules : ∀ rule ∈ rules, Scan.Splits c.rest (rule.2 c.rest))
    (h : c.lexWith rules = .token token next) : c.Passes token next := by
  induction rules with
  | nil =>
    rw [lexWith] at h
    split at h
    · cases h
    · rename_i char rest hrest
      obtain ⟨rfl, rfl⟩ := Lexed.token.inj h
      exact passes_of_splits [char] rest hrest.symm (by simp) rfl
  | cons rule rules ih =>
    obtain ⟨kind, rule⟩ := rule
    rw [lexWith] at h
    split at h
    · rename_i lexeme rest hscan
      obtain ⟨hsplit, hne⟩ := hrules (kind, rule) List.mem_cons_self lexeme rest hscan
      obtain ⟨rfl, rfl⟩ := Lexed.token.inj h
      exact passes_of_splits lexeme rest hsplit hne rfl
    · exact ih (fun r hr ↦ hrules r (List.mem_cons_of_mem _ hr)) h
    · cases h

/-- Reading only comes to an end where nothing is left. -/
theorem rest_eq_nil_of_lexWith {c : Cursor} {rules : List (TokenKind × (Text → Scan))}
    (h : c.lexWith rules = .finished) : c.rest = [] := by
  induction rules with
  | nil =>
    rw [lexWith] at h
    split at h
    · assumption
    · cases h
  | cons rule rules ih =>
    obtain ⟨kind, rule⟩ := rule
    rw [lexWith] at h
    split at h
    · cases h
    · exact ih h
    · cases h

end Cursor

/-- Reading a token passes its lexeme. -/
theorem Lexicon.passes_of_lex {l : Lexicon} {c next : Cursor} {token : Token}
    (h : l.lex c = .token token next) : c.Passes token next :=
  Cursor.passes_of_lexWith (l.splits_rule c.rest) h

end ShaderLink
