import ShaderLink.Proofs.Import.Dialects
import ShaderLink.Proofs.Text.Line

/-!
# Lines that declare a path

A line may be read in two ways: as the tokens of a directive, or by trimming it and cutting it at
the separators (`ModulePath.declaredBy?`). On a line that holds a word, names with single separators
between them, and nothing behind but blanks and semicolons (`PlainDeclaration`), both ways come to
the names. The second one finds them (`PlainDeclaration.declaredBy?_line`). For the first, the names
are spelled out by lexemes (`ModulePath.Written.exists_printing`), and what stands behind them ends
the path (`PlainDeclaration.endsPath_ending`).
-/

namespace ShaderLink

open Lexeme

/-! ### Names with separators between them -/

/-- What goes on with an identifier is no blank. -/
theorem isBlank_eq_false_of_isIdentifierRest {c : Char} (h : isIdentifierRest c = true) :
    isBlank c = false := by
  rw [isIdentifierRest, Bool.or_eq_true, Bool.or_eq_true, Bool.and_eq_true, Bool.or_eq_true] at h
  rcases h with (h | h) | ⟨-, h | h⟩
  · rcases (Bool.or_eq_true _ _).mp h with hletter | hdigit
    · exact isBlank_eq_false (by rw [isIdentifierStart, hletter, Bool.true_or])
    · have hbounds : 48 ≤ c.toNat ∧ c.toNat ≤ 57 :=
        ((Bool.and_eq_true _ _).mp hdigit).imp of_decide_eq_true of_decide_eq_true
      exact isBlank_eq_false_of_toNat (by omega) (by omega)
  · rw [beq_iff_eq.1 h]
    decide
  · exact inRanges_eq_false_of_apart (by decide +kernel) h
  · exact inRanges_eq_false_of_apart (by decide +kernel) h

/-- The string is an identifier of letters, numerals and underscores. -/
def IsPlainName (s : String) : Prop :=
  IsWord s ∧ ∀ c ∈ s.toList, isAlphanumeric c = true ∨ c = '_'

instance : DecidablePred IsPlainName :=
  fun s ↦ decidable_of_iff (IsWord s ∧ (s.toList.all fun c ↦ isAlphanumeric c || c == '_') = true)
    (and_congr_right fun _ ↦ by simp)

theorem IsPlainName.isPathChar {s : String} (h : IsPlainName s) {c : Char} (hc : c ∈ s.toList) :
    ModulePath.isPathChar c = true := by
  rw [ModulePath.isPathChar, Bool.or_eq_true]
  exact (h.2 c hc).imp_right fun heq ↦ by rw [heq]; rfl

/-- The text is that of the names, with a separator between any two of them. -/
inductive ModulePath.Written : ModulePath → Text → Prop
  | last {s : String} (hs : IsPlainName s) : Written [s] s.toList
  | cons {s separator : String} {names : ModulePath} {t : Text} (hs : IsPlainName s)
    (hseparator : separator ∈ ["/", "::", "."]) (h : Written names t) :
    Written (s :: names) (s.toList ++ (separator.toList ++ t))

namespace ModulePath.Written

variable {names : ModulePath} {t : Text}

theorem startsWord (h : Written names t) : t.StartsWord := by
  cases h with
  | last hs => exact hs.1.1
  | cons hs => exact hs.1.1.append _

theorem isPathChar (h : Written names t) : ∀ c ∈ t, isPathChar c = true := by
  induction h with
  | last hs => exact fun c hc ↦ hs.isPathChar hc
  | cons hs hseparator _ ih =>
    refine List.forall_mem_append.2 ⟨fun c hc ↦ hs.isPathChar hc,
      List.forall_mem_append.2 ⟨?_, ih⟩⟩
    simp only [List.mem_cons, List.not_mem_nil, or_false] at hseparator
    rcases hseparator with rfl | rfl | rfl <;> exact List.all_eq_true.1 (by decide)

theorem length_le (h : Written names t) : 0 < names.length ∧ names.length ≤ t.length := by
  have hlength {s : String} (hs : IsPlainName s) : 0 < s.toList.length := by
    refine List.length_pos_iff.2 fun hnil ↦ ?_
    exact show Text.StartsWord [] from hnil ▸ hs.1.1
  induction h with
  | last hs => exact ⟨Nat.one_pos, hlength hs⟩
  | cons hs _ _ ih =>
    have hpos := hlength hs
    simp only [List.length_cons, List.length_append]
    omega

/-- The text ends with a character of the last name. -/
theorem isIdentifierRest_getLast? (h : Written names t) :
    ∀ c ∈ t.getLast?, isIdentifierRest c = true := by
  induction h with
  | last hs => exact fun c hc ↦ hs.1.2 c (List.mem_of_getLast? hc)
  | @cons s separator names t hs _ h ih =>
    obtain ⟨c, u, rfl⟩ : ∃ c u, t = c :: u := by
      cases t with
      | nil => exact h.startsWord.elim
      | cons c u => exact ⟨c, u, rfl⟩
    rw [← List.append_assoc, List.getLast?_append_cons]
    exact ih

/-- Cutting the text at the separators gives the names. -/
theorem ofText_eq (h : Written names t) : ofText t = names := by
  -- no separator is in a name, so that the path is cut at those between names only
  have hname {s : String} (hs : IsPlainName s) :
      ∀ c ∈ s.toList, ['/', '\\', ':', '.'].contains c = false := by
    intro c hc
    refine Bool.eq_false_iff.2 fun hcontains ↦ ?_
    have hrest := hs.1.2 c hc
    simp only [List.contains_iff_mem, List.mem_cons, List.not_mem_nil, or_false] at hcontains
    rcases hcontains with rfl | rfl | rfl | rfl <;> exact absurd hrest (by decide)
  have hfilter {s : String} (hs : IsPlainName s) (pieces : List Text) :
      ((s.toList :: pieces).filter fun piece ↦ !piece.isEmpty).map String.ofList =
        s :: (pieces.filter fun piece ↦ !piece.isEmpty).map String.ofList := by
    have hne : s.toList.isEmpty = false :=
      List.isEmpty_eq_false_iff.2 fun hnil ↦ show Text.StartsWord [] from hnil ▸ hs.1.1
    rw [List.filter_cons_of_pos (by rw [hne]; rfl), List.map_cons, String.ofList_toList]
  induction h with
  | last hs =>
    rw [ofText, Text.pieces, List.splitOnP_eq_singleton (hname hs), hfilter hs]
    rfl
  | @cons s separator names t hs hseparator h ih =>
    rw [← ih, ofText, ofText, Text.pieces, Text.pieces]
    simp only [List.mem_cons, List.not_mem_nil, or_false] at hseparator
    rcases hseparator with rfl | rfl | rfl
    · show ((List.splitOnP _ (s.toList ++ '/' :: t)).filter _).map _ = _
      rw [List.splitOnP_append_cons_of_forall_mem (hname hs) '/' rfl, hfilter hs]
    · show ((List.splitOnP _ (s.toList ++ ':' :: ':' :: t)).filter _).map _ = _
      rw [List.splitOnP_append_cons_of_forall_mem (hname hs) ':' rfl, hfilter hs]
      show s :: ((List.splitOnP _ ([] ++ ':' :: t)).filter _).map _ = _
      rw [List.splitOnP_append_cons_of_forall_mem (List.forall_mem_nil _) ':' rfl]
      rfl
    · show ((List.splitOnP _ (s.toList ++ '.' :: t)).filter _).map _ = _
      rw [List.splitOnP_append_cons_of_forall_mem (hname hs) '.' rfl, hfilter hs]

/-- The text is spelled out by the lexemes of the names, in front of what they cannot go on with. -/
theorem exists_printing (h : Written names t) : ∃ xs, NamesPrinting names xs ∧
    ∀ {ys : List Lexeme} {rest : Text}, Spaced ys rest →
      rest.head?.any isIdentifierRest = false → Spaced (xs ++ ys) (t ++ rest) := by
  have happart {s : String} (hs : IsWord s) {rest : Text}
      (hrest : rest.head?.any isIdentifierRest = false) : (word s).Apart rest := by
    refine ⟨fun _ ↦ hrest, fun heq ↦ ?_⟩
    have hbreak := hs.2 '\r' ((show s.toList = ['\r'] from heq) ▸ List.mem_cons_self)
    exact absurd hbreak (by decide)
  induction h with
  | last hs => exact ⟨_, .last hs.1, fun hys hrest ↦ .cons_next (happart hs.1 hrest) hys⟩
  | @cons s separator names t hs hseparator h ih =>
    obtain ⟨xs, hxs, hspaced⟩ := ih
    refine ⟨_, .cons hs.1 hseparator hxs, fun {ys rest} hys hrest ↦ ?_⟩
    have hbehind := hspaced hys hrest
    rw [List.append_assoc, List.append_assoc]
    simp only [List.mem_cons, List.not_mem_nil, or_false] at hseparator
    rcases hseparator with rfl | rfl | rfl <;>
      exact .cons_next (happart hs.1 rfl)
        (.cons_next ⟨nofun, fun heq ↦ absurd heq (by decide)⟩ hbehind)

end ModulePath.Written

/-! ### The end of a path -/

/-- Nothing that goes on with a path stands here. -/
def Text.EndsPath (t : Text) : Prop :=
  t.head?.any isIdentifierRest = false ∧ ∃ ys, Stops ys ∧ Spaced ys t

/-- Any text is spelled out by a lexeme that is all of it. -/
theorem Spaced.whole (t : Text) : Spaced [⟨.unknown, t⟩] t := by
  have hnil : Spaced [] [] := List.forall_mem_nil _
  have h := Spaced.cons_next (x := ⟨.unknown, t⟩) ⟨nofun, fun _ h ↦ by cases h⟩ hnil
  rwa [List.append_nil] at h

namespace Text.EndsPath

theorem nil : EndsPath [] :=
  ⟨rfl, [], stops_nil, List.forall_mem_nil _⟩

theorem semicolon (t : Text) : EndsPath (';' :: t) :=
  ⟨rfl, _, stops_symbol (by decide) _,
    .cons_next (x := symbol ";") ⟨nofun, fun heq ↦ absurd heq (by decide)⟩ (.whole t)⟩

theorem lineBreak {c : Char} (hc : isLineBreak c = true) (t : Text) : EndsPath (c :: t) := by
  have hhead : isIdentifierRest c = false := by
    refine Bool.eq_false_iff.2 fun hrest ↦ ?_
    have hblank := isBlank_of_isLineBreak hc
    rw [isBlank_eq_false_of_isIdentifierRest hrest] at hblank
    cases hblank
  refine ⟨hhead, ?_⟩
  by_cases hpair : c = '\r' ∧ t.head? = some '\n'
  · obtain ⟨rfl, hfeed⟩ := hpair
    obtain ⟨t, rfl⟩ := List.head?_eq_some_iff.1 hfeed
    exact ⟨_, stops_lineBreak (.inl rfl) _, Spaced.cons_next (x := ⟨.lineBreak, ['\r', '\n']⟩)
      ⟨nofun, fun heq ↦ absurd heq (by decide)⟩ (.whole t)⟩
  · refine ⟨_, stops_lineBreak (.inr ⟨c, hc, rfl⟩) _, Spaced.cons_next (x := ⟨.lineBreak, [c]⟩)
      ⟨nofun, fun heq hfeed ↦ hpair ⟨(List.cons.inj heq).1, hfeed⟩⟩ (.whole t)⟩

/-- Blanks end a path if there is a line break in them, or if what is behind them does. -/
theorem blanks {s t : Text} (hs : ∀ c ∈ s, isBlank c = true)
    (h : (∃ c ∈ s, isLineBreak c = true) ∨ t.EndsPath) : EndsPath (s ++ t) := by
  induction s with
  | nil => exact h.resolve_left fun ⟨c, hc, _⟩ ↦ List.not_mem_nil hc
  | cons c s ih =>
    obtain ⟨hc, hs⟩ := List.forall_mem_cons.1 hs
    by_cases hbreak : isLineBreak c = true
    · exact lineBreak hbreak (s ++ t)
    · have hbehind : EndsPath (s ++ t) := by
        refine ih hs (h.imp_left ?_)
        rintro ⟨d, hd, hd'⟩
        rcases List.mem_cons.1 hd with rfl | hd
        · exact absurd hd' hbreak
        · exact ⟨d, hd, hd'⟩
      obtain ⟨-, ys, hys, hspaced⟩ := hbehind
      have hspacing : IsSpacing [c] :=
        List.forall_mem_singleton.2 ⟨hc, Bool.eq_false_iff.2 hbreak⟩
      have hall : Spaced ys ([c] ++ (s ++ t)) := hspaced.behind hspacing
      refine ⟨Bool.eq_false_iff.2 fun hrest ↦ ?_, ys, hys, hall⟩
      rw [isBlank_eq_false_of_isIdentifierRest hrest] at hc
      cases hc

end Text.EndsPath

/-! ### Lines -/

/-- A line that declares the path of some names and does nothing else. -/
structure PlainDeclaration where
  /-- The blanks in front. -/
  indent : Text
  word : String
  /-- The blanks behind the word. -/
  spacing : Text
  names : ModulePath
  /-- The names as they are written. -/
  path : Text
  /-- The blanks in front of the semicolons. -/
  gap : Text
  semicolons : Text
  /-- The blanks behind all else. -/
  tail : Text
  word_mem : word ∈ ["module", "#module"]
  spacing_ne_nil : spacing ≠ []
  isSpacing : spacing.IsSpacing
  written : names.Written path
  indent_blank : ∀ c ∈ indent, isBlank c = true
  gap_blank : ∀ c ∈ gap, isBlank c = true
  semicolons_eq : ∀ c ∈ semicolons, c = ';'
  tail_blank : ∀ c ∈ tail, isBlank c = true

namespace PlainDeclaration

/-- What stands behind the path. -/
def ending (d : PlainDeclaration) : Text :=
  d.gap ++ (d.semicolons ++ d.tail)

/-- The line from the word on. -/
def visible (d : PlainDeclaration) : Text :=
  d.word.toList ++ (d.spacing ++ (d.path ++ d.ending))

/-- The line. -/
def line (d : PlainDeclaration) : Text :=
  d.indent ++ d.visible

variable (d : PlainDeclaration)

theorem head?_word : d.word.toList.head?.any isBlank = false ∧ d.word.toList ≠ [] := by
  have hword := d.word_mem
  simp only [List.mem_cons, List.not_mem_nil, or_false] at hword
  rcases hword with h | h <;> rw [h] <;> decide

theorem path_ne_nil : d.path ≠ [] := by
  intro hnil
  have hstarts := d.written.startsWord
  rw [hnil] at hstarts
  exact hstarts

theorem trimStart_line : d.line.trimStart = d.visible := by
  obtain ⟨hhead, hne⟩ := d.head?_word
  rw [line, Text.trimStart, List.dropWhile_append_of_pos d.indent_blank, visible]
  obtain ⟨c, w, hw⟩ := List.exists_cons_of_ne_nil hne
  rw [hw] at hhead ⊢
  exact List.dropWhile_cons_of_neg (Bool.eq_false_iff.1 hhead)

/-- The path ends with a visible character that is no semicolon. -/
theorem last_path : ∀ c ∈ d.path.getLast?, isBlank c = false ∧ (c == ';') = false := by
  intro c hc
  have hrest := d.written.isIdentifierRest_getLast? c hc
  refine ⟨isBlank_eq_false_of_isIdentifierRest hrest, beq_eq_false_iff_ne.2 ?_⟩
  rintro rfl
  exact absurd hrest (by decide)

/-- With the semicolons behind it, or nothing, the path ends with a visible character. -/
theorem last_visible {gap : Text} (hgap : d.semicolons = [] → gap = []) (s : Text) :
    ∀ c ∈ (s ++ (d.path ++ (gap ++ d.semicolons))).getLast?, isBlank c = false := by
  simp only [← List.append_assoc]
  refine Text.forall_mem_getLast?_append
    (fun c hc ↦ by rw [d.semicolons_eq c hc]; decide) fun hnil ↦ ?_
  rw [hgap hnil, List.append_nil, List.getLast?_append_of_ne_nil _ d.path_ne_nil]
  exact fun c hc ↦ (d.last_path c hc).1

/-- A line of the kind is trimmed to the word, the path and the semicolons. -/
theorem exists_trim_line : ∃ gap : Text, (∀ c ∈ gap, isBlank c = true) ∧
    (d.semicolons = [] → gap = []) ∧
    d.line.trim = d.word.toList ++ (d.spacing ++ (d.path ++ (gap ++ d.semicolons))) := by
  obtain ⟨hhead, hne⟩ := d.head?_word
  have htrim {gap tail : Text} (htail : ∀ c ∈ tail, isBlank c = true)
      (hgap : d.semicolons = [] → gap = [])
      (hending : d.ending = (gap ++ d.semicolons) ++ tail) :
      d.line.trim = d.word.toList ++ (d.spacing ++ (d.path ++ (gap ++ d.semicolons))) := by
    have hline : d.line = d.indent ++
        ((d.word.toList ++ (d.spacing ++ (d.path ++ (gap ++ d.semicolons)))) ++ tail) := by
      rw [line, visible, hending]
      simp only [List.append_assoc]
    rw [hline]
    refine Text.trim_append d.indent_blank htail ?_ ?_ (List.append_ne_nil_of_left_ne_nil hne _)
    · obtain ⟨c, w, hw⟩ := List.exists_cons_of_ne_nil hne
      rw [hw] at hhead ⊢
      exact hhead
    · rw [← List.append_assoc]
      exact d.last_visible hgap _
  by_cases hnil : d.semicolons = []
  · refine ⟨[], List.forall_mem_nil _, fun _ ↦ rfl,
      htrim (List.forall_mem_append.2 ⟨d.gap_blank, d.tail_blank⟩) (fun _ ↦ rfl) ?_⟩
    rw [ending, hnil]
    rfl
  · exact ⟨d.gap, d.gap_blank, fun h ↦ absurd h hnil, htrim d.tail_blank (fun h ↦ absurd h hnil)
      (List.append_assoc _ _ _).symm⟩

/-- The scan of the line finds the names. -/
theorem declaredBy?_line : ModulePath.declaredBy? d.line = some d.names := by
  obtain ⟨gap, hgap, hsemicolons, htrim⟩ := d.exists_trim_line
  have hpath := d.path_ne_nil
  have hspacing : ∀ c ∈ d.spacing, isBlank c = true := fun c hc ↦ (d.isSpacing c hc).1
  have hdrop {rest : Text} : (Text.dropPrefix? (d.word.toList ++ rest) "#module").orElse
      (fun _ ↦ Text.dropPrefix? (d.word.toList ++ rest) "module") = some rest := by
    have hword := d.word_mem
    simp only [List.mem_cons, List.not_mem_nil, or_false] at hword
    rcases hword with h | h <;> rw [h]
    · rw [show Text.dropPrefix? ("module".toList ++ rest) "#module" = none from rfl]
      exact Text.dropPrefix?_eq_some_iff.2 rfl
    · rw [Text.dropPrefix?_eq_some_iff.2 rfl]
      rfl
  have hrest : Text.trim (d.spacing ++ (d.path ++ (gap ++ d.semicolons))) =
      d.path ++ (gap ++ d.semicolons) := by
    have hhead : (d.path ++ (gap ++ d.semicolons)).head?.any isBlank = false :=
      (d.written.startsWord.append _).head?_any_eq_false (fun c hc ↦ isBlank_eq_false hc)
        (by decide)
    have h := Text.trim_append (t := []) hspacing (List.forall_mem_nil _) hhead
      (d.last_visible hsemicolons []) (List.append_ne_nil_of_left_ne_nil hpath _)
    rwa [List.append_nil] at h
  have hnames : Text.trimEnd
      ((d.path ++ (gap ++ d.semicolons)).reverse.dropWhile (· == ';')).reverse = d.path := by
    rw [← List.append_assoc, Text.reverse_dropWhile_append
      (fun c hc ↦ beq_iff_eq.2 (d.semicolons_eq c hc))]
    · exact Text.reverse_dropWhile_append hgap fun c hc ↦ (d.last_path c hc).1
    · refine Text.forall_mem_getLast?_append (fun c hc ↦ beq_eq_false_iff_ne.2 ?_)
        fun _ c hc ↦ (d.last_path c hc).2
      rintro rfl
      exact absurd (hgap _ hc) (by decide)
  have hblank : (d.spacing ++ (d.path ++ (gap ++ d.semicolons))).head?.any isBlank = true := by
    obtain ⟨c, spacing, hs⟩ := List.exists_cons_of_ne_nil d.spacing_ne_nil
    rw [hs] at hspacing ⊢
    exact hspacing c List.mem_cons_self
  simp only [ModulePath.declaredBy?, htrim, hdrop, hrest, hnames, Option.bind_eq_bind,
    Option.bind_some]
  rw [if_pos, d.written.ofText_eq]
  rw [Bool.and_eq_true, Bool.and_eq_true]
  refine ⟨⟨hblank, ?_⟩, List.all_eq_true.2 d.written.isPathChar⟩
  rw [Bool.not_eq_true', List.isEmpty_eq_false_iff]
  exact hpath

/-- What stands behind the path ends it, if the line ends with the text or a line feed. -/
theorem endsPath_ending {behind : Text} (h : behind = [] ∨ d.line.getLast? = some '\n') :
    Text.EndsPath (d.ending ++ behind) := by
  rw [ending, List.append_assoc]
  by_cases hnil : d.semicolons = []
  · have hblank : ∀ c ∈ d.gap ++ d.tail, isBlank c = true :=
      List.forall_mem_append.2 ⟨d.gap_blank, d.tail_blank⟩
    rw [hnil, List.nil_append, ← List.append_assoc]
    refine .blanks hblank (h.symm.imp (fun hlast ↦ ⟨'\n', ?_, rfl⟩) fun hend ↦ ?_)
    · -- the line feed at the end of the line is not the end of the path
      have hline : d.line = (d.indent ++ (d.word.toList ++ d.spacing)) ++
          (d.path ++ (d.gap ++ d.tail)) := by
        rw [line, visible, ending, hnil]
        simp only [List.append_assoc, List.nil_append]
      rw [hline, List.getLast?_append_of_ne_nil _
        (List.append_ne_nil_of_left_ne_nil d.path_ne_nil _)] at hlast
      by_contra hnot
      have hall : ∀ c ∈ (d.path ++ (d.gap ++ d.tail)).getLast?, c ≠ '\n' := by
        refine Text.forall_mem_getLast?_append (fun c hc heq ↦ hnot (heq ▸ hc)) fun _ c hc heq ↦ ?_
        have hvisible := (d.last_path c hc).1
        rw [heq] at hvisible
        exact absurd hvisible (by decide)
      exact hall '\n' hlast rfl
    · rw [hend]
      exact .nil
  · obtain ⟨c, semicolons, hs⟩ := List.exists_cons_of_ne_nil hnil
    obtain rfl := d.semicolons_eq c (hs ▸ List.mem_cons_self)
    rw [hs]
    exact .blanks d.gap_blank (.inr (.semicolon _))

end PlainDeclaration

/-- What is visible of a line that is read as a declaration starts with the word and a blank. -/
theorem ModulePath.exists_word {line : Text} {path : ModulePath}
    (h : declaredBy? line = some path) :
    ∃ word ∈ ["module", "#module"], ∃ rest, line.trimStart = word.toList ++ rest ∧
      rest.head?.any isBlank = true := by
  obtain ⟨rest, hrest, h⟩ := Option.bind_eq_some_iff.1 h
  have hhead : rest.head?.any isBlank = true := by
    dsimp only at h
    split at h
    · rename_i hall
      exact (Bool.and_eq_true_iff.1 (Bool.and_eq_true_iff.1 hall).1).1
    · cases h
  obtain ⟨word, hword, htrim⟩ : ∃ word ∈ ["module", "#module"],
      line.trim = word.toList ++ rest := by
    cases hsign : line.trim.dropPrefix? "#module" with
    | some rest' =>
      rw [hsign] at hrest
      obtain rfl := Option.some.inj hrest
      exact ⟨_, by decide, Text.dropPrefix?_eq_some_iff.1 hsign⟩
    | none =>
      rw [hsign] at hrest
      exact ⟨_, by decide, Text.dropPrefix?_eq_some_iff.1 hrest⟩
  obtain ⟨s, hs⟩ := Text.exists_trimEnd line.trimStart
  refine ⟨word, hword, rest ++ s, ?_, ?_⟩
  · rw [hs, ← List.append_assoc, ← htrim]
    rfl
  · cases rest with
    | nil => cases hhead
    | cons c rest => exact hhead

end ShaderLink
