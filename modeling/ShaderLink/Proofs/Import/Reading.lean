import ShaderLink.Proofs.Grammar.Takes
import ShaderLink.Proofs.Import.Printing

/-!
# Reading what has been printed

The parser reads back every tree in normal form, however it is printed (`Parser.Takes.importTree`).
Trees and lists of trees are read by each other in rounds, of which two for each lexeme suffice, so
the proof is one induction on the rounds, with one lemma for each way in which a round can go.
Everything that is optional is decided by the lexeme that stands next: an opening brace, an asterisk
and a name start a tree, and what may stand behind one does not go on with it (`Stops`).
-/

namespace ShaderLink

open Lexeme ImportTree

/-! ### What stands next -/

namespace Lexeme

variable {x : Lexeme} {s : String} {w : Text} {xs ys : List Lexeme}

/-- A name is taken for no symbol. -/
theorem not_is_of_word (hw : w.IsIdentifier) (hs : ¬Text.StartsWord s.toList) :
    ¬(⟨.word, w⟩ : Lexeme).Is s := by
  rintro ⟨rfl, -⟩
  rw [String.toList_ofList] at hs
  exact hs hw.1

theorem not_is_of_kind (hkind : x.kind ∉ [TokenKind.word, .symbol, .directive]) : ¬x.Is s :=
  fun h ↦ hkind h.2

/-- A tree starts here, perhaps behind the markers of a path. -/
def Opening (x : Lexeme) : Prop :=
  (x.kind = .word ∧ x.text.IsIdentifier) ∨ x = symbol "*" ∨ x = symbol "\x7b"

/-- What opens a tree may stand in front of anything. -/
theorem Opening.stands (h : x.Opening) (xs : List Lexeme) : x.Stands xs := by
  rcases h with ⟨hkind, hw⟩ | rfl | rfl
  · obtain ⟨kind, text⟩ := x
    obtain rfl : kind = .word := hkind
    exact .word hw
  · exact .plain (by decide)
  · exact .plain (by decide)

theorem Opening.opens (h : x.Opening) : x.Opens := by
  intro rest
  rcases h with ⟨-, hw⟩ | rfl | rfl
  · exact .inr (.inl (hw.1.append rest))
  · exact .inr (.inr (.inl rfl))
  · exact .inr (.inr (.inr rfl))

theorem Opening.kind_cases (h : x.Opening) : x.kind = .word ∨ x.kind = .symbol := by
  rcases h with ⟨hkind, -⟩ | rfl | rfl
  · exact .inl hkind
  · exact .inr rfl
  · exact .inr rfl

/-- It is no brace that closes a list. -/
theorem Opening.not_is_close (h : x.Opening) : ¬x.Is "\x7d" := by
  rcases h with ⟨hkind, hw⟩ | rfl | rfl
  · obtain ⟨kind, text⟩ := x
    obtain rfl : kind = .word := hkind
    exact not_is_of_word hw (by decide)
  · decide
  · decide

end Lexeme

theorem IsMarker.stands {s : String} (h : IsMarker s) (xs : List Lexeme) :
    (marker (s ++ "/")).Stands xs := by
  rcases h with rfl | rfl <;> exact .marker (by decide)

/-- What stands behind a tree is not part of it. -/
def Stops (xs : List Lexeme) : Prop :=
  ∀ y ys, xs = y :: ys → y.Stands ys ∧ ∀ s ∈ ["/", "::", ".", "(", "as"], ¬y.Is s

theorem stops_nil : Stops [] :=
  fun _ _ h ↦ nomatch h

/-- In front of these symbols a tree stops. -/
theorem stops_symbol {s : String} (hs : s ∈ [",", "\x7d", ";"]) (xs : List Lexeme) :
    Stops (symbol s :: xs) := by
  rintro _ _ heq
  obtain ⟨rfl, rfl⟩ := List.cons.inj heq
  simp only [List.mem_cons, List.not_mem_nil, or_false] at hs
  rcases hs with rfl | rfl | rfl <;> exact ⟨.plain (by decide), by decide⟩

/-- It stops in front of a line break. -/
theorem stops_lineBreak {s : Text} (hs : s.IsLineBreak) (xs : List Lexeme) :
    Stops (⟨.lineBreak, s⟩ :: xs) := by
  rintro _ _ heq
  obtain ⟨rfl, rfl⟩ := List.cons.inj heq
  exact ⟨.lineBreak hs, fun s _ ↦ not_is_of_kind (show TokenKind.lineBreak ∉ _ by decide)⟩

/-- Line breaks in front of what a tree stops at make no difference. -/
theorem Breaks.stops {xs ys : List Lexeme} (h : Breaks xs) (hys : Stops ys) : Stops (xs ++ ys) := by
  cases xs with
  | nil => exact hys
  | cons x xs =>
    obtain ⟨kind, text⟩ := x
    obtain ⟨rfl, htext⟩ := h _ List.mem_cons_self
    exact stops_lineBreak htext (xs ++ ys)

/-- Each segment of a path has a lexeme of its own. -/
theorem PathPrinting.length_le {segments : List String} {xs : List Lexeme}
    (h : PathPrinting segments xs) : segments.length ≤ xs.length := by
  induction h with
  | nil => exact Nat.zero_le _
  | marker _ _ ih => exact Nat.succ_le_succ ih
  | name _ _ _ ih => exact Nat.le_succ_of_le (Nat.succ_le_succ ih)

namespace ImportTree

variable {tree tail : ImportTree} {markers names segments : List String} {xs ys : List Lexeme}

theorem under_of_ne_nil (h : segments ≠ []) : tail.under segments = path segments tail := by
  cases segments with
  | nil => exact absurd rfl h
  | cons => rfl

/-- The lexemes are those of names in front of a tree that is itself no path. -/
inductive TailPrinting (tail : ImportTree) : List String → List Lexeme → Prop
  | here {xs : List Lexeme} (h : tail.Printing xs) (hnormal : tail.Normal)
    (hpath : tail.isPath = false) : TailPrinting tail [] xs
  | name {s separator : String} {names : List String} {xs : List Lexeme} (hs : IsWord s)
    (hseparator : separator ∈ ["/", "::", "."]) (h : TailPrinting tail names xs) :
    TailPrinting tail (s :: names) (word s :: symbol separator :: xs)

/-- Names may be put in front of the segments that are read with the tail. -/
theorem TailPrinting.append (hxs : PathPrinting names xs) (hnames : ∀ s ∈ names, IsWord s)
    (h : TailPrinting tail segments ys) : TailPrinting tail (names ++ segments) (xs ++ ys) := by
  induction hxs with
  | nil => exact h
  | marker hs => exact absurd (hnames _ List.mem_cons_self) hs.not_isWord
  | name _ hseparator _ ih =>
    obtain ⟨hs, hnames⟩ := List.forall_mem_cons.1 hnames
    exact .name hs hseparator (ih hnames)

/-- Where no marker is left, a tree starts. -/
theorem TailPrinting.exists_opening (h : TailPrinting tail names xs) :
    ∃ x ys, xs = x :: ys ∧ x.Opening := by
  cases h with
  | name hs => exact ⟨_, _, rfl, .inl ⟨rfl, hs⟩⟩
  | here h hnormal hpath =>
    cases h with
    | item => exact ⟨_, _, rfl, .inl ⟨rfl, hnormal.1⟩⟩
    | wildcard => exact ⟨_, _, rfl, .inr (.inl rfl)⟩
    | list => exact ⟨_, _, rfl, .inr (.inr rfl)⟩
    | path => cases hpath

/-- The markers of a path stand in front of its names. -/
theorem exists_pathPrinting_of_append (h : PathPrinting (markers ++ names) xs) :
    ∃ ms ns, xs = ms ++ ns ∧ PathPrinting markers ms ∧ PathPrinting names ns := by
  induction markers generalizing xs with
  | nil => exact ⟨[], xs, rfl, .nil, h⟩
  | cons s markers ih =>
    cases h with
    | marker hs h =>
      obtain ⟨ms, ns, rfl, hms, hns⟩ := ih h
      exact ⟨_, ns, rfl, .marker hs hms, hns⟩
    | name hs hseparator h =>
      obtain ⟨ms, ns, rfl, hms, hns⟩ := ih h
      exact ⟨_, ns, rfl, .name hs hseparator hms, hns⟩

/-- Every tree has markers, names and a tree behind them that is no path. -/
theorem Printing.exists_tail (h : tree.Printing xs) (hnormal : tree.Normal) :
    ∃ markers names tail ms ys, xs = ms ++ ys ∧ PathPrinting markers ms ∧
      (∀ s ∈ markers, IsMarker s) ∧ TailPrinting tail names ys ∧
      tree = tail.under (markers ++ names) := by
  cases hpath : tree.isPath with
  | false =>
    exact ⟨[], [], tree, [], xs, rfl, .nil, List.forall_mem_nil _, .here h hnormal hpath, rfl⟩
  | true =>
    cases h with
    | @path segments tail xs ys hsegments h =>
      obtain ⟨⟨markers, names, rfl, hmarkers, hnames⟩, hne, htail, hnormal⟩ := hnormal
      obtain ⟨ms, ns, rfl, hms, hns⟩ := exists_pathPrinting_of_append hsegments
      have hrest : TailPrinting tail (names ++ []) (ns ++ ys) :=
        .append hns hnames (.here h hnormal htail)
      rw [List.append_nil] at hrest
      exact ⟨markers, names, tail, ms, ns ++ ys, List.append_assoc _ _ _, hms, hmarkers, hrest,
        (under_of_ne_nil hne).symm⟩
    | item => cases hpath
    | wildcard => cases hpath
    | list => cases hpath

/-- A tree starts with a lexeme that can be told apart, and that neither breaks the line nor closes
a list. -/
theorem Printing.exists_start (h : tree.Printing xs) (hnormal : tree.Normal) :
    ∃ x ys, xs = x :: ys ∧ (∀ zs, x.Stands zs) ∧ x.kind ≠ .lineBreak ∧ ¬x.Is "\x7d" := by
  obtain ⟨markers, names, tail, ms, ys, rfl, hms, hmarkers, htail, -⟩ := h.exists_tail hnormal
  cases hms with
  | nil =>
    obtain ⟨x, ys, rfl, hx⟩ := htail.exists_opening
    refine ⟨x, ys, rfl, hx.stands, ?_, hx.not_is_close⟩
    rcases hx.kind_cases with hkind | hkind <;> rw [hkind] <;> decide
  | marker hs =>
    exact ⟨_, _, rfl, hs.stands, (by decide : TokenKind.relativePrefix ≠ _),
      not_is_of_kind (by decide : TokenKind.relativePrefix ∉ _)⟩
  | name hs => exact absurd (hmarkers _ List.mem_cons_self) hs

end ImportTree

namespace Parser

variable {n m : Nat} {xs ys zs : List Lexeme} {s : String} {y : Lexeme}

/-! ### Separators -/

/-- Where a tree stops, none of the signs stands that it could go on with. -/
theorem Declines.mark_of_stops (hn : 1 < n) (h : Stops xs) (hs : s ∈ ["/", "::", ".", "(", "as"]) :
    (Parser.mark s).Declines n xs := by
  cases xs with
  | nil => exact tokenIf_nil hn
  | cons x xs =>
    obtain ⟨hstands, hnot⟩ := h x xs rfl
    exact mark hn hstands (hnot s hs)

theorem Declines.pathSeparator (h : ∀ s ∈ ["/", "::", "."], (Parser.mark s).Declines n xs) :
    Parser.pathSeparator.Declines n xs :=
  firstOf (List.forall_mem_map.2 h : ∀ p ∈ ["/", "::", "."].map Parser.mark, p.Declines n xs)

/-- Any of the three separators is taken. -/
theorem Takes.pathSeparator (hn : 1 < n) (hs : s ∈ ["/", "::", "."]) (hy : y.Opens) :
    Parser.pathSeparator.Takes n (symbol s :: y :: ys) (fun _ ↦ True) (y :: ys) := by
  have hstands : (symbol s).Stands (y :: ys) := .separator hs hy
  have htakes := (Takes.mark hn hstands (is_symbol s)).mono fun _ _ ↦ trivial
  have hdeclines {s' : String} (hs' : ¬(symbol s).Is s') :
      (Parser.mark s').Declines n (symbol s :: y :: ys) := .mark hn hstands hs'
  simp only [List.mem_cons, List.not_mem_nil, or_false] at hs
  rcases hs with rfl | rfl | rfl
  · exact htakes.firstOf [] _ (List.forall_mem_nil _)
  · exact htakes.firstOf [Parser.mark "/"] _
      (List.forall_mem_singleton.2 (hdeclines (by decide)))
  · exact htakes.firstOf [Parser.mark "/", Parser.mark "::"] _ (List.forall_mem_cons.2
      ⟨hdeclines (by decide), List.forall_mem_singleton.2 (hdeclines (by decide))⟩)

/-! ### Names and aliases -/

/-- An identifier is taken as a name. -/
theorem Takes.name (hn : 1 < n) (hs : IsWord s) (xs : List Lexeme) :
    Parser.directiveWord.Takes n (Lexeme.word s :: xs) (· = s) xs := by
  have hword : Parser.directiveWord.Takes n (Lexeme.word s :: xs) (· = String.ofList s.toList) xs :=
    .directiveWord hn hs
  rwa [String.ofList_toList] at hword

theorem isIdentifier_as : Text.IsIdentifier "as".toList := by
  decide

/-- The other name is taken if it is there. -/
theorem Takes.optional_alias (hn : 1 < n) {localName : Option String}
    (hname : ∀ s ∈ localName, IsWord s) (hys : Stops ys) :
    (Parser.optional importAlias).Takes n (aliasLexemes localName ++ ys) (· = localName) ys := by
  cases localName with
  | none =>
    have has : "as" ∈ ["/", "::", ".", "(", "as"] := by decide
    exact optional_none (Declines.bind (.mark_of_stops hn hys has))
  | some s =>
    have halias := (Takes.mark hn (.word isIdentifier_as) (is_keyword "as")).seqRight
      ((Takes.name hn (hname s rfl) ys).commit "alias name")
    refine halias.optional_some.mono ?_
    rintro _ ⟨_, rfl, rfl⟩
    rfl

/-- An alias is neither a separator nor a list of arguments. -/
theorem Declines.mark_alias (hn : 1 < n) (hs : s ∈ ["/", "::", ".", "("]) (hys : Stops ys)
    (localName : Option String) : (Parser.mark s).Declines n (aliasLexemes localName ++ ys) := by
  cases localName with
  | none => exact mark_of_stops hn hys (List.mem_append_left ["as"] hs)
  | some name =>
    refine mark hn (.word isIdentifier_as) ?_
    simp only [List.mem_cons, List.not_mem_nil, or_false] at hs
    rcases hs with rfl | rfl | rfl | rfl <;> decide

/-! ### Arguments -/

/-- An argument can be told apart from what stands behind it. -/
theorem stands_argument {arg : String} (h : IsArgument arg) (hy : y = symbol "," ∨ y = symbol ")")
    (ys : List Lexeme) : (argument arg).Stands (y :: ys) ∧
      ((argument arg).kind = .word ∨ (argument arg).kind = .number) := by
  rcases h with hword | hnumber
  · rw [argument, if_pos hword.1]
    exact ⟨.word hword, .inl rfl⟩
  · have hstarts : ¬Text.StartsWord arg.toList := fun hstarts ↦ by
      cases hnumber.symm.trans (missed_of_startsWord hstarts).2.2.2
    rw [argument, if_neg hstarts]
    exact ⟨.number hnumber hy, .inr rfl⟩

/-- A word or a number is read as an argument. -/
theorem Takes.argument (hn : 1 < n) {arg : String} (h : IsArgument arg)
    (hy : y = symbol "," ∨ y = symbol ")") :
    (Parser.orElse (Parser.ofKind .directive .word) (Parser.ofKind .directive .number)).Takes n
      (Lexeme.argument arg :: y :: ys) (fun t ↦ t.text = arg) (y :: ys) := by
  obtain ⟨hstands, hkind⟩ := stands_argument h hy ys
  have htext : ∀ t, (∃ offset, t = (Lexeme.argument arg).token offset) → t.text = arg := by
    rintro _ ⟨offset, rfl⟩
    exact String.ofList_toList
  rcases hkind with hkind | hkind
  · exact orElse_left ((ofKind hn hstands hkind).mono htext)
  · exact orElse_right (.ofKind hn hstands (by rw [hkind]; decide))
      ((ofKind hn hstands hkind).mono htext)

theorem exists_moreArgLexemes (args : List String) (ys : List Lexeme) :
    ∃ y zs, moreArgLexemes args ++ ys = y :: zs ∧ (y = symbol "," ∨ y = symbol ")") := by
  cases args with
  | nil => exact ⟨_, _, rfl, .inr rfl⟩
  | cons arg args => exact ⟨_, _, rfl, .inl rfl⟩

theorem length_le_length_argLexemes (args : List String) :
    args.length ≤ (argLexemes (some args)).length := by
  have hmore (args : List String) : args.length ≤ (moreArgLexemes args).length := by
    induction args with
    | nil => exact Nat.zero_le _
    | cons arg args ih =>
      rw [moreArgLexemes, List.length_cons, List.length_cons, List.length_cons]
      omega
  cases args with
  | nil => exact Nat.zero_le _
  | cons arg args =>
    have := hmore args
    rw [argLexemes, List.length_cons, List.length_cons, List.length_cons]
    omega

/-- Behind the first argument each takes a round. -/
theorem Takes.moreArgs (hn : 1 < n) {args : List String} (hargs : ∀ s ∈ args, IsArgument s)
    (hm : args.length < m) (ys : List Lexeme) :
    (manyWithin (Parser.mark "," *>
      Parser.orElse (Parser.ofKind .directive .word) (Parser.ofKind .directive .number)) m).Takes n
      (moreArgLexemes args ++ ys) (fun ts ↦ ts.map Token.text = args) (symbol ")" :: ys) := by
  induction args generalizing m with
  | nil =>
    obtain ⟨m, rfl⟩ := Nat.exists_eq_add_of_lt hm
    have hclose : (symbol ")").Stands ys := .plain (by decide)
    refine (manyWithin_nil (Declines.bind (.mark hn hclose (by decide))) _).mono ?_
    rintro _ rfl
    rfl
  | cons arg args ih =>
    obtain ⟨hfirst, hargs⟩ := List.forall_mem_cons.1 hargs
    obtain ⟨m, rfl⟩ : ∃ k, m = k + 1 := ⟨m - 1, by omega⟩
    have hrest := ih hargs (Nat.lt_of_succ_lt_succ hm)
    obtain ⟨y, zs, hnext, hy⟩ := exists_moreArgLexemes args ys
    rw [hnext] at hrest
    have hcomma : (symbol ",").Stands (Lexeme.argument arg :: y :: zs) := .plain (by decide)
    have htakes := (Takes.mark hn hcomma (is_symbol ",")).seqRight (argument hn hfirst hy)
    rw [moreArgLexemes, List.cons_append, List.cons_append, hnext]
    refine htakes.manyWithin_cons hrest fun t ts ht hts ↦ ?_
    rw [List.map_cons, ht, hts]

/-- Arguments are taken up to their parenthesis. -/
theorem Takes.importArgs (hn : 1 < n) {args : List String} (hargs : ∀ s ∈ args, IsArgument s)
    (hlength : args.length < n) :
    Parser.importArgs.Takes n (argLexemes (some args) ++ ys) (· = args) ys := by
  have hopen (xs : List Lexeme) :
      (Parser.mark "(").Takes n (symbol "(" :: xs) (fun _ ↦ True) xs :=
    (mark hn (.plain (by decide)) (is_symbol "(")).mono fun _ _ ↦ trivial
  have hstands : (symbol ")").Stands ys := .plain (by decide)
  have hend := (Takes.mark hn hstands (is_symbol ")")).commit "`)`"
  cases args with
  | nil =>
    have hword : (Parser.ofKind .directive .word).Declines n (symbol ")" :: ys) :=
      .ofKind hn hstands (by decide)
    have hnumber : (Parser.ofKind .directive .number).Declines n (symbol ")" :: ys) :=
      .ofKind hn hstands (by decide)
    refine (hopen _).bind fun _ _ ↦ (separated_nil (hword.orElse hnumber)).bind fun ts hts ↦
      hend.bind fun _ _ ↦ .pure ?_
    rw [hts]
    rfl
  | cons arg args =>
    obtain ⟨hfirst, hmore⟩ := List.forall_mem_cons.1 hargs
    obtain ⟨y, zs, hnext, hy⟩ := exists_moreArgLexemes args ys
    have hrest := Takes.moreArgs hn hmore (Nat.lt_of_succ_lt hlength) ys
    rw [hnext] at hrest
    have hall := (argument hn hfirst hy).separated₁ hrest
      (S := fun ts ↦ ts.map Token.text = arg :: args)
      fun t ts ht hts ↦ by rw [List.map_cons, ht, hts]
    rw [argLexemes, List.cons_append, List.cons_append, hnext]
    exact (hopen _).bind fun _ _ ↦ hall.separated.bind fun ts hts ↦
      hend.bind fun _ _ ↦ .pure hts

/-- Arguments are read if there are any. -/
theorem Takes.optional_args (hn : 1 < n) {args : Option (List String)}
    (hargs : ∀ all ∈ args, ∀ s ∈ all, IsArgument s) (hlength : (argLexemes args).length < n)
    (hys : (Parser.mark "(").Declines n ys) :
    (Parser.optional Parser.importArgs).Takes n (argLexemes args ++ ys) (· = args) ys := by
  cases args with
  | none => exact optional_none hys.bind
  | some args =>
    have hle : args.length < n := lt_of_le_of_lt (length_le_length_argLexemes args) hlength
    refine (importArgs hn (hargs args rfl) hle).optional_some.mono ?_
    rintro _ ⟨_, rfl, rfl⟩
    rfl

/-- Arguments are no separator. -/
theorem Declines.mark_args (hn : 1 < n) (hs : s ∈ ["/", "::", "."])
    (hys : (Parser.mark s).Declines n ys) (args : Option (List String)) :
    (Parser.mark s).Declines n (argLexemes args ++ ys) := by
  cases args with
  | none => exact hys
  | some args =>
    obtain ⟨zs, hzs⟩ : ∃ zs, argLexemes (some args) = symbol "(" :: zs := by
      cases args with
      | nil => exact ⟨_, rfl⟩
      | cons => exact ⟨_, rfl⟩
    rw [hzs]
    refine mark hn (.plain (by decide)) ?_
    simp only [List.mem_cons, List.not_mem_nil, or_false] at hs
    rcases hs with rfl | rfl | rfl <;> decide

/-! ### Markers and line breaks -/

/-- Each marker of a path takes a round. -/
theorem Takes.manyMarkers (hn : 1 < n) {markers : List String}
    (hmarkers : ∀ s ∈ markers, IsMarker s)
    (hxs : PathPrinting markers xs) (hys : (Parser.ofKind .directive .relativePrefix).Declines n ys)
    (hm : markers.length < m) :
    (manyWithin (do
      let t ← Parser.ofKind .directive .relativePrefix
      return if t.text == "./" then "." else "..") m).Takes n (xs ++ ys) (· = markers) ys := by
  obtain ⟨m, rfl⟩ : ∃ k, m = k + 1 := ⟨m - 1, by omega⟩
  induction hxs generalizing m with
  | nil => exact manyWithin_nil hys.bind m
  | name hs => exact absurd (hmarkers _ List.mem_cons_self) hs
  | @marker s segments xs hs hxs ih =>
    obtain ⟨m, rfl⟩ : ∃ k, m = k + 1 := ⟨m - 1, by rw [List.length_cons] at hm; omega⟩
    have hrest := ih (List.forall_mem_cons.1 hmarkers).2 m (Nat.lt_of_succ_lt_succ hm)
    have hfirst : (do
        let t ← Parser.ofKind .directive .relativePrefix
        return if t.text == "./" then "." else "..").Takes n
        (Lexeme.marker (s ++ "/") :: (xs ++ ys)) (· = s) (xs ++ ys) := by
      refine (ofKind hn (hs.stands _) rfl).bind fun t ht ↦ .pure ?_
      obtain ⟨offset, rfl⟩ := ht
      rcases hs with rfl | rfl <;> rfl
    exact hfirst.manyWithin_cons hrest fun a as ha has ↦ by rw [ha, has]

theorem Takes.relativeMarkers (hn : 1 < n) {markers : List String}
    (hmarkers : ∀ s ∈ markers, IsMarker s) (hxs : PathPrinting markers xs)
    (hys : (Parser.ofKind .directive .relativePrefix).Declines n ys)
    (hlength : markers.length < n) :
    Parser.relativeMarkers.Takes n (xs ++ ys) (· = markers) ys :=
  rounds.bind fun m hm ↦ by rw [hm]; exact manyMarkers hn hmarkers hxs hys hlength

/-- So does each line break. -/
theorem Takes.manyBreaks (hn : 1 < n) (hxs : Breaks xs)
    (hys : (Parser.ofKind .directive .lineBreak).Declines n ys) (hm : xs.length < m) :
    (manyWithin (Parser.ofKind .directive .lineBreak) m).Takes n (xs ++ ys) (fun _ ↦ True) ys := by
  induction xs generalizing m with
  | nil =>
    obtain ⟨m, rfl⟩ := Nat.exists_eq_add_of_lt hm
    exact (manyWithin_nil hys _).mono fun _ _ ↦ trivial
  | cons x xs ih =>
    obtain ⟨m, rfl⟩ : ∃ k, m = k + 1 := ⟨m - 1, by omega⟩
    obtain ⟨⟨hkind, htext⟩, hmore⟩ := List.forall_mem_cons.1 hxs
    obtain ⟨kind, text⟩ := x
    obtain rfl : kind = .lineBreak := hkind
    exact (ofKind hn (.lineBreak htext) rfl).manyWithin_cons
      (ih hmore (Nat.lt_of_succ_lt_succ hm)) fun _ _ _ _ ↦ trivial

theorem Takes.lineBreaks (hn : 1 < n) (hxs : Breaks xs)
    (hys : (Parser.ofKind .directive .lineBreak).Declines n ys) (hlength : xs.length < n) :
    Parser.lineBreaks.Takes n (xs ++ ys) (fun _ ↦ True) ys :=
  (rounds.bind (f := fun m ↦ manyWithin (Parser.ofKind .directive .lineBreak) m) fun m hm ↦ by
    rw [hm]; exact manyBreaks hn hxs hys hlength).bind fun _ _ ↦ .pure trivial

/-! ### Trees -/

/-- In so many rounds, all trees are read that have at most half as many lexemes. -/
def ReadsTrees (n k : Nat) : Prop :=
  ∀ {tail : ImportTree} {names : List String} {xs : List Lexeme} (segments : List String)
    (zs : List Lexeme), TailPrinting tail names xs → Stops zs → 2 * xs.length ≤ k → xs.length < n →
    (treeWithin k segments).Takes n (xs ++ zs) (· = tail.under (segments ++ names)) zs

/-- In so many rounds, all lists of trees are read that are short enough. -/
def ReadsLists (n k : Nat) : Prop :=
  ∀ {trees : List ImportTree} {xs : List Lexeme} (zs : List Lexeme), ListPrinting trees xs →
    AllNormal trees → 2 * xs.length < k → xs.length < n →
    (listWithin k).Takes n (xs ++ symbol "\x7d" :: zs) (· = trees) zs

variable {k : Nat} {tree : ImportTree} {trees : List ImportTree}

/-- A name is read, and what it is decides what stands behind it. -/
theorem Takes.tree_word (hn : 1 < n) (hs : IsWord s) {segments : List String}
    {P : ImportTree → Prop}
    (hrest : (do
      if (← Parser.optional Parser.pathSeparator).isSome then
        Parser.treeWithin k (segments ++ [s])
      else
        let args ← Parser.optional Parser.importArgs
        let localName ← Parser.optional Parser.importAlias
        return (ImportTree.item s localName args).under segments : Parser ImportTree).Takes
        n xs P ys) :
    (Parser.treeWithin (k + 1) segments).Takes n (Lexeme.word s :: xs) P ys := by
  have hstands : (Lexeme.word s).Stands xs := .word hs
  have hopen : ¬(Lexeme.word s).Is "\x7b" := not_is_of_word hs (by decide)
  have hstar : ¬(Lexeme.word s).Is "*" := not_is_of_word hs (by decide)
  rw [treeWithin]
  refine .ifNone (.mark hn hstands hopen) (.ifNone (.mark hn hstands hstar)
    (((Takes.name hn hs xs).commit _).bind ?_))
  rintro _ rfl
  exact hrest

/-- A name in front of a separator is one more segment. -/
theorem Takes.tree_name (hn : 1 < n) {separator : String} (hs : IsWord s)
    (hseparator : separator ∈ ["/", "::", "."]) (hy : y.Opens) {segments : List String}
    (hrest : (Parser.treeWithin k (segments ++ [s])).Takes n (y :: ys) (· = tree) zs) :
    (Parser.treeWithin (k + 1) segments).Takes n (Lexeme.word s :: symbol separator :: y :: ys)
      (· = tree) zs :=
  tree_word hn hs (.ifSome (.pathSeparator hn hseparator hy) hrest)

/-- A name is an item, with its arguments and its other name. -/
theorem Takes.tree_item (hn : 1 < n) {localName : Option String} {args : Option (List String)}
    (hnormal : (ImportTree.item s localName args).Normal) (hys : Stops ys)
    (hlength : (argLexemes args).length < n) (segments : List String) :
    (Parser.treeWithin (k + 1) segments).Takes n
      (Lexeme.word s :: (argLexemes args ++ (aliasLexemes localName ++ ys)))
      (· = (ImportTree.item s localName args).under segments) ys := by
  obtain ⟨hs, hname, hargs⟩ := hnormal
  have hseparators : ∀ t ∈ ["/", "::", "."], (Parser.mark t).Declines n
      (argLexemes args ++ (aliasLexemes localName ++ ys)) := fun t ht ↦
    .mark_args hn ht (.mark_alias hn (List.mem_append_left ["("] ht) hys localName) args
  have hnoArgs : (Parser.mark "(").Declines n (aliasLexemes localName ++ ys) :=
    .mark_alias hn (by decide) hys localName
  refine tree_word hn hs (.ifNone (.pathSeparator hseparators)
    ((Takes.optional_args hn hargs hlength hnoArgs).bind ?_))
  rintro _ rfl
  refine (Takes.optional_alias hn hname hys).bind ?_
  rintro _ rfl
  exact .pure rfl

/-- An asterisk stands for everything in a module. -/
theorem Takes.tree_wildcard (hn : 1 < n) {localName : Option String}
    (hname : ∀ s ∈ localName, IsWord s) (hys : Stops ys) (segments : List String) :
    (Parser.treeWithin (k + 1) segments).Takes n (symbol "*" :: (aliasLexemes localName ++ ys))
      (· = (ImportTree.wildcard localName).under segments) ys := by
  have hstands (xs : List Lexeme) : (symbol "*").Stands xs := .plain (by decide)
  rw [treeWithin]
  refine .ifNone (.mark hn (hstands _) (by decide)) (.ifSome (.mark hn (hstands _) (is_symbol "*"))
    ((Takes.optional_alias hn hname hys).bind ?_))
  rintro _ rfl
  exact .pure rfl

/-- Behind a brace stands a list. -/
theorem Takes.tree_list (hn : 1 < n)
    (hlist : (Parser.listWithin k).Takes n xs (· = trees) ys) (segments : List String) :
    (Parser.treeWithin (k + 1) segments).Takes n (symbol "\x7b" :: xs)
      (· = (ImportTree.list trees).under segments) ys := by
  rw [treeWithin]
  refine .ifSome (.mark hn (.plain (by decide)) (is_symbol "\x7b")) (hlist.bind ?_)
  rintro _ rfl
  exact .pure rfl

/-- What trees and lists are read as in some rounds is put together in one round more. -/
theorem ReadsTrees.succ (hn : 1 < n) (htree : ReadsTrees n k) (hlist : ReadsLists n k) :
    ReadsTrees n (k + 1) := by
  intro tail names xs segments zs h hzs hk hlength
  cases h with
  | @name s separator names xs hs hseparator h =>
    simp only [List.length_cons] at hk hlength
    have hrest := htree (segments ++ [s]) zs h hzs (by omega) (by omega)
    obtain ⟨y, ys, rfl, hy⟩ := h.exists_opening
    rw [List.append_assoc] at hrest
    exact .tree_name hn hs hseparator hy.opens hrest
  | here h hnormal hpath =>
    rw [List.append_nil]
    cases h with
    | item name localName args =>
      rw [List.length_cons, List.length_append] at hlength
      rw [List.cons_append, List.append_assoc]
      exact .tree_item hn hnormal hzs (by omega) segments
    | wildcard localName => exact .tree_wildcard hn hnormal hzs segments
    | @list trees xs h =>
      simp only [List.length_cons, List.length_append, List.length_nil] at hk hlength
      rw [List.cons_append, List.append_assoc]
      exact .tree_list hn (hlist zs h hnormal (by omega) (by omega)) segments
    | path => cases hpath

/-- A tree is read with its markers. -/
theorem ReadsTrees.exists_markers (htree : ReadsTrees n k) (hn : 1 < n) (h : tree.Printing xs)
    (hnormal : tree.Normal) (hzs : Stops zs) (hk : 2 * xs.length ≤ k) (hlength : xs.length < n) :
    ∃ markers ys, Parser.relativeMarkers.Takes n (xs ++ zs) (· = markers) ys ∧
      (treeWithin k markers).Takes n ys (· = tree) zs := by
  obtain ⟨markers, names, tail, ms, ys, rfl, hms, hmarkers, htail, rfl⟩ := h.exists_tail hnormal
  rw [List.length_append] at hk hlength
  have hrest := htree markers zs htail hzs (by omega) (by omega)
  obtain ⟨x, ys, rfl, hx⟩ := htail.exists_opening
  have hstop : (Parser.ofKind .directive .relativePrefix).Declines n (x :: ys ++ zs) := by
    refine .ofKind hn (hx.stands _) ?_
    rcases hx.kind_cases with hkind | hkind <;> rw [hkind] <;> decide
  have hle := hms.length_le
  refine ⟨markers, x :: ys ++ zs, ?_, hrest⟩
  rw [List.append_assoc]
  exact .relativeMarkers hn hmarkers hms hstop (by omega)

/-- Line breaks are passed in front of what can be told apart and breaks no line. -/
theorem Takes.breaks_behind (hn : 1 < n) {bs : List Lexeme} (hbs : Breaks bs) (hy : y.Stands ys)
    (hkind : y.kind ≠ .lineBreak) (hlength : bs.length < n) :
    Parser.lineBreaks.Takes n (bs ++ y :: ys) (fun _ ↦ True) (y :: ys) :=
  .lineBreaks hn hbs (.ofKind hn hy hkind) hlength

/-- A list may be empty but for line breaks. -/
theorem Takes.list_nil (hn : 1 < n) {bs : List Lexeme} (hbs : Breaks bs) (hlength : bs.length < n) :
    (Parser.listWithin (k + 1)).Takes n (bs ++ symbol "\x7d" :: zs) (· = []) zs := by
  have hstands : (symbol "\x7d").Stands zs := .plain (by decide)
  rw [listWithin]
  exact (Takes.breaks_behind hn hbs hstands (by decide) hlength).bind fun _ _ ↦
    .ifSome (.mark hn hstands (is_symbol "\x7d")) (.pure rfl)

/-- Behind line breaks, a tree of a list is read, and then whatever stands behind it. -/
theorem ReadsTrees.list_tree (htree : ReadsTrees n k) (hn : 1 < n) {bs : List Lexeme}
    {P : List ImportTree → Prop} (hbs : Breaks bs) (h : tree.Printing xs) (hnormal : tree.Normal)
    (hys : Stops ys) (hk : 2 * xs.length ≤ k) (hlength : bs.length + xs.length < n)
    (hrest : (do
      lineBreaks
      if (← optional (mark ",")).isSome then
        return tree :: (← listWithin k)
      else
        lineBreaks
        let _ ← commit (mark "\x7d") "`,` or `\x7d`"
        return [tree] : Parser (List ImportTree)).Takes n ys P zs) :
    (listWithin (k + 1)).Takes n (bs ++ (xs ++ ys)) P zs := by
  obtain ⟨markers, us, hmarkers, htail⟩ :=
    htree.exists_markers hn h hnormal hys hk (by omega)
  obtain ⟨x, xs, rfl, hx, hkind, hclose⟩ := h.exists_start hnormal
  rw [listWithin]
  refine (Takes.breaks_behind hn hbs (hx _) hkind (by omega)).bind fun _ _ ↦
    .ifNone (.mark hn (hx _) hclose) (hmarkers.bind ?_)
  rintro _ rfl
  refine htail.bind ?_
  rintro _ rfl
  exact hrest

/-- The same for lists: a round reads one tree and goes on with the rest of the list. -/
theorem ReadsLists.succ (hn : 1 < n) (htree : ReadsTrees n k) (hlist : ReadsLists n k) :
    ReadsLists n (k + 1) := by
  intro trees xs zs h hnormal hk hlength
  have hclose : (symbol "\x7d").Stands zs := .plain (by decide)
  cases h with
  | nil hxs => exact .list_nil hn hxs hlength
  | @last tree xs ys bs hxs h hbs =>
    simp only [List.length_append] at hk hlength
    have hstops : Stops (bs ++ symbol "\x7d" :: zs) := hbs.stops (stops_symbol (by decide) zs)
    rw [List.append_assoc, List.append_assoc]
    refine htree.list_tree hn hxs h hnormal.1 hstops (by omega) (by omega) ?_
    refine (Takes.breaks_behind hn hbs hclose (by decide) (by omega)).bind fun _ _ ↦
      .ifNone (.mark hn hclose (by decide)) ?_
    exact (Takes.breaks_behind hn (List.forall_mem_nil _) hclose (by decide)
      (Nat.zero_lt_of_lt hn)).bind fun _ _ ↦
      ((Takes.mark hn hclose (is_symbol "\x7d")).commit _).bind fun _ _ ↦ .pure rfl
  | @cons tree trees xs ys bs more hxs h hbs hmore =>
    simp only [List.length_append, List.length_cons] at hk hlength
    have hcomma (us : List Lexeme) : (symbol ",").Stands us := .plain (by decide)
    have hstops : Stops (bs ++ symbol "," :: (more ++ symbol "\x7d" :: zs)) :=
      hbs.stops (stops_symbol (by decide) _)
    rw [List.append_assoc, List.append_assoc, List.append_assoc, List.cons_append]
    refine htree.list_tree hn hxs h hnormal.1 hstops (by omega) (by omega) ?_
    refine (Takes.breaks_behind hn hbs (hcomma _) (by decide) (by omega)).bind fun _ _ ↦
      .ifSome (.mark hn (hcomma _) (is_symbol ",")) ?_
    refine (hlist zs hmore hnormal.2 (by omega) (by omega)).bind ?_
    rintro _ rfl
    exact .pure rfl

/-- Trees and lists are read in the rounds that they need. -/
theorem readsTrees_and_readsLists (hn : 1 < n) (k : Nat) : ReadsTrees n k ∧ ReadsLists n k := by
  induction k with
  | zero =>
    refine ⟨fun segments zs h hzs hk ↦ ?_, fun _ _ _ hk ↦ absurd hk (Nat.not_lt_zero _)⟩
    -- a tree has at least one lexeme
    obtain ⟨x, ys, rfl, -⟩ := h.exists_opening
    cases Nat.le_zero.1 hk
  | succ k ih => exact ⟨ReadsTrees.succ hn ih.1 ih.2, ReadsLists.succ hn ih.1 ih.2⟩

/-- **What has been printed is read back.** The tree is read from any text that it may be written
as, up to what stands behind it. -/
theorem Takes.importTree (h : tree.Printing xs) (hnormal : tree.Normal) (hys : Stops ys)
    (hlength : xs.length < n) : Parser.importTree.Takes n (xs ++ ys) (· = tree) ys := by
  obtain ⟨x, xs, rfl, -⟩ := h.exists_start hnormal
  rw [List.length_cons] at hlength
  have hn : 1 < n := by omega
  obtain ⟨htree, -⟩ := readsTrees_and_readsLists hn (2 * n)
  obtain ⟨markers, us, hmarkers, htail⟩ :=
    htree.exists_markers hn h hnormal hys (by rw [List.length_cons]; omega) hlength
  refine hmarkers.bind ?_
  rintro _ rfl
  refine rounds.bind ?_
  rintro _ rfl
  exact htail

end Parser

end ShaderLink
