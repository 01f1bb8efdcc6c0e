import ShaderLink.Proofs.Grammar.Directive

/-!
# Printing imports

How import trees are written, as lexemes first (`ImportTree.Printing`) and then as text
(`ImportTree.Prints`). Which of the three separators stands behind a segment is free, and so are
line breaks around the items of a list, a comma behind the last of them, and blanks. Every tree can
be printed (`ImportTree.exists_prints`), but only trees in **normal form** (`ImportTree.Normal`) can
be read back: a name has to be an identifier, and a path directly below a path is one path. There is
no number sign in what is printed of them (`ImportTree.Printing.signless`).
-/

namespace ShaderLink

open Lexeme

/-! ### Normal forms -/

/-- The string is an identifier. -/
def IsWord (s : String) : Prop :=
  Text.IsIdentifier s.toList

/-- The string is an identifier or a number. -/
def IsArgument (s : String) : Prop :=
  IsWord s ∨ Scan.number s.toList = .matched s.toList []

/-- The string is a marker of a relative path. -/
def IsMarker (s : String) : Prop :=
  s = "." ∨ s = ".."

instance : DecidablePred IsWord :=
  fun s ↦ inferInstanceAs (Decidable (Text.IsIdentifier s.toList))

instance : DecidablePred IsArgument :=
  fun s ↦ inferInstanceAs (Decidable (IsWord s ∨ Scan.number s.toList = .matched s.toList []))

instance : DecidablePred IsMarker :=
  fun s ↦ inferInstanceAs (Decidable (s = "." ∨ s = ".."))

/-- A marker cannot be mistaken for a name. -/
theorem IsMarker.not_isWord {s : String} (h : IsMarker s) : ¬IsWord s := by
  rintro ⟨hstarts, -⟩
  rcases h with rfl | rfl
  · exact absurd hstarts (by decide)
  · exact absurd hstarts (by decide)

/-- Identifiers behind any number of markers. -/
def IsPath (segments : List String) : Prop :=
  ∃ markers names, segments = markers ++ names ∧ (∀ s ∈ markers, IsMarker s) ∧ ∀ s ∈ names, IsWord s

namespace ImportTree

/-- Whether the tree is one further down a path. -/
def isPath : ImportTree → Bool
  | path .. => true
  | _ => false

mutual

/-- The tree can be written down. -/
def Normal : ImportTree → Prop
  | item name localName args => IsWord name ∧ (∀ s ∈ localName, IsWord s) ∧
    ∀ all ∈ args, ∀ s ∈ all, IsArgument s
  | wildcard localName => ∀ s ∈ localName, IsWord s
  | list trees => AllNormal trees
  | path segments tail => IsPath segments ∧ segments ≠ [] ∧ tail.isPath = false ∧ tail.Normal

/-- The trees can be written down. -/
def AllNormal : List ImportTree → Prop
  | [] => True
  | tree :: trees => tree.Normal ∧ AllNormal trees

end

end ImportTree

/-! ### Lexemes -/

/-- A name as a lexeme. -/
def Lexeme.word (s : String) : Lexeme :=
  ⟨.word, s.toList⟩

/-- An argument as a lexeme. -/
def Lexeme.argument (s : String) : Lexeme :=
  ⟨if Text.StartsWord s.toList then .word else .number, s.toList⟩

/-- A name that is given to what is imported. -/
def aliasLexemes : Option String → List Lexeme
  | none => []
  | some name => [keyword "as", word name]

/-- Further arguments and the end of the list. -/
def moreArgLexemes : List String → List Lexeme
  | [] => [symbol ")"]
  | arg :: args => symbol "," :: argument arg :: moreArgLexemes args

/-- Arguments in parentheses. -/
def argLexemes : Option (List String) → List Lexeme
  | none => []
  | some [] => [symbol "(", symbol ")"]
  | some (arg :: args) => symbol "(" :: argument arg :: moreArgLexemes args

/-- The segments of a path in front of something else. -/
inductive PathPrinting : List String → List Lexeme → Prop
  | nil : PathPrinting [] []
  | marker {s : String} {segments : List String} {xs : List Lexeme} (hs : IsMarker s)
    (h : PathPrinting segments xs) : PathPrinting (s :: segments) (marker (s ++ "/") :: xs)
  | name {s separator : String} {segments : List String} {xs : List Lexeme} (hs : ¬IsMarker s)
    (hseparator : separator ∈ ["/", "::", "."]) (h : PathPrinting segments xs) :
    PathPrinting (s :: segments) (word s :: symbol separator :: xs)

/-- Nothing but line breaks. -/
def Breaks (xs : List Lexeme) : Prop :=
  ∀ x ∈ xs, x.kind = .lineBreak ∧ x.text.IsLineBreak

namespace ImportTree

mutual

/-- The lexemes are those of the tree. -/
inductive Printing : ImportTree → List Lexeme → Prop
  | item (name : String) (localName : Option String) (args : Option (List String)) :
    Printing (.item name localName args) (word name :: (argLexemes args ++ aliasLexemes localName))
  | wildcard (localName : Option String) :
    Printing (.wildcard localName) (symbol "*" :: aliasLexemes localName)
  | list {trees : List ImportTree} {xs : List Lexeme} (h : ListPrinting trees xs) :
    Printing (.list trees) (symbol "\x7b" :: (xs ++ [symbol "\x7d"]))
  | path {segments : List String} {tail : ImportTree} {xs ys : List Lexeme}
    (hsegments : PathPrinting segments xs) (h : Printing tail ys) :
    Printing (.path segments tail) (xs ++ ys)

/-- The lexemes are those of the trees of a list, separated by commas. -/
inductive ListPrinting : List ImportTree → List Lexeme → Prop
  | nil {xs : List Lexeme} (hxs : Breaks xs) : ListPrinting [] xs
  | last {tree : ImportTree} {xs ys zs : List Lexeme} (hxs : Breaks xs) (h : Printing tree ys)
    (hzs : Breaks zs) : ListPrinting [tree] (xs ++ (ys ++ zs))
  | cons {tree : ImportTree} {trees : List ImportTree} {xs ys zs more : List Lexeme}
    (hxs : Breaks xs) (h : Printing tree ys) (hzs : Breaks zs) (hmore : ListPrinting trees more) :
    ListPrinting (tree :: trees) (xs ++ (ys ++ (zs ++ symbol "," :: more)))

end

/-- The tree may be written as the text. -/
def Prints (tree : ImportTree) (t : Text) : Prop :=
  ∃ xs, tree.Printing xs ∧ Spaced xs t

/-! ### Every tree can be printed -/

/-- A slash may stand behind every segment. -/
theorem exists_pathPrinting (segments : List String) : ∃ xs, PathPrinting segments xs := by
  induction segments with
  | nil => exact ⟨[], .nil⟩
  | cons s segments ih =>
    obtain ⟨xs, hxs⟩ := ih
    have hslash : "/" ∈ ["/", "::", "."] := List.mem_cons_self
    by_cases hs : IsMarker s
    · exact ⟨_, .marker hs hxs⟩
    · exact ⟨_, .name hs hslash hxs⟩

mutual

/-- Every tree has lexemes. It need not be in normal form for that. -/
theorem exists_printing : ∀ tree : ImportTree, ∃ xs, tree.Printing xs
  | .item name localName args => ⟨_, .item name localName args⟩
  | .wildcard localName => ⟨_, .wildcard localName⟩
  | .list trees =>
    have ⟨_, hxs⟩ := exists_listPrinting trees
    ⟨_, .list hxs⟩
  | .path segments tail =>
    have ⟨_, hxs⟩ := exists_pathPrinting segments
    have ⟨_, hys⟩ := exists_printing tail
    ⟨_, .path hxs hys⟩

theorem exists_listPrinting : ∀ trees : List ImportTree, ∃ xs, ListPrinting trees xs
  | [] => ⟨[], .nil (List.forall_mem_nil _)⟩
  | tree :: trees =>
    have ⟨_, hxs⟩ := exists_printing tree
    have ⟨_, hys⟩ := exists_listPrinting trees
    ⟨_, .cons (List.forall_mem_nil _) hxs (List.forall_mem_nil _) hys⟩

end

end ImportTree

/-- Lexemes with a blank behind each are spelled out. -/
theorem exists_spaced (xs : List Lexeme) : ∃ t, Spaced xs t := by
  induction xs with
  | nil => exact ⟨[], List.forall_mem_nil _⟩
  | cons x xs ih =>
    obtain ⟨t, ht⟩ := ih
    have hapart : x.Apart (' ' :: t) := by
      refine ⟨fun _ ↦ ?_, fun _ h ↦ absurd (Option.some.inj h) (by decide)⟩
      show isIdentifierRest ' ' = false
      decide
    exact ⟨x.text ++ ' ' :: t, [], _, rfl, List.forall_mem_nil _, hapart,
      ht.behind (s := [' ']) (List.forall_mem_singleton.2 (by decide))⟩

/-- Every tree may be written as some text. -/
theorem ImportTree.exists_prints (tree : ImportTree) : ∃ t, tree.Prints t := by
  obtain ⟨xs, hxs⟩ := tree.exists_printing
  obtain ⟨t, ht⟩ := exists_spaced xs
  exact ⟨t, xs, hxs, ht⟩

/-! ### Characters of printed trees -/

namespace Lexeme

variable {s : String}

/-- The lexeme has a text, and no number sign in it. -/
def Signless (x : Lexeme) : Prop :=
  x.text ≠ [] ∧ '#' ∉ x.text

instance : DecidablePred Signless :=
  fun x ↦ inferInstanceAs (Decidable (x.text ≠ [] ∧ '#' ∉ x.text))

/-- The characters of identifiers do not include the number sign. -/
theorem signless_word (hs : IsWord s) : (word s).Signless := by
  refine ⟨?_, fun hmem ↦ ?_⟩
  · intro hnil
    have hstarts : Text.StartsWord s.toList := hs.1
    rw [show s.toList = [] from hnil] at hstarts
    exact hstarts
  · exact absurd (hs.2 _ hmem) (by decide)

/-- Neither do those of numbers. -/
theorem signless_argument (hs : IsArgument s) : (argument s).Signless := by
  rcases hs with hword | hnumber
  · exact signless_word hword
  · refine ⟨?_, fun hmem ↦ ?_⟩
    · intro hnil
      rw [show s.toList = [] from hnil] at hnumber
      cases hnumber
    · have hbounds := toNat_of_isNumeric (Scan.numeric_number hnumber _ hmem)
      exact absurd hbounds (by decide)

theorem signless_marker (hs : IsMarker s) : (marker (s ++ "/")).Signless := by
  rcases hs with rfl | rfl <;> decide

theorem signless_separator (hs : s ∈ ["/", "::", "."]) : (symbol s).Signless := by
  simp only [List.mem_cons, List.not_mem_nil, or_false] at hs
  rcases hs with rfl | rfl | rfl <;> decide

end Lexeme

/-- None of the lexemes is empty or has a number sign in it. -/
def Signless (xs : List Lexeme) : Prop :=
  ∀ x ∈ xs, x.Signless

namespace Signless

variable {x : Lexeme} {xs ys : List Lexeme} {t : Text}

theorem nil : Signless [] :=
  List.forall_mem_nil _

theorem cons (hx : x.Signless) (hxs : Signless xs) : Signless (x :: xs) :=
  List.forall_mem_cons.2 ⟨hx, hxs⟩

theorem append (hxs : Signless xs) (hys : Signless ys) : Signless (xs ++ ys) :=
  List.forall_mem_append.2 ⟨hxs, hys⟩

/-- Blanks are no number signs either, so there is none in the text. -/
theorem not_mem (h : Signless xs) (hxs : Spaced xs t) : '#' ∉ t := by
  intro hmem
  rcases hxs.mem_cases hmem with hblank | ⟨x, hx, hsign⟩
  · exact absurd hblank (by decide)
  · exact (h x hx).2 hsign

/-- Each lexeme takes up a character at least. -/
theorem length_le (h : Signless xs) (hxs : Spaced xs t) : xs.length ≤ t.length :=
  hxs.length_le fun x hx ↦ (h x hx).1

end Signless

/-- The other name that something is imported by is an identifier. -/
theorem signless_alias {localName : Option String} (h : ∀ s ∈ localName, IsWord s) :
    Signless (aliasLexemes localName) := by
  cases localName with
  | none => exact .nil
  | some name => exact .cons (by decide) (.cons (signless_word (h name rfl)) .nil)

theorem signless_moreArgs {args : List String} (h : ∀ s ∈ args, IsArgument s) :
    Signless (moreArgLexemes args) := by
  induction args with
  | nil => exact .cons (by decide) .nil
  | cons arg args ih =>
    obtain ⟨harg, hargs⟩ := List.forall_mem_cons.1 h
    exact .cons (by decide) (.cons (signless_argument harg) (ih hargs))

/-- Arguments are identifiers and numbers, with signs around them that are symbols. -/
theorem signless_args {args : Option (List String)} (h : ∀ all ∈ args, ∀ s ∈ all, IsArgument s) :
    Signless (argLexemes args) := by
  match args with
  | none => exact .nil
  | some [] => exact .cons (by decide) (.cons (by decide) .nil)
  | some (arg :: args) =>
    obtain ⟨harg, hargs⟩ := List.forall_mem_cons.1 (h _ rfl)
    exact .cons (by decide) (.cons (signless_argument harg) (signless_moreArgs hargs))

/-- Paths are made of markers, identifiers and separators. -/
theorem PathPrinting.signless {segments : List String} {xs : List Lexeme}
    (h : PathPrinting segments xs) (hsegments : IsPath segments) : Signless xs := by
  have hall : ∀ s ∈ segments, IsMarker s ∨ IsWord s := by
    obtain ⟨markers, names, rfl, hmarkers, hnames⟩ := hsegments
    exact List.forall_mem_append.2
      ⟨fun s hs ↦ .inl (hmarkers s hs), fun s hs ↦ .inr (hnames s hs)⟩
  clear hsegments
  induction h with
  | nil => exact .nil
  | marker hs _ ih => exact .cons (signless_marker hs) (ih (List.forall_mem_cons.1 hall).2)
  | name hs hseparator _ ih =>
    obtain ⟨hword, hall⟩ := List.forall_mem_cons.1 hall
    exact .cons (signless_word (hword.resolve_left hs))
      (.cons (signless_separator hseparator) (ih hall))

/-- Line breaks are no number signs. -/
theorem Breaks.signless {xs : List Lexeme} (h : Breaks xs) : Signless xs := by
  intro x hx
  obtain ⟨-, heq | ⟨c, hc, heq⟩⟩ := h x hx
  · rw [Lexeme.Signless, heq]
    decide
  · rw [Lexeme.Signless, heq]
    refine ⟨List.cons_ne_nil _ _, fun hmem ↦ ?_⟩
    rw [← List.mem_singleton.1 hmem] at hc
    exact absurd hc (by decide)

namespace ImportTree

mutual

/-- There is no number sign in a tree in normal form, by recursion along the tree. -/
theorem Printing.signless {xs : List Lexeme} :
    ∀ {tree : ImportTree}, tree.Printing xs → tree.Normal → Signless xs
  | .item name localName args, h, hnormal => by
    cases h
    exact .cons (signless_word hnormal.1)
      ((signless_args hnormal.2.2).append (signless_alias hnormal.2.1))
  | .wildcard localName, h, hnormal => by
    cases h
    exact .cons (by decide) (signless_alias hnormal)
  | .list trees, h, hnormal => by
    cases h with
    | list h => exact .cons (by decide) (h.signless hnormal |>.append (.cons (by decide) .nil))
  | .path segments tail, h, hnormal => by
    cases h with
    | path hsegments h => exact (hsegments.signless hnormal.1).append (h.signless hnormal.2.2.2)

/-- There is none in a list of such trees, wherever lines are broken. -/
theorem ListPrinting.signless {xs : List Lexeme} :
    ∀ {trees : List ImportTree}, ListPrinting trees xs → AllNormal trees → Signless xs
  | [], h, _ => by
    cases h with
    | nil hxs => exact hxs.signless
  | tree :: trees, h, hnormal => by
    cases h with
    | last hxs h hzs => exact hxs.signless.append ((h.signless hnormal.1).append hzs.signless)
    | cons hxs h hzs hmore =>
      exact hxs.signless.append ((h.signless hnormal.1).append
        (hzs.signless.append (.cons (by decide) (hmore.signless hnormal.2))))

end

end ImportTree

end ShaderLink
