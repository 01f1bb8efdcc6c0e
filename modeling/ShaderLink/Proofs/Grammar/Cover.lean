import Mathlib.Computability.Language
import ShaderLink.Module.Path
import ShaderLink.Proofs.Grammar.Tokens

/-!
# What stretches of shader code are read as

Between two cursors shader code is a chain of lexemes, in groups. In the place of some groups, like
the references, other names may be put. `c.Covers L spans c'` says that whatever names are put
there, the lexemes that are not ignored make a word of the language `L`, and that the groups include
those at the given spans. So a fact about a language that a rule of the grammar reads is also a fact
about the text that renaming leaves of what it read.
-/

namespace ShaderLink

open Lexeme

/-- The lexemes that are not ignored. -/
def significant (xs : List Lexeme) : List Lexeme :=
  xs.filter fun x ↦ !Lexicon.shader.ignores x.kind

@[simp] theorem significant_nil : significant [] = [] := rfl

/-- What is ignored is left out piece by piece. -/
@[simp] theorem significant_append (xs ys : List Lexeme) :
    significant (xs ++ ys) = significant xs ++ significant ys :=
  List.filter_append _ _

theorem significant_eq_nil {xs : List Lexeme} (h : Ignored xs) : significant xs = [] :=
  List.filter_eq_nil_iff.2 fun x hx ↦ by simp [h x hx]

theorem significant_singleton {x : Lexeme} (h : Lexicon.shader.ignores x.kind = false) :
    significant [x] = [x] :=
  List.filter_eq_self.2 (List.forall_mem_singleton.2 (by simp [h]))

/-- The last lexeme that is read is the last one that is not ignored. -/
theorem getLast?_of_significant {xs : List Lexeme} {y : Lexeme}
    (htight : ∀ x ∈ xs.getLast?, Lexicon.shader.ignores x.kind = false)
    (hy : (significant xs).getLast? = some y) : xs.getLast? = some y := by
  rcases List.eq_nil_or_concat xs with rfl | ⟨front, x, rfl⟩
  · cases hy
  · rw [List.concat_eq_append] at htight hy ⊢
    rw [List.getLast?_concat] at htight
    rw [significant_append, significant_singleton (htight x rfl), List.getLast?_concat] at hy
    rw [List.getLast?_concat, hy]

/-- The lexemes stand between the cursors, each of them behind ignored ones. -/
inductive Cursor.Spells : Cursor → List Lexeme → Cursor → Prop
  | nil (c : Cursor) : Cursor.Spells c [] c
  | cons {c c₁ c' : Cursor} {x : Lexeme} {xs : List Lexeme} (hx : c.Next x c₁)
    (h : Cursor.Spells c₁ xs c') : Cursor.Spells c (x :: xs) c'

/-- A separator and a word stand in front of everything else. -/
def Lexeme.StartsStep (separator : String) (xs : List Lexeme) : Prop :=
  ∃ x ys, x.kind = .word ∧ xs = symbol separator :: x :: ys

/-- A separator and a word are next. -/
def Cursor.StartsStep (separator : String) (c : Cursor) : Prop :=
  ∃ x c₁ c₂, x.kind = .word ∧ c.Next (symbol separator) c₁ ∧ c₁.Next x c₂

namespace Cursor

variable {c c₁ c₂ c' : Cursor} {x y : Lexeme} {xs ys : List Lexeme}

/-- Ignored text in front of the next lexeme does not count. -/
theorem Next.behind (hxs : c.Lexes xs c₁) (hignored : Ignored xs) (h : c₁.Next x c') :
    c.Next x c' := by
  obtain ⟨ys, hys, hignored', hx⟩ := h
  refine ⟨xs ++ ys, ?_, List.forall_mem_append.2 ⟨hignored, hignored'⟩, hx⟩
  rw [List.append_assoc]
  exact hxs.trans hys

/-- There is only one next lexeme. -/
theorem Next.unique (h : c.Next x c₁) (h' : c.Next y c₂) : x = y ∧ c₁ = c₂ := by
  obtain ⟨xs, hxs, hignored, hx⟩ := h
  obtain ⟨ys, hys, hignored', hy⟩ := h'
  induction xs generalizing c ys with
  | nil =>
    cases ys with
    | nil =>
      obtain ⟨rfl, c₃, hnil, hnil'⟩ := hxs.unique hys
      exact ⟨rfl, hnil.eq_of_nil.symm.trans hnil'.eq_of_nil⟩
    | cons z ys =>
      obtain ⟨rfl, -⟩ := hxs.unique hys
      rw [(List.forall_mem_cons.1 hignored').1] at hx
      cases hx
  | cons z xs ih =>
    obtain ⟨hz, hignored⟩ := List.forall_mem_cons.1 hignored
    cases ys with
    | nil =>
      obtain ⟨rfl, -⟩ := hxs.unique hys
      rw [hz] at hy
      cases hy
    | cons z' ys =>
      obtain ⟨-, c₃, hxs, hys⟩ := hxs.unique hys
      exact ih hxs hignored ys hys (List.forall_mem_cons.1 hignored').2

/-- Where another lexeme is next, no separator is. -/
theorem Next.not_startsStep {separator : String} (h : c.Next x c₁) (hne : x ≠ symbol separator) :
    ¬c.StartsStep separator := by
  rintro ⟨y, c₂, c₃, -, hnext, -⟩
  exact hne (h.unique hnext).1

/-- The first lexeme is the next. -/
theorem Spells.uncons (h : c.Spells (x :: xs) c') : ∃ c₁, c.Next x c₁ ∧ c₁.Spells xs c' := by
  cases h with
  | cons hx h => exact ⟨_, hx, h⟩

theorem Spells.length_rest_le (h : c.Spells xs c') : c'.rest.length ≤ c.rest.length := by
  induction h with
  | nil c => exact Nat.le_refl _
  | cons hx h ih => exact ih.trans hx.length_le

/-- Spellings are put one behind the other, -/
theorem Spells.append (h : c.Spells xs c₁) (h' : c₁.Spells ys c') : c.Spells (xs ++ ys) c' := by
  induction h with
  | nil => exact h'
  | cons hx h ih => exact .cons hx (ih h')

/-- and taken apart again. -/
theorem Spells.split (h : c.Spells (xs ++ ys) c') : ∃ c₁, c.Spells xs c₁ ∧ c₁.Spells ys c' := by
  induction xs generalizing c with
  | nil => exact ⟨c, .nil c, h⟩
  | cons x xs ih =>
    obtain ⟨c₁, hx, h⟩ := Spells.uncons h
    obtain ⟨c₂, hxs, hys⟩ := ih h
    exact ⟨c₂, .cons hx hxs, hys⟩

theorem Spells.split_cons {x : Lexeme} (h : c.Spells (xs ++ x :: ys) c') :
    ∃ c₁, c.Spells (xs ++ [x]) c₁ ∧ c₁.Spells ys c' := by
  rw [List.append_cons] at h
  exact h.split

/-- Each lexeme takes up some of the text. -/
theorem Spells.length_le (h : c.Spells xs c') : xs.length + c'.rest.length ≤ c.rest.length := by
  induction h with
  | nil c => exact (Nat.zero_add _).le
  | cons hx h ih =>
    have := hx.length_lt
    rw [List.length_cons]
    omega

/-- A text that ends with a lexeme that counts is spelled by those that count. -/
theorem Lexes.spells_behind (hys : c.Lexes ys c₁) (hignored : Ignored ys) (h : c₁.Lexes xs c')
    (htight : ∀ x ∈ (ys ++ xs).getLast?, Lexicon.shader.ignores x.kind = false) :
    c.Spells (significant xs) c' := by
  induction xs generalizing c c₁ ys with
  | nil =>
    obtain rfl := h.eq_of_nil
    obtain rfl | ⟨zs, z, rfl⟩ := List.eq_nil_or_concat ys
    · obtain rfl := hys.eq_of_nil
      exact .nil c
    · rw [List.concat_eq_append] at hignored htight
      have hz := hignored z (List.mem_append_right _ List.mem_cons_self)
      rw [htight z (by simp)] at hz
      cases hz
  | cons x xs ih =>
    obtain ⟨c₂, hx, hxs⟩ := h.uncons
    by_cases hx' : Lexicon.shader.ignores x.kind = true
    · rw [significant, List.filter_cons_of_neg (by simp [hx'])]
      refine ih (hys.trans hx)
        (List.forall_mem_append.2 ⟨hignored, List.forall_mem_singleton.2 hx'⟩) hxs ?_
      rwa [List.append_assoc, List.singleton_append]
    · rw [significant, List.filter_cons_of_pos (by simp [hx'])]
      refine .cons ⟨ys, hys.trans hx, hignored, Bool.eq_false_iff.2 hx'⟩
        (ih (.refl c₂) (List.forall_mem_nil _) hxs fun y hy ↦ htight y ?_)
      rw [List.getLast?_append, List.getLast?_cons]
      rw [List.nil_append] at hy
      rw [hy]
      rfl

/-- The lexemes that are not ignored are read one by one. -/
theorem Lexes.spells (h : c.Lexes xs c')
    (htight : ∀ x ∈ xs.getLast?, Lexicon.shader.ignores x.kind = false) :
    c.Spells (significant xs) c' :=
  spells_behind (.refl c) (List.forall_mem_nil _) h htight

end Cursor

namespace Lexeme

/-- Lexemes that stay as they are. -/
def Group.plain (xs : List Lexeme) : Group :=
  ⟨xs, false, nofun⟩

/-- Whatever is put in the place of the group is not reserved. -/
def Patch.Unreserved (p : Patch) : Prop :=
  ∀ w ∈ p.word?, isKeyword (String.ofList w) = false

/-- Where no name is put in, nothing changes. -/
theorem Patch.result_eq {p : Patch} (h : p.named = false) : p.result = p.lexemes := by
  obtain ⟨g, word?, fits⟩ := p
  cases word? with
  | none => rfl
  | some w =>
    have hnamed := (fits w rfl).1
    rw [h] at hnamed
    cases hnamed

/-- What stands in the place of a group is the group or a single name. -/
theorem Patch.significant_result (p : Patch) (h : p.Unreserved) :
    significant p.result = significant p.lexemes ∨
      ∃ x : Lexeme, x.IsName ∧ [x] = significant p.result := by
  obtain ⟨g, word?, fits⟩ := p
  cases word? with
  | none => exact .inl rfl
  | some w => exact .inr ⟨⟨.word, w⟩, ⟨rfl, h w rfl⟩, rfl⟩

/-- A name only takes the place of what starts with a word, so that the lexemes in front of the
first word stay. -/
theorem Patch.take_eq {ps : List Patch} {k : Nat}
    (h : (∀ x ∈ (significant (ps.flatMap Patch.result)).take k, x.kind ≠ .word) ∨
      ∀ x ∈ (significant (ps.flatMap fun p ↦ p.lexemes)).take k, x.kind ≠ .word) :
    (significant (ps.flatMap Patch.result)).take k =
      (significant (ps.flatMap fun p ↦ p.lexemes)).take k := by
  induction ps generalizing k with
  | nil => rfl
  | cons p ps ih =>
    rw [List.flatMap_cons, List.flatMap_cons, significant_append, significant_append] at h ⊢
    obtain ⟨g, word?, fits⟩ := p
    cases word? with
    | none =>
      change (∀ x ∈ (significant g.lexemes ++ _).take k, _) ∨ _ at h
      show (significant g.lexemes ++ _).take k = _
      rw [List.take_append, List.take_append] at h ⊢
      rw [ih (h.imp (fun h ↦ (List.forall_mem_append.1 h).2) fun h ↦
        (List.forall_mem_append.1 h).2)]
    | some w =>
      obtain ⟨⟨x, hx, hword⟩, -⟩ := g.words (fits w rfl).1
      obtain ⟨xs, hxs⟩ := List.head?_eq_some_iff.1 hx
      cases k with
      | zero => rfl
      | succ k =>
        rcases h with h | h
        · exact absurd rfl (h ⟨.word, w⟩ List.mem_cons_self)
        · refine absurd hword (h x ?_)
          dsimp only
          rw [hxs, significant, List.filter_cons_of_pos (by rw [hword]; rfl)]
          exact List.mem_cons_self

/-- The spans of the groups that are named, from an offset on. -/
def namedSpans (offset : Nat) : List Group → List Span
  | [] => []
  | g :: gs =>
    (if g.named then [⟨offset, (join g.lexemes).size⟩] else []) ++
      namedSpans (offset + (join g.lexemes).size) gs

theorem namedSpans_append (offset : Nat) (gs gs' : List Group) :
    namedSpans offset (gs ++ gs') = namedSpans offset gs ++
      namedSpans (offset + (join (gs.flatMap Group.lexemes)).size) gs' := by
  induction gs generalizing offset with
  | nil => rfl
  | cons g gs ih =>
    rw [List.cons_append, namedSpans, namedSpans, ih, List.flatMap_cons, join_append,
      Text.size_append, Nat.add_assoc, List.append_assoc]

end Lexeme

/-- What is in the language and does not start with a word. -/
def Language.notWordFirst (L : Language Lexeme) : Language Lexeme :=
  {ts | ts ∈ L ∧ ∀ x ∈ ts.head?, x.kind ≠ .word}

/-- What is in the language and does not start with a word behind a separator. -/
def Language.notStepFirst (separator : String) (L : Language Lexeme) : Language Lexeme :=
  {ts | ts ∈ L ∧ ¬StartsStep separator ts}

/-- The groups stand between the cursors, some of them at the spans, and are read as a word of the
language whatever names are put in. The last lexeme is not ignored. -/
structure Cursor.CoversBy (gs : List Group) (c : Cursor) (L : Language Lexeme) (spans : List Span)
    (c' : Cursor) : Prop where
  lexes : c.Lexes (gs.flatMap Group.lexemes) c'
  tight : ∀ x ∈ (gs.flatMap Group.lexemes).getLast?, Lexicon.shader.ignores x.kind = false
  spans : spans.Sublist (namedSpans c.offset gs)
  mem : ∀ ps : List Patch, ps.map Patch.toGroup = gs → (∀ p ∈ ps, p.Unreserved) →
    significant (ps.flatMap Patch.result) ∈ L

/-- Between the cursors, groups are read as a word of the language. -/
def Cursor.Covers (c : Cursor) (L : Language Lexeme) (spans : List Span) (c' : Cursor) : Prop :=
  ∃ gs, Cursor.CoversBy gs c L spans c'

namespace Cursor.Covers

variable {c c₁ c' : Cursor} {L M : Language Lexeme} {spans spans' : List Span} {x : Lexeme}

theorem refl (c : Cursor) : c.Covers 1 [] c :=
  ⟨[], .refl c, nofun, .slnil, fun ps hps _ ↦ by
    obtain rfl := List.map_eq_nil_iff.1 hps
    exact rfl⟩

/-- What is read in turn covers a product of languages. -/
theorem trans (h : c.Covers L spans c₁) (h' : c₁.Covers M spans' c') :
    c.Covers (L * M) (spans ++ spans') c' := by
  obtain ⟨gs, hlexes, htight, hspans, hmem⟩ := h
  obtain ⟨gs', hlexes', htight', hspans', hmem'⟩ := h'
  refine ⟨gs ++ gs', ?_, ?_, ?_, fun ps hps hall ↦ ?_⟩
  · rw [List.flatMap_append]
    exact hlexes.trans hlexes'
  · rw [List.flatMap_append, List.getLast?_append]
    intro x hx
    cases hlast : (gs'.flatMap Group.lexemes).getLast? with
    | none =>
      rw [hlast] at hx
      exact htight x hx
    | some y =>
      rw [hlast] at hx
      obtain rfl : y = x := Option.some.inj hx
      exact htight' y hlast
  · rw [namedSpans_append, ← hlexes.offset]
    exact hspans.append hspans'
  · obtain ⟨ps₁, ps₂, rfl, hps₁, hps₂⟩ := List.map_eq_append_iff.1 hps
    obtain ⟨hall₁, hall₂⟩ := List.forall_mem_append.1 hall
    rw [List.flatMap_append, significant_append]
    exact Language.mem_mul.2 ⟨_, hmem ps₁ hps₁ hall₁, _, hmem' ps₂ hps₂ hall₂, rfl⟩

/-- The language may be larger, and spans may be left out. -/
theorem mono (h : c.Covers L spans c') (hle : ∀ ts ∈ L, ts ∈ M) (hsub : spans'.Sublist spans) :
    c.Covers M spans' c' := by
  obtain ⟨gs, hlexes, htight, hspans, hmem⟩ := h
  exact ⟨gs, hlexes, htight, hsub.trans hspans, fun ps hps hall ↦ hle _ (hmem ps hps hall)⟩

theorem length_le (h : c.Covers L spans c') : c'.rest.length ≤ c.rest.length := by
  obtain ⟨gs, hlexes, -⟩ := h
  exact hlexes.length_le

/-- If no names are put in, the lexemes themselves are read. -/
theorem mem_of_coversBy {gs : List Group} (h : ∀ ps : List Patch, ps.map Patch.toGroup = gs →
    (∀ p ∈ ps, p.Unreserved) → significant (ps.flatMap Patch.result) ∈ L) :
    significant (gs.flatMap Group.lexemes) ∈ L := by
  have hkept := h (gs.map fun g ↦ ⟨g, none, nofun⟩) ?_ ?_
  · rwa [List.flatMap_map] at hkept
  · rw [List.map_map]
    exact List.map_id _
  · simp [Patch.Unreserved]

/-- What is not read as nothing has a first lexeme. -/
theorem exists_next (h : c.Covers L spans c') (hne : [] ∉ L) : ∃ x c₁, c.Next x c₁ := by
  obtain ⟨gs, hlexes, htight, -, hmem⟩ := h
  have hspells := hlexes.spells htight
  have hmem := mem_of_coversBy hmem
  cases hall : significant (gs.flatMap Group.lexemes) with
  | nil => exact absurd (hall ▸ hmem) hne
  | cons x xs =>
    rw [hall] at hspells
    obtain ⟨c₁, hx, -⟩ := hspells.uncons
    exact ⟨x, c₁, hx⟩

/-- The next lexeme covers itself. -/
theorem next (h : c.Next x c') : c.Covers {[x]} [] c' := by
  obtain ⟨xs, hlexes, hxs, hx⟩ := h
  refine ⟨[.plain (xs ++ [x])], ?_, ?_, List.nil_sublist _, fun ps hps _ ↦ ?_⟩
  · rwa [List.flatMap_singleton]
  · rw [List.flatMap_singleton]
    intro y hy
    rw [Group.plain, List.getLast?_append] at hy
    obtain rfl : x = y := Option.some.inj hy
    exact hx
  · obtain ⟨p, rfl, hp⟩ := List.map_eq_singleton_iff.1 hps
    rw [List.flatMap_singleton, Patch.result_eq (congrArg Group.named hp), hp]
    show significant (xs ++ [x]) ∈ _
    rw [significant_append, significant_eq_nil hxs, significant_singleton hx]
    exact rfl

/-- A named group is read as it is, or as a single name. -/
theorem of_group {xs : List Lexeme} {g : Group} (h : c.Lexes (xs ++ g.lexemes) c')
    (hxs : Ignored xs) (hg : g.named = true) :
    c.Covers {ts | ts = significant g.lexemes ∨ ∃ x : Lexeme, x.IsName ∧ [x] = ts}
      [⟨c.offset + (join xs).size, (join g.lexemes).size⟩] c' := by
  obtain ⟨-, y, hy, hlast⟩ := g.words hg
  have hall : [Group.plain xs, g].flatMap Group.lexemes = xs ++ g.lexemes := by
    rw [List.flatMap_cons, List.flatMap_singleton]
    rfl
  refine ⟨[.plain xs, g], ?_, ?_, ?_, fun ps hps hunreserved ↦ ?_⟩
  · rwa [hall]
  · rw [hall, List.getLast?_append, hy]
    intro x hx
    obtain rfl : y = x := Option.some.inj hx
    rw [hlast]
    rfl
  · rw [namedSpans, namedSpans, if_pos hg]
    exact .refl _
  · obtain ⟨front, rest, rfl, hfront, hrest⟩ := List.map_eq_cons_iff.1 hps
    obtain ⟨p, rfl, rfl⟩ := List.map_eq_singleton_iff.1 hrest
    have hignored : significant front.result = [] := by
      rw [Patch.result_eq (congrArg Group.named hfront), hfront]
      exact significant_eq_nil hxs
    rw [List.flatMap_cons, List.flatMap_singleton, significant_append, hignored, List.nil_append]
    exact p.significant_result (hunreserved p (by simp))

/-- In front of the first word, nothing is changed. -/
theorem take_significant {gs : List Group} {ps : List Patch} (hps : ps.map Patch.toGroup = gs)
    {k : Nat} (h : (∀ x ∈ (significant (ps.flatMap Patch.result)).take k, x.kind ≠ .word) ∨
      ∀ x ∈ (significant (gs.flatMap Group.lexemes)).take k, x.kind ≠ .word) :
    (significant (ps.flatMap Patch.result)).take k =
      (significant (gs.flatMap Group.lexemes)).take k := by
  have hlexemes : (ps.flatMap fun p ↦ p.lexemes) = gs.flatMap Group.lexemes := by
    rw [← hps, List.flatMap_map]
  rw [← hlexemes] at h ⊢
  exact Patch.take_eq h

/-- Where something other than a word stands, nothing that is read starts with a word. -/
theorem notWordFirst (h : c.Covers L spans c') (hx : c.Next x c₁) (hword : x.kind ≠ .word) :
    c.Covers (Language.notWordFirst L) spans c' := by
  obtain ⟨gs, hlexes, htight, hspans, hmem⟩ := h
  refine ⟨gs, hlexes, htight, hspans, fun ps hps hall ↦ ⟨hmem ps hps hall, fun y hy ↦ ?_⟩⟩
  have hspells := hlexes.spells htight
  have hfirst : ∀ z ∈ (significant (gs.flatMap Group.lexemes)).take 1, z.kind ≠ .word := by
    intro z hz
    cases hread : significant (gs.flatMap Group.lexemes) with
    | nil =>
      rw [hread] at hz
      cases hz
    | cons z' zs =>
      rw [hread] at hspells hz
      obtain rfl := List.mem_singleton.1 hz
      obtain ⟨c₂, hnext, -⟩ := hspells.uncons
      rwa [← (hx.unique hnext).1]
  refine hfirst y ?_
  rw [← take_significant hps (.inr hfirst), List.take_one]
  exact Option.mem_toList.2 hy

/-- Where no word behind a separator stands, nothing that is read starts with one. -/
theorem notStepFirst {separator : String} (h : c.Covers L spans c')
    (hstep : ¬c.StartsStep separator) :
    c.Covers (Language.notStepFirst separator L) spans c' := by
  obtain ⟨gs, hlexes, htight, hspans, hmem⟩ := h
  refine ⟨gs, hlexes, htight, hspans, fun ps hps hall ↦ ⟨hmem ps hps hall, ?_⟩⟩
  rintro ⟨y, ys, hy, hresult⟩
  have hspells := hlexes.spells htight
  have htake (k : Nat) := take_significant (k := k) hps
  rw [hresult] at htake
  generalize significant (gs.flatMap Group.lexemes) = zs at hspells htake
  have hsymbol : (symbol separator).kind ≠ .word := by rintro ⟨⟩
  -- the separator has been there before, and behind it another word
  have hfirst := htake 1 (.inl (by simp [hsymbol]))
  cases zs with
  | nil => cases hfirst
  | cons z zs =>
    obtain rfl : symbol separator = z := (List.cons.inj hfirst).1
    have hsecond : ∃ z ∈ zs.head?, z.kind = .word := by
      by_contra hnone
      have hsame := htake 2 (.inr ?_)
      · cases zs with
        | nil => cases (List.cons.inj hsame).2
        | cons z zs =>
          obtain rfl : y = z := (List.cons.inj (List.cons.inj hsame).2).1
          exact hnone ⟨y, rfl, hy⟩
      · rw [List.take_succ_cons, List.take_one]
        refine List.forall_mem_cons.2 ⟨hsymbol, fun z hz hword ↦ hnone ⟨z, ?_, hword⟩⟩
        exact Option.mem_toList.1 hz
    obtain ⟨z, hz, hword⟩ := hsecond
    obtain ⟨zs, rfl⟩ := List.head?_eq_some_iff.1 hz
    obtain ⟨c₁, hnext, hrest⟩ := hspells.uncons
    obtain ⟨c₂, hnext', -⟩ := hrest.uncons
    exact hstep ⟨z, c₁, c₂, hword, hnext, hnext'⟩

end Cursor.Covers

end ShaderLink
