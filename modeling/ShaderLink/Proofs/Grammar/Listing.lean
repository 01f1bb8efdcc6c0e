import ShaderLink.Proofs.Grammar.ItemComplete

/-!
# Texts of nothing but declarations and statements

A text **lists** declarations and statements if these are what is read there, whatever stands behind
it (`Text.Lists`). Such texts can be put one behind the other. Gaps are such texts, which list
nothing, and so are the groups of a single declaration or statement, whatever names are put in
(`Lexeme.IsUnit.lists`).

Behind the last of them a text may still end with a comment (`Text.IsListing`). All of it is read as
items, none of which directs any linking (`Text.IsListing.exists_run_items`).
-/

namespace ShaderLink

open Lexeme

/-- The lexemes are what is left, between ignored ones. -/
def Cursor.SpellsAll (c : Cursor) (xs : List Lexeme) : Prop :=
  ∃ c', c.Spells xs c' ∧ c'.Ends

/-- What is ignored in front does not count. -/
theorem Cursor.SpellsAll.exists_skips {c : Cursor} {xs : List Lexeme} (h : c.SpellsAll xs) :
    ∃ c₁, c.Skips c₁ ∧ c₁.SpellsAll xs := by
  obtain ⟨c', hspells, hends⟩ := h
  cases xs with
  | nil =>
    cases hspells
    obtain ⟨c₁, hskips, hends⟩ := hends.exists_skips
    exact ⟨c₁, hskips, c₁, .nil c₁, hends⟩
  | cons x xs =>
    obtain ⟨c₁, hskips, hspells⟩ := hspells.exists_skips
    exact ⟨c₁, hskips, c', hspells, hends⟩

theorem Cursor.Skips.spellsAll {c c₁ : Cursor} {xs : List Lexeme} (h : c.Skips c₁)
    (hspells : c₁.SpellsAll xs) : c.SpellsAll xs := by
  obtain ⟨c', hspells, hends⟩ := hspells
  cases xs with
  | nil =>
    cases hspells
    exact ⟨c, .nil c, h.ends hends⟩
  | cons x xs => exact ⟨c', h.spells hspells, hends⟩

namespace Lexeme

/-- Groups that can stand anywhere and are a declaration or a statement whatever names are put
in. -/
structure IsUnit (gs : List Group) : Prop where
  along : Along Loose (gs.flatMap Group.lexemes) []
  last : ∃ s, IsClosing s ∧ (gs.flatMap Group.lexemes).getLast? = some (symbol s)
  mem : ∀ ps : List Patch, ps.map Patch.toGroup = gs → (∀ p ∈ ps, p.Unreserved) →
    significant (ps.flatMap Patch.result) ∈ declarations + statements

namespace Patch

variable {ps : List Patch} {x : Lexeme}

/-- Only what ends with a word can be replaced. -/
theorem result_eq_of_getLast? (p : Patch) (h : ∀ x ∈ p.lexemes.getLast?, x.kind ≠ .word) :
    p.result = p.lexemes := by
  obtain ⟨g, word?, fits⟩ := p
  cases word? with
  | none => rfl
  | some w =>
    obtain ⟨-, x, hx, hword⟩ := g.words (fits w rfl).1
    exact absurd hword (h x hx)

/-- Names that are put in leave the last lexeme, unless it is a word. -/
theorem getLast?_result (h : (ps.flatMap fun p ↦ p.lexemes).getLast? = some x)
    (hx : x.kind ≠ .word) : (ps.flatMap result).getLast? = some x := by
  induction ps with
  | nil => exact h
  | cons p ps ih =>
    rw [List.flatMap_cons, List.getLast?_append] at h ⊢
    cases hrest : (ps.flatMap fun p ↦ p.lexemes).getLast? with
    | some y =>
      rw [hrest] at h
      obtain rfl : y = x := Option.some.inj h
      rw [ih hrest]
      rfl
    | none =>
      rw [hrest] at h
      have hlast : p.lexemes.getLast? = some x := h
      -- behind the group there is nothing, and so nothing is put in there
      have hnil : ps.flatMap result = [] := by
        refine List.flatMap_eq_nil_iff.2 fun q hq ↦ ?_
        have hq : q.lexemes = [] :=
          List.flatMap_eq_nil_iff.1 (List.getLast?_eq_none_iff.1 hrest) q hq
        rw [q.result_eq_of_getLast? (by rw [hq]; exact nofun), hq]
      rw [hnil, p.result_eq_of_getLast? fun y hy ↦ ?_, hlast]
      · rfl
      · obtain rfl : x = y := Option.some.inj (hlast.symm.trans hy)
        exact hx

end Patch

end Lexeme

namespace Text

variable {s t : Text}

/-- Whatever stands behind the text, declarations and statements are what is read in it. -/
def Lists (t : Text) : Prop :=
  ∃ tss : List (List Lexeme), (∀ ts ∈ tss, ts ∈ declarations + statements) ∧
    ∀ (r : Text) (offset : Nat) (xs : List Lexeme), Cursor.SpellsAll ⟨r, offset + t.size⟩ xs →
      Cursor.SpellsAll ⟨t ++ r, offset⟩ (tss.flatten ++ xs)

/-- Nothing but declarations and statements is in the text, and perhaps a comment in its last
line. -/
def IsListing (t : Text) : Prop :=
  ∃ s w : Text, t = s ++ w ∧ s.Lists ∧ (w = [] ∨ w.OpenComment)

/-- Listings are put one behind the other. -/
theorem Lists.append (h : s.Lists) (h' : t.Lists) : Lists (s ++ t) := by
  obtain ⟨tss, hall, hs⟩ := h
  obtain ⟨tss', hall', ht⟩ := h'
  refine ⟨tss ++ tss', List.forall_mem_append.2 ⟨hall, hall'⟩, fun r offset xs hspells ↦ ?_⟩
  rw [size_append, ← Nat.add_assoc] at hspells
  rw [List.append_assoc, List.flatten_append, List.append_assoc]
  exact hs _ _ _ (ht _ _ _ hspells)

/-- A gap lists nothing. -/
theorem IsGap.lists (h : s.IsGap) : s.Lists := by
  refine ⟨[], List.forall_mem_nil _, fun r offset xs hspells ↦ ?_⟩
  obtain ⟨c₁, hskips, hspells⟩ := hspells.exists_skips
  exact (h _ _ _ hskips).spellsAll hspells

theorem lists_nil : Lists [] :=
  isGap_nil.lists

theorem lists_breaks (n : Nat) : Lists (List.replicate n '\n') :=
  IsGap.lists (isGap_blanks fun c hc ↦ by rw [List.eq_of_mem_replicate hc]; rfl)

theorem Lists.isListing (h : s.Lists) : s.IsListing :=
  ⟨s, [], (List.append_nil s).symm, h, .inl rfl⟩

/-- A comment that is open may only follow the last of them. -/
theorem Lists.append_isListing (h : s.Lists) (h' : t.IsListing) : IsListing (s ++ t) := by
  obtain ⟨s', w, rfl, hs', hw⟩ := h'
  exact ⟨s ++ s', w, (List.append_assoc _ _ _).symm, h.append hs', hw⟩

/-- A comment that is still open has not reached the end of its line. -/
theorem OpenComment.isLineBreak_eq_false (h : t.OpenComment) :
    ∀ c ∈ t, isLineBreak c = false := by
  obtain ⟨v, rfl, hv⟩ := h
  exact List.forall_mem_cons.2 ⟨rfl, List.forall_mem_cons.2 ⟨rfl, hv⟩⟩

/-- If the text is at the end of a line, it does not end with a comment. -/
theorem IsListing.lists (h : t.IsListing) (hbreak : ∀ c ∈ t.getLast?, isLineBreak c = true) :
    t.Lists := by
  obtain ⟨s, w, rfl, hs, rfl | hw⟩ := h
  · rwa [List.append_nil]
  · obtain ⟨v, rfl, -⟩ := id hw
    have hlast :=
      hbreak _ (by rw [List.getLast?_append, List.getLast?_eq_some_getLast (by simp)]; rfl)
    rw [hw.isLineBreak_eq_false _ (List.getLast_mem _)] at hlast
    cases hlast

/-- A line break ends the comment. -/
theorem IsListing.append_breaks (h : t.IsListing) (n : Nat) :
    Lists (t ++ List.replicate (n + 1) '\n') := by
  obtain ⟨s, w, rfl, hs, rfl | hw⟩ := h
  · rw [List.append_nil]
    exact hs.append (lists_breaks _)
  · rw [List.append_assoc]
    have hbreaks : IsGap (List.replicate (n + 1) '\n') :=
      isGap_blanks fun c hc ↦ by rw [List.eq_of_mem_replicate hc]; rfl
    exact hs.append (hw.isGap_append hbreaks ⟨'\n', rfl, rfl⟩).lists


/-- Nothing but declarations and statements is read. -/
theorem IsListing.exists_run_items (h : t.IsListing) :
    ∃ is c' k, (∀ i ∈ is, i.IsPlain) ∧
      ∀ steps ≥ k, ∃ e, Parser.items.run steps t = (.accepted is c', e) := by
  obtain ⟨s, w, rfl, ⟨tss, hall, hlists⟩, hw⟩ := h
  have hends : Cursor.Ends ⟨w, 0 + s.size⟩ := by
    rcases hw with rfl | hw
    · exact ⟨[], _, .refl _, List.forall_mem_nil _, rfl⟩
    · exact hw.ends _
  obtain ⟨c', hspells, hends⟩ := hlists w 0 [] ⟨_, .nil _, hends⟩
  rw [List.append_nil] at hspells
  obtain ⟨is, k, hplain, hrun⟩ := Parser.exists_run_items hall hspells hends
  exact ⟨is, c', k, hplain, hrun⟩

end Text

/-- Whatever names are put in, a unit is listed. -/
theorem Lexeme.IsUnit.lists {gs : List Group} {ps : List Patch} (h : IsUnit gs)
    (hps : ps.map Patch.toGroup = gs) (hall : ∀ p ∈ ps, p.Unreserved) :
    (join (ps.flatMap Patch.result)).Lists := by
  obtain ⟨halong, ⟨s, hs, hlast⟩, hmem⟩ := h
  have hlexemes : gs.flatMap Group.lexemes = ps.flatMap fun p ↦ p.lexemes := by
    rw [← hps, List.flatMap_map]
  rw [hlexemes] at halong hlast
  have hlast' : (ps.flatMap Patch.result).getLast? = some (symbol s) :=
    Patch.getLast?_result hlast nofun
  refine ⟨[significant (ps.flatMap Patch.result)],
    List.forall_mem_singleton.2 (hmem ps hps hall), fun r offset xs hspells ↦ ?_⟩
  have hlexes : Cursor.Lexes ⟨join (ps.flatMap Patch.result) ++ r, offset⟩
      (ps.flatMap Patch.result) ⟨r, offset + (join (ps.flatMap Patch.result)).size⟩ :=
    ⟨rfl, rfl, ((Patch.along_result halong).1.of_closing ⟨s, hs, hlast'⟩ r).heads⟩
  have htight : ∀ x ∈ (ps.flatMap Patch.result).getLast?,
      Lexicon.shader.ignores x.kind = false := fun x hx ↦ by
    rw [hlast'] at hx
    obtain rfl : symbol s = x := Option.some.inj hx
    rfl
  obtain ⟨c', hspells, hends⟩ := hspells
  rw [List.flatten_singleton]
  exact ⟨c', (hlexes.spells htight).append hspells, hends⟩

/-- A unit is listed as it stands. -/
theorem Lexeme.IsUnit.lists_self {gs : List Group} (h : IsUnit gs) :
    (join (gs.flatMap Group.lexemes)).Lists := by
  have hgroups : (gs.map fun g ↦ (⟨g, none, by simp⟩ : Patch)).map Patch.toGroup = gs := by
    rw [List.map_map]
    exact List.map_id gs
  have hlists := h.lists hgroups fun p hp w hw ↦ by
    obtain ⟨g, -, rfl⟩ := List.mem_map.1 hp
    cases hw
  rwa [List.flatMap_map] at hlists

end ShaderLink
