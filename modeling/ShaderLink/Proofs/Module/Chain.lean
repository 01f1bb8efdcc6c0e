import Mathlib.Data.List.Sort
import ShaderLink.Proofs.Grammar.ItemSound
import ShaderLink.Proofs.Module.Splices
import ShaderLink.Proofs.Provenance.Renaming

/-!
# Declarations of a module as chains

In a parsed module the text of a declaration is a chain of lexemes in groups, and its name and the
references in it are named groups (`Module.exists_chain`). If no number in it stands directly in
front of an identifier, the chain can be taken out of the module.
-/

namespace ShaderLink

open Lexeme

/-- The text is an identifier that is not reserved. -/
def Text.IsName (t : Text) : Prop :=
  t.IsIdentifier ∧ isKeyword (String.ofList t) = false

theorem Text.IsName.isEmpty_eq_false {t : Text} (h : t.IsName) : t.isEmpty = false := by
  cases t with
  | nil => exact h.1.1.elim
  | cons c t => rfl

/-- The declaration and the elements inside it have come of the item. -/
structure Decl.Of (d : Decl) (es : List Element) (i : DeclItem) : Prop where
  kind : d.kind = i.kind
  name : d.name = i.name.text
  nameSpan : d.nameSpan = i.name.span
  span : d.span = i.span
  children : (d.childrenIn es).map Element.span = childSpans i.events
  events : (d.childrenIn es).filterMap Element.event? = i.events.filter fun e ↦ e.child?.isSome

namespace Assembly

variable {a : Assembly} {exportsAll : Bool}

/-- Items only add elements. -/
theorem elements_item (exportsAll : Bool) (a : Assembly) (i : Item) :
    ∃ added, (a.item exportsAll i).elements = a.elements ++ added := by
  cases i with
  | stray token => exact ⟨[], (List.append_nil _).symm⟩
  | _ => exact ⟨_, rfl⟩

theorem elements_foldl (exportsAll : Bool) (items : List Item) (a : Assembly) :
    ∃ added, (items.foldl (item exportsAll) a).elements = a.elements ++ added := by
  induction items generalizing a with
  | nil => exact ⟨[], (List.append_nil _).symm⟩
  | cons i items ih =>
    obtain ⟨first, hfirst⟩ := elements_item exportsAll a i
    obtain ⟨rest, hrest⟩ := ih (a.item exportsAll i)
    exact ⟨first ++ rest, by rw [List.foldl_cons, hrest, hfirst, List.append_assoc]⟩

/-- The elements between two places of a list. -/
theorem take_drop_inside {α : Type} (front word : List α) (e : α) (inside added : List α) :
    ((front ++ (word ++ e :: inside) ++ added).drop (front.length + word.length + 1)).take
      inside.length = inside := by
  have hsplit : front ++ (word ++ e :: inside) ++ added =
      (front ++ word ++ [e]) ++ (inside ++ added) := by simp
  rw [hsplit, List.drop_left' (by simp; omega), List.take_left' rfl]

/-- The declaration that an item adds has come of the item, whatever is added behind it. -/
theorem of_decl {d : Decl} {i : DeclItem} (hd : .decl d ∈ (a.decl exportsAll i).elements)
    (hnew : .decl d ∉ a.elements) (added : List Element) :
    d.Of ((a.decl exportsAll i).elements ++ added) i := by
  have hd := (List.mem_append.1 hd).resolve_left hnew
  rcases List.mem_append.1 hd with hd | hd
  · simp at hd
  · rcases List.mem_cons.1 hd with heq | hd
    · obtain rfl := Element.decl.inj heq
      refine ⟨rfl, rfl, rfl, rfl, ?_, ?_⟩
      · rw [← (BodyAssembly.children_ofEvents a.scopes i.events).1]
        exact congrArg (List.map Element.span) (take_drop_inside _ _ _ _ _)
      · rw [← BodyAssembly.events_ofEvents a.scopes i.events]
        exact congrArg (List.filterMap Element.event?) (take_drop_inside _ _ _ _ _)
    · exact absurd hd (BodyAssembly.decl_not_mem_children a.scopes i.events d)

/-- A declaration among the elements has been added by one of the items. -/
theorem exists_split_of_foldl {items : List Item} {d : Decl}
    (hd : .decl d ∈ (items.foldl (item exportsAll) a).elements) (hnew : .decl d ∉ a.elements) :
    ∃ front i back, items = front ++ .decl i :: back ∧
      .decl d ∈ ((front.foldl (item exportsAll) a).decl exportsAll i).elements ∧
      .decl d ∉ (front.foldl (item exportsAll) a).elements := by
  induction items generalizing a with
  | nil => exact absurd hd hnew
  | cons j items ih =>
    by_cases hfirst : .decl d ∈ (a.item exportsAll j).elements
    · cases j with
      | decl i => exact ⟨[], i, items, rfl, hfirst, hnew⟩
      | stray token => exact absurd hfirst hnew
      | _ => exact absurd ((List.mem_append.1 hfirst).resolve_left hnew) (by simp)
    · obtain ⟨front, i, back, rfl, hadded, hbefore⟩ := ih hd hfirst
      exact ⟨j :: front, i, back, rfl, hadded, hbefore⟩

/-- Each declaration comes from an item. -/
theorem exists_of_foldl {items : List Item} {d : Decl}
    (hd : .decl d ∈ (items.foldl (item exportsAll) a).elements) (hnew : .decl d ∉ a.elements) :
    ∃ i, .decl i ∈ items ∧ d.Of (items.foldl (item exportsAll) a).elements i := by
  obtain ⟨front, i, back, rfl, hadded, hbefore⟩ := exists_split_of_foldl hd hnew
  obtain ⟨added, hall⟩ := elements_foldl exportsAll back
    ((front.foldl (item exportsAll) a).decl exportsAll i)
  refine ⟨i, List.mem_append_right _ List.mem_cons_self, ?_⟩
  rw [List.foldl_append, List.foldl_cons, Assembly.item, hall]
  exact of_decl hadded hbefore added

end Assembly

/-- The declaration is a chain of lexemes in groups, between two other parts of the text. -/
structure Decl.Chain (m : Module) (d : Decl) (front : Text) (gs : List Group) (back : Text) :
    Prop where
  text : m.text = front ++ join (gs.flatMap Group.lexemes) ++ back
  span : d.span = ⟨front.size, (join (gs.flatMap Group.lexemes)).size⟩
  along : Along Heads (gs.flatMap Group.lexemes) back
  last : ∃ s, IsClosing s ∧ (gs.flatMap Group.lexemes).getLast? = some (symbol s)
  names : ∃ spans, (d.nameSpan :: (m.references d).map Reference.span).Subperm spans ∧
    spans.Sublist (namedSpans front.size gs)
  mem : ∀ ps : List Patch, ps.map Patch.toGroup = gs → (∀ p ∈ ps, p.Unreserved) →
    significant (ps.flatMap Patch.result) ∈ declarations
  isIdentifier : Text.IsIdentifier d.name.toList
  unreserved : isKeyword d.name = false
  spelled : m.text.slice? d.nameSpan = some d.name.toList

namespace Module

variable {options : ParseOptions} {file : String} {source : Text} {m : Module} {d : Decl}

/-- The declarations of a parsed module are chains. -/
theorem exists_chain (h : parse options file source = .ok m) (hd : .decl d ∈ m.elements) :
    ∃ front gs back, d.Chain m front gs back := by
  obtain ⟨items, c', e, hrun, rfl⟩ := exists_items h
  have hnew : .decl d ∉ (⟨none, [], Assembly.globalScope items, Assembly.strayProblems items, none,
      0⟩ : Assembly).elements := List.not_mem_nil
  obtain ⟨i, hi, hof⟩ := Assembly.exists_of_foldl hd hnew
  obtain ⟨c₁, c₂, hin, -, hspan, hname, hunreserved, hspelled, before, behind, hchildren, gs,
    hlexes, htight, hspans, hmem⟩ := Parser.exists_covered_of_items hrun hi
  obtain ⟨front, htext, hfront⟩ := id hin
  obtain ⟨s, hs, hlast⟩ := getLast?_of_mem_declarations (Cursor.Covers.mem_of_coversBy hmem)
  refine ⟨front, gs, c₂.rest, ?_, ?_, hlexes.along, ⟨s, hs, getLast?_of_significant htight hlast⟩,
    ⟨_, ?_, hfront ▸ hspans⟩, hmem, ?_, ?_, ?_⟩
  · rw [List.append_assoc, ← hlexes.rest]
    exact htext
  · rw [hof.span, hspan, hlexes.offset, Span.between, Nat.add_sub_cancel_left, hfront]
  · have hsub := sublist_references
      (ofItems file source (Conditional.process options.conditions ⟨file⟩ source) items) d
    have hinside : (d.childrenIn (ofItems file source
        (Conditional.process options.conditions ⟨file⟩ source) items).elements).map Element.span =
          before ++ behind := hof.children.trans hchildren
    rw [hinside] at hsub
    rw [hof.nameSpan]
    exact (hsub.cons_cons i.name.span).subperm.trans List.perm_middle.symm.subperm
  · rw [hof.name]
    exact hname
  · rw [hof.name]
    exact hunreserved
  · rw [hof.nameSpan, hof.name]
    exact hspelled _ hin

end Module

namespace Decl.Chain

variable {m : Module} {d : Decl} {front back : Text} {gs : List Group} {splices : List Splice}

/-- Where numbers stand apart from identifiers, the chain can be taken out of the text. -/
theorem loose (h : d.Chain m front gs back) (hapart : m.text.NumbersApart d.span) :
    Along Loose (gs.flatMap Group.lexemes) [] := by
  rw [h.text, h.span, List.append_assoc] at hapart
  obtain ⟨s, hs, hlast⟩ := h.last
  refine Along.of_closing h.last (along_loose h.along hapart fun x hx ↦ ?_) []
  rw [hlast] at hx
  rw [← Option.some.inj hx]
  exact nofun

/-- What a declaration declares is a name. -/
theorem isName (h : d.Chain m front gs back) : Text.IsName d.name.toList :=
  ⟨h.isIdentifier, by rw [String.ofList_toList]; exact h.unreserved⟩

/-- Its name and its references are where names can be put in. -/
theorem mem_namedSpans (h : d.Chain m front gs back) {s : Span}
    (hs : s ∈ d.nameSpan :: (m.references d).map Reference.span) :
    s ∈ namedSpans front.size gs := by
  obtain ⟨spans, hsub, hspans⟩ := h.names
  exact hspans.subset (hsub.subset hs)

/-- Splices for the name and for references replace named groups in their order. -/
theorem sublist_namedSpans (h : d.Chain m front gs back) (hsplices : d.Renames m splices)
    (hsuit : Splice.Suit m.text d.span splices) :
    ((sortBy Splice.before splices).map Splice.span).Sublist (namedSpans front.size gs) := by
  obtain ⟨spans, hsub, hspans⟩ := h.names
  have hperm := (sortBy_perm Splice.before splices).map Splice.span
  have hanti : Std.Antisymm fun s s' : Span ↦ s.stop ≤ s'.start := by
    refine ⟨fun s s' hle hle' ↦ ?_⟩
    obtain ⟨start, size⟩ := s
    obtain ⟨start', size'⟩ := s'
    simp only [Span.stop] at hle hle'
    obtain ⟨rfl, rfl⟩ : start = start' ∧ size = size' := by omega
    rfl
  refine (List.sublist_of_subperm_of_pairwise
    (hperm.subperm.trans (hsplices.subperm.trans hsub)) hsuit.ascending.ordered
    ((pairwise_namedSpans front.size gs).2.sublist hspans)).trans hspans

/-- Splices with identifiers for the name and for references rename. -/
theorem renames_chain (h : d.Chain m front gs back) (hapart : m.text.NumbersApart d.span)
    (hsplices : d.Renames m splices) (hsuit : Splice.Suit m.text d.span splices)
    (htexts : ∀ s ∈ splices, s.text.IsIdentifier) (id : SourceId) :
    Traced.Renaming ⟨id, m.text⟩ front gs back splices :=
  ⟨h.text, h.loose hapart, h.sublist_namedSpans hsplices hsuit, htexts⟩

end Decl.Chain

/-! ### Dots -/

/-- Whether a dot is the last token in front of an offset, where tokens are read from another one
on. -/
def Text.behindDot (t : Text) (start offset : Nat) : Bool :=
  ((t.tokensAt start).filter fun token ↦ token.span.stop ≤ offset).getLast?.any fun token ↦
    token.kind == .symbol && token.text == "."

namespace Lexeme

variable {xs ys : List Lexeme} {rest : Text}

theorem any_getLast?_tokensFrom (offset : Nat) (xs : List Lexeme) :
    ((tokensFrom offset xs).getLast?.any fun token ↦
      token.kind == .symbol && token.text == ".") = dotBehind false xs := by
  induction xs using List.reverseRecOn with
  | nil => rfl
  | append_singleton xs x ih =>
    rw [tokensFrom_append, tokensFrom, dotBehind, significant_append, tokensFrom]
    by_cases hignored : Lexicon.shader.ignores x.kind = true
    · rw [if_pos hignored, List.append_nil, ih,
        significant_eq_nil (List.forall_mem_singleton.2 hignored), List.append_nil]
      rfl
    · rw [if_neg hignored, significant_singleton (Bool.eq_false_iff.2 hignored),
        List.getLast?_concat, List.getLast?_concat]
      rfl

/-- Tokens of a chain tell whether a dot stands behind a part of it. -/
theorem dotBehind_eq (h : Along Heads (xs ++ ys) rest) (front : Text) :
    dotBehind false xs = (front ++ (join (xs ++ ys) ++ rest)).behindDot front.size
      (front.size + (join xs).size) := by
  rw [Text.behindDot, join_append, List.append_assoc (join xs),
    filter_tokensAt (along_append.1 h).1, any_getLast?_tokensFrom]

end Lexeme

end ShaderLink
