import ShaderLink.Proofs.Grammar.Lossless
import ShaderLink.Proofs.Grammar.ReadingSound
import ShaderLink.Proofs.Module.Chain

/-!
# Tokens of a declaration

The tokens that stand in a declaration of a parsed module are what the rules of `Reading` read it
of, and the elements inside it have come of the events that these rules leave
(`Module.exists_readAs`). So what is shown of the rules is a property of all declarations of all
modules.
-/

namespace ShaderLink

open Lexeme

theorem Element.mem_filterMap_decl?_iff {es : List Element} {d : Decl} :
    d ∈ es.filterMap Element.decl? ↔ .decl d ∈ es := by
  rw [List.mem_filterMap]
  constructor
  · rintro ⟨e, he, hdecl⟩
    cases e with
    | decl d' =>
      cases hdecl
      exact he
    | _ => cases hdecl
  · exact fun he ↦ ⟨_, he, rfl⟩

/-- The tokens of a declaration are those from its start on that stop inside it. -/
def Module.tokensOf (m : Module) (d : Decl) : List Token :=
  (m.text.tokensAt d.span.start).filter fun t ↦ t.span.stop ≤ d.span.stop

/-- The declaration has been read of its tokens with a name, roles of its words and events. -/
structure Decl.ReadAs (m : Module) (d : Decl) (name : Token) (roles : List (Token × Reading.Role))
    (events : List Event) : Prop where
  text : name.text = d.name
  span : name.span = d.nameSpan
  marked : Reading.Marked d.kind name (m.tokensOf d) roles events
  children : (d.childrenIn m.elements).filterMap Element.event? =
    events.filter fun e ↦ e.child?.isSome
  ascending : (m.tokensOf d).Pairwise fun t u ↦ t.span.stop ≤ u.span.start
  nonempty : ∀ t ∈ m.tokensOf d, 0 < t.span.size

namespace Decl.ReadAs

variable {m : Module} {d : Decl} {name : Token} {roles : List (Token × Reading.Role)}
  {events : List Event}

/-- The references in a declaration are those among its events. -/
theorem reference_mem_iff (h : d.ReadAs m name roles events) {path : List String} {span : Span}
    {kind : ReferenceKind} : .reference path span kind ∈ events ↔
      ∃ r ∈ m.references d, r.path = path ∧ r.span = span ∧ r.kind = kind := by
  have hchildren : .reference path span kind ∈ (d.childrenIn m.elements).filterMap Element.event? ↔
      .reference path span kind ∈ events := by
    rw [h.children, List.mem_filter]
    exact and_iff_left rfl
  rw [← hchildren, List.mem_filterMap]
  constructor
  · rintro ⟨e, he, hevent⟩
    cases e with
    | reference r =>
      cases hevent
      exact ⟨r, List.mem_filterMap.2 ⟨_, he, rfl⟩, rfl, rfl, rfl⟩
    | _ => cases hevent
  · rintro ⟨r, hr, rfl, rfl, rfl⟩
    obtain ⟨e, he, hreference⟩ := List.mem_filterMap.1 hr
    cases e with
    | reference r' =>
      cases hreference
      exact ⟨_, he, rfl⟩
    | _ => cases hreference

/-- No token stands twice among those of a declaration. -/
theorem nodup (h : d.ReadAs m name roles events) : (m.tokensOf d).Nodup := by
  refine h.ascending.imp_of_mem fun {t u} ht _ hle heq ↦ ?_
  have hsize := h.nonempty t ht
  rw [← heq, Span.stop] at hle
  omega

end Decl.ReadAs

namespace Module

variable {options : ParseOptions} {file : String} {source : Text} {m : Module} {d : Decl}

/-- A declaration that has come of an item is read of its tokens by the rules. -/
theorem readAs_of_items {items : List Item} {c' : Cursor} {e : Effort} {i : DeclItem}
    (hrun : Parser.items.run options.maxSteps
      (Conditional.process options.conditions ⟨file⟩ source).map.text = (.accepted items c', e))
    (hm : m = ofItems file source (Conditional.process options.conditions ⟨file⟩ source) items)
    (hi : .decl i ∈ items) (hof : d.Of m.elements i) :
    ∃ roles, d.ReadAs m i.name roles i.events := by
  subst hm
  obtain ⟨c₁, c₂, hin, -, hspan, hcomes⟩ := Parser.exists_read_of_items hrun hi
  obtain ⟨ts, roles, htokens, hmarked⟩ :=
    hcomes.reading_unmarkedDecl (hin.length_lt (Nat.lt_succ_self _))
  obtain ⟨xs, hlexes, rfl⟩ := htokens.exists_lexes
  obtain ⟨front, htext, hfront⟩ := hin
  have hstop : d.span.stop = front.size + (join xs).size := by
    rw [hof.span, hspan, hlexes.offset, Span.stop_between (Nat.le_add_right _ _), hfront]
  have hall : (ofItems file source (Conditional.process options.conditions ⟨file⟩ source)
      items).tokensOf d = tokensFrom c₁.offset xs := by
    have hstart : d.span.start = front.size := by
      rw [hof.span, hspan, Span.start_between, hfront]
    rw [tokensOf, hstart, hstop, ← hfront, ← filter_tokensAt hlexes.along front, ← hlexes.rest]
    exact congrArg (fun t : Text ↦ (t.tokensAt front.size).filter fun token ↦
      token.span.stop ≤ front.size + (join xs).size) htext
  refine ⟨roles, hof.name.symm, hof.nameSpan.symm, ?_, hof.events, ?_, ?_⟩
  · rw [hall, hof.kind]
    exact hmarked
  · rw [hall]
    exact ascending_tokensFrom _ _
  · rw [hall]
    intro t ht
    obtain ⟨before, x, behind, rfl, -, rfl⟩ := exists_of_mem_tokensFrom ht
    have hne := (along_append.1 hlexes.along).2.1.ne_nil
    exact Nat.pos_of_ne_zero fun hzero ↦ hne (Text.size_eq_zero_iff.1 hzero)

/-- The declarations of a parsed module are read of their tokens by the rules. -/
theorem exists_readAs (h : parse options file source = .ok m) (hd : .decl d ∈ m.elements) :
    ∃ name roles events, d.ReadAs m name roles events := by
  obtain ⟨items, c', e, hrun, rfl⟩ := exists_items h
  obtain ⟨i, hi, hof⟩ := Assembly.exists_of_foldl hd List.not_mem_nil
  obtain ⟨roles, hread⟩ := readAs_of_items hrun rfl hi hof
  exact ⟨i.name, roles, i.events, hread⟩

end Module

end ShaderLink
