import ShaderLink.Proofs.Grammar.Dots
import ShaderLink.Proofs.Module.Uses

/-!
# References and member accesses

What stands behind a dot is a member of a value and no name that can be bound, so that no reference
should start there. In a parsed module this holds of all declarations but structs, and in a struct
of all that is in parentheses. Elsewhere in the types of its members dots are not minded
(`Module.reference_behind_dot_iff`).
-/

namespace ShaderLink

namespace Decl.ReadAs

variable {m : Module} {d : Decl} {name : Token} {roles : List (Token × Reading.Role)}
  {events : List Event}

/-- The tokens of a declaration are told apart by their starts. -/
theorem split_unique (h : d.ReadAs m name roles events) {before after front back : List Token}
    {x t : Token} (hsplit : m.tokensOf d = before ++ x :: after)
    (hsplit' : m.tokensOf d = front ++ t :: back) (hstart : t.span.start = x.span.start) :
    front = before ∧ t = x := by
  have hsize : 0 < x.span.size :=
    h.nonempty x (hsplit ▸ List.mem_append_right _ List.mem_cons_self)
  have hsize' : 0 < t.span.size :=
    h.nonempty t (hsplit' ▸ List.mem_append_right _ List.mem_cons_self)
  have hascending := hsplit' ▸ h.ascending
  obtain ⟨-, hback, hfront⟩ := List.pairwise_append.1 hascending
  have hnotin : x ∉ front := fun hx ↦ by
    have hle := hfront x hx t List.mem_cons_self
    rw [Span.stop] at hle
    omega
  have hnotin' : x ∉ back := fun hx ↦ by
    have hle := (List.pairwise_cons.1 hback).1 x hx
    rw [Span.stop] at hle
    omega
  obtain ⟨hfront, ht, -⟩ :=
    (List.append_cons_inj_of_notMem hnotin hnotin').1 (hsplit'.symm.trans hsplit)
  exact ⟨hfront, ht⟩

end Decl.ReadAs

namespace Module

variable {options : ParseOptions} {file : String} {source : Text} {m : Module} {d : Decl}

/-- A reference that starts with a token is the only one that contains the token. -/
theorem InOrder.eq_of_start (h : m.InOrder) (hd : .decl d ∈ m.elements) {r r' : Reference}
    (hr : r ∈ m.references d) (hr' : r' ∈ m.references d) {span : Span} (hsize : 0 < span.size)
    (hstart : r.span.start = span.start) (hcontains : r'.span.contains span = true) : r = r' := by
  obtain ⟨hinside, hapart⟩ := h.apart_names hd
  have hlt := (hinside r.span (List.mem_cons_of_mem _ (List.mem_map_of_mem hr))).1.start_lt_stop
  have hall := List.pairwise_map.1 hapart.of_cons
  have hsymm : Std.Symm fun r r' : Reference ↦ r.span.Apart r'.span :=
    ⟨fun _ _ h ↦ Span.Apart.symm h⟩
  by_contra hne
  have hapart := hall.forall hr hr' hne
  simp only [Span.contains, Bool.and_eq_true, decide_eq_true_eq] at hcontains
  have hlt' : span.start < span.stop := Nat.lt_add_of_pos_right hsize
  rcases hapart with hle | hle
  · omega
  · omega

/-- A reference starts right behind a dot just at the names in the types of struct members that are
in no parentheses and in no reference that has started before. -/
theorem reference_behind_dot_iff (h : parse options file source = .ok m)
    (hd : .decl d ∈ m.elements) {before after : List Token} {dot x : Token}
    (hsplit : m.tokensOf d = before ++ dot :: x :: after) (hdot : dot.IsSymbol ".")
    (hx : x.kind = .word) :
    (∃ r ∈ m.references d, r.span.start = x.span.start) ↔
      d.kind = .struct ∧ isKeyword x.text = false ∧ Reading.depth 0 before = 0 ∧
        ∀ r ∈ m.references d, r.span.contains x.span = true → x.span.start ≤ r.span.start := by
  obtain ⟨name, roles, events, hread⟩ := exists_readAs h hd
  have horder : m.InOrder := elementsInOrder_of_parse h
  have hsplit' : m.tokensOf d = (before ++ [dot]) ++ x :: after :=
    hsplit.trans (List.append_assoc before [dot] (x :: after)).symm
  have hsize : 0 < x.span.size :=
    hread.nonempty x (hsplit' ▸ List.mem_append_right _ List.mem_cons_self)
  have hbehind : ¬Reading.NoDot (before ++ [dot]) := fun h ↦ h dot (by simp) hdot
  have hdepth : Reading.depth 0 (before ++ [dot]) = Reading.depth 0 before := by
    rw [Reading.depth_append]
    exact Reading.depth_plain (hdot.not_isParenthesis (by decide)) _ []
  constructor
  · rintro ⟨r, hr, hstart⟩
    have hevent := hread.reference_mem_iff.2 ⟨r, hr, rfl, rfl, rfl⟩
    -- elsewhere references start behind a token that is no dot
    have hstruct : d.kind = .struct := by
      by_contra hkind
      obtain ⟨us, t, vs, hts, ht, -, hus⟩ := hread.marked.starts hkind _ _ _ hevent
      obtain ⟨rfl, -⟩ := hread.split_unique hsplit' hts (ht.symm.trans hstart)
      exact hbehind hus
    obtain ⟨us, t, vs, hts, ht, hname, hus⟩ :=
      (hstruct ▸ hread.marked).shown.starts _ _ _ hevent
    obtain ⟨rfl, rfl⟩ := hread.split_unique hsplit' hts (ht.symm.trans hstart)
    refine ⟨hstruct, hname.2, hdepth ▸ hus.resolve_left hbehind, fun r' hr' hcontains ↦ ?_⟩
    rw [← horder.eq_of_start hd hr hr' hsize hstart hcontains, hstart]
  · rintro ⟨hstruct, hkeyword, hzero, hbefore⟩
    -- a name outside of parentheses is used in a struct, whatever stands in front of it
    have hused := ((hstruct ▸ hread.marked).shown.used _ x after hsplit' ⟨hx, hkeyword⟩
      (hdepth.trans hzero)).resolve_left hbehind
    obtain ⟨path, span, kind, hevent, hcontains⟩ := hused.exists_contains hread.ascending
    obtain ⟨r, hr, -, rfl, -⟩ := hread.reference_mem_iff.1 hevent
    refine ⟨r, hr, Nat.le_antisymm ?_ (hbefore r hr hcontains)⟩
    simp only [Span.contains, Bool.and_eq_true, decide_eq_true_eq] at hcontains
    exact hcontains.1

/-- Of two members in the type of a struct member, the one outside of parentheses is a reference. -/
theorem reference_behind_dot_iff_template : ∃ m d before dot x after before' dot' y after',
    parse .default "main" "struct S \x7b a: t<v.x, (v.y)> \x7d".toList = .ok m ∧
      .decl d ∈ m.elements ∧
      m.tokensOf d = before ++ dot :: x :: after ∧ dot.IsSymbol "." ∧ x.text = "x" ∧
      m.tokensOf d = before' ++ dot' :: y :: after' ∧ dot'.IsSymbol "." ∧ y.text = "y" ∧
      (∃ r ∈ m.references d, r.span.start = x.span.start) ∧
      ¬∃ r ∈ m.references d, r.span.start = y.span.start := by
  have heval : (parse .default "main" "struct S \x7b a: t<v.x, (v.y)> \x7d".toList).toOption.map
      (fun m ↦ (m.elements.filterMap Element.decl?).map fun d ↦
        (d, m.tokensOf d, (m.references d).map Reference.span)) =
    some [(⟨.struct, "S", 0, ⟨7, 1⟩, ⟨0, 29⟩, 1, true, [], 1, 5⟩,
      [⟨.word, "struct", ⟨0, 6⟩⟩, ⟨.word, "S", ⟨7, 1⟩⟩, ⟨.symbol, "\x7b", ⟨9, 1⟩⟩,
        ⟨.word, "a", ⟨11, 1⟩⟩, ⟨.symbol, ":", ⟨12, 1⟩⟩, ⟨.word, "t", ⟨14, 1⟩⟩,
        ⟨.symbol, "<", ⟨15, 1⟩⟩, ⟨.word, "v", ⟨16, 1⟩⟩, ⟨.symbol, ".", ⟨17, 1⟩⟩,
        ⟨.word, "x", ⟨18, 1⟩⟩, ⟨.symbol, ",", ⟨19, 1⟩⟩, ⟨.symbol, "(", ⟨21, 1⟩⟩,
        ⟨.word, "v", ⟨22, 1⟩⟩, ⟨.symbol, ".", ⟨23, 1⟩⟩, ⟨.word, "y", ⟨24, 1⟩⟩,
        ⟨.symbol, ")", ⟨25, 1⟩⟩, ⟨.symbol, ">", ⟨26, 1⟩⟩, ⟨.symbol, "\x7d", ⟨28, 1⟩⟩],
      [⟨14, 1⟩, ⟨16, 1⟩, ⟨18, 1⟩, ⟨22, 1⟩])] := by
    decide +kernel
  obtain ⟨m, hm, heval⟩ := Option.map_eq_some_iff.1 heval
  obtain ⟨d, hdecl, heq⟩ := List.mem_map.1 (heval ▸ List.mem_singleton.2 rfl)
  obtain ⟨rfl, hpair⟩ := Prod.mk.inj heq
  have he := Element.mem_filterMap_decl?_iff.1 hdecl
  obtain ⟨htokens, hspans⟩ := Prod.mk.inj hpair
  have hm := Except.eq_ok_of_toOption hm
  have hsplit := htokens.trans (List.take_append_drop 8 _).symm
  have hsplit' := htokens.trans (List.take_append_drop 13 _).symm
  have hall : ∀ r ∈ m.references _, r.span ∈ [⟨14, 1⟩, ⟨16, 1⟩, ⟨18, 1⟩, ⟨22, 1⟩] :=
    fun r hr ↦ hspans ▸ List.mem_map_of_mem hr
  refine ⟨m, _, _, _, _, _, _, _, _, _, hm, he, hsplit, ⟨rfl, rfl⟩, rfl, hsplit', ⟨rfl, rfl⟩, rfl,
    ?_, ?_⟩
  · refine (reference_behind_dot_iff hm he hsplit ⟨rfl, rfl⟩ rfl).2
      ⟨rfl, by decide, by decide, fun r hr hcontains ↦ ?_⟩
    have hspan : ∀ s ∈ [⟨14, 1⟩, ⟨16, 1⟩, ⟨18, 1⟩, ⟨22, 1⟩], Span.contains s ⟨18, 1⟩ = true →
        18 ≤ s.start := by decide
    exact hspan _ (hall r hr) hcontains
  · rw [reference_behind_dot_iff hm he hsplit' ⟨rfl, rfl⟩ rfl]
    rintro ⟨-, -, hdepth, -⟩
    exact absurd hdepth (by decide)

end Module

end ShaderLink
