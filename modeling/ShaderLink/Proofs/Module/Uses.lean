import ShaderLink.Proofs.Grammar.Unique
import ShaderLink.Proofs.Grammar.Uses
import ShaderLink.Proofs.Module.DeclTokens

/-!
# Every use of a name is a reference

Renaming goes by references, so that a word that uses a name must be in one of them, and not in two.
What a word in a declaration is there for is told from the tokens alone (`Decl.HasRole`), in only
one way. In a parsed module the words that use names are in exactly one reference each, and all
other words are in none.
-/

namespace ShaderLink

/-- The word is there for this in the declaration, as its tokens are read. -/
def Decl.HasRole (m : Module) (d : Decl) (x : Token) (role : Reading.Role) : Prop :=
  ∃ name roles events, Reading.Marked d.kind name (m.tokensOf d) roles events ∧ (x, role) ∈ roles

/-- The declaration uses the path at the span, as its tokens are read. -/
def Decl.Uses (m : Module) (d : Decl) (path : List String) (span : Span) : Prop :=
  ∃ name roles events kind, Reading.Marked d.kind name (m.tokensOf d) roles events ∧
    .reference path span kind ∈ events

namespace Decl.ReadAs

variable {m : Module} {d : Decl} {name : Token} {roles : List (Token × Reading.Role)}
  {events : List Event}

/-- There is no other reading of the declaration. -/
theorem hasRole_iff (h : d.ReadAs m name roles events) {x : Token} {role : Reading.Role} :
    d.HasRole m x role ↔ (x, role) ∈ roles := by
  constructor
  · rintro ⟨name', roles', events', hmarked, hmem⟩
    obtain ⟨-, rfl, -⟩ := h.marked.unique hmarked
    exact hmem
  · exact fun hmem ↦ ⟨name, roles, events, h.marked, hmem⟩

theorem uses_iff (h : d.ReadAs m name roles events) {path : List String} {span : Span} :
    d.Uses m path span ↔ ∃ r ∈ m.references d, r.path = path ∧ r.span = span := by
  constructor
  · rintro ⟨name', roles', events', kind, hmarked, hmem⟩
    obtain ⟨-, -, rfl⟩ := h.marked.unique hmarked
    obtain ⟨r, hr, hpath, hspan, -⟩ := h.reference_mem_iff.1 hmem
    exact ⟨r, hr, hpath, hspan⟩
  · rintro ⟨r, hr, rfl, rfl⟩
    exact ⟨name, roles, events, r.kind, h.marked,
      h.reference_mem_iff.2 ⟨r, hr, rfl, rfl, rfl⟩⟩

/-- Each word of the declaration is there for one thing. -/
theorem exists_hasRole (h : d.ReadAs m name roles events) {x : Token} (hmem : x ∈ m.tokensOf d)
    (hx : x.kind = .word) : ∃ role, ∀ role', d.HasRole m x role' ↔ role' = role := by
  have hwords := h.marked.accounts.words
  obtain ⟨⟨y, role⟩, hrole, rfl⟩ : ∃ p ∈ roles, p.1 = x := List.mem_map.1 <| by
    rw [hwords]
    exact List.mem_filter.2 ⟨hmem, decide_eq_true hx⟩
  refine ⟨role, fun role' ↦ h.hasRole_iff.trans ⟨fun hrole' ↦ ?_, fun heq ↦ heq ▸ hrole⟩⟩
  have hnodup : (roles.map Prod.fst).Nodup := hwords ▸ h.nodup.filter _
  exact (Prod.mk.inj (List.inj_on_of_nodup_map hnodup hrole' hrole rfl)).2

end Decl.ReadAs

namespace Module

variable {options : ParseOptions} {file : String} {source : Text} {m : Module} {d : Decl}

/-- No two references contain the same token. -/
theorem InOrder.filter_references (h : m.InOrder) (hd : .decl d ∈ m.elements) {span : Span}
    (hsize : 0 < span.size) : (∀ r ∈ m.references d, r.span.contains span = false) ∨
      ∃ r, (m.references d).filter (fun r ↦ r.span.contains span) = [r] := by
  have hapart := (List.pairwise_map.1 (h.apart_names hd).2.of_cons).filter
    fun r ↦ r.span.contains span
  have hcontains : ∀ r ∈ (m.references d).filter fun r ↦ r.span.contains span,
      r.span.start ≤ span.start ∧ span.stop ≤ r.span.stop := by
    intro r hr
    simpa [Span.contains] using (List.mem_filter.1 hr).2
  rcases heq : (m.references d).filter fun r ↦ r.span.contains span with _ | ⟨r, _ | ⟨r', rs⟩⟩
  · exact .inl fun r hr ↦ Bool.eq_false_iff.2 (List.filter_eq_nil_iff.1 heq r hr)
  · exact .inr ⟨r, heq⟩
  · -- two of them would overlap
    rw [heq] at hapart hcontains
    obtain ⟨hstart, hstop⟩ := hcontains r List.mem_cons_self
    obtain ⟨hstart', hstop'⟩ := hcontains r' (List.mem_cons_of_mem r List.mem_cons_self)
    have hlt : span.start < span.stop := Nat.lt_add_of_pos_right hsize
    rcases List.rel_of_pairwise_cons hapart List.mem_cons_self with hle | hle
    · omega
    · omega

/-- What a declaration of a parsed module uses are its references. -/
theorem decl_uses_iff (h : parse options file source = .ok m) (hd : .decl d ∈ m.elements)
    {path : List String} {span : Span} :
    d.Uses m path span ↔ ∃ r ∈ m.references d, r.path = path ∧ r.span = span := by
  obtain ⟨name, roles, events, hread⟩ := exists_readAs h hd
  exact hread.uses_iff

/-- Each word in a declaration of a parsed module is there for one thing. If it uses a name, it is
in the span of exactly one reference, and otherwise it is in none. -/
theorem uses_of_parse (h : parse options file source = .ok m) (hd : .decl d ∈ m.elements)
    {x : Token} (hmem : x ∈ m.tokensOf d) (hx : x.kind = .word) :
    ∃ role, (∀ role', d.HasRole m x role' ↔ role' = role) ∧
      (role = .use → ∃ r, (m.references d).filter (fun r ↦ r.span.contains x.span) = [r]) ∧
      (role ≠ .use → ∀ r ∈ m.references d, r.span.contains x.span = false) := by
  obtain ⟨name, roles, events, hread⟩ := exists_readAs h hd
  have haccounts := hread.marked.accounts
  have hsize := hread.nonempty x hmem
  obtain ⟨role, hrole⟩ := hread.exists_hasRole hmem hx
  refine ⟨role, hrole, ?_, fun hnot r hr ↦ ?_⟩
  · rintro rfl
    -- a reference contains the word, and no other does because references are apart
    have hused := haccounts.used x (hread.hasRole_iff.1 ((hrole .use).2 rfl))
    obtain ⟨path, span, kind, hevent, hcontains⟩ := hused.exists_contains hread.ascending
    obtain ⟨r, hr, -, rfl, -⟩ := hread.reference_mem_iff.1 hevent
    have horder : m.InOrder := elementsInOrder_of_parse h
    refine (horder.filter_references hd hsize).resolve_left fun hnone ↦ ?_
    exact absurd hcontains (Bool.eq_false_iff.1 (hnone r hr))
  · -- the words of a path all use names
    refine Bool.eq_false_iff.2 fun hcontains ↦ hnot ((hrole .use).1 (hread.hasRole_iff.2 ?_)).symm
    have htold := haccounts.told _ _ _ (hread.reference_mem_iff.2 ⟨r, hr, rfl, rfl, rfl⟩)
    exact htold.mem_of_contains hread.ascending hmem hx hsize hcontains

/-- The words of a call with dots use names and are in a reference, while the member of a value is
in none. -/
theorem uses_of_parse_call : ∃ m d baz x,
    parse .default "main" "fn f() \x7b bar.baz(1); v.x; \x7d".toList = .ok m ∧
      .decl d ∈ m.elements ∧ baz ∈ m.tokensOf d ∧ baz.text = "baz" ∧ x ∈ m.tokensOf d ∧
      x.text = "x" ∧ d.HasRole m baz .use ∧
      (∃ r, (m.references d).filter (fun r ↦ r.span.contains baz.span) = [r]) ∧
      ¬d.HasRole m x .use ∧ ∀ r ∈ m.references d, r.span.contains x.span = false := by
  have heval : (parse .default "main"
      "fn f() \x7b bar.baz(1); v.x; \x7d".toList).toOption.map (fun m ↦
        (m.elements.filterMap Element.decl?).map fun d ↦
          (m.tokensOf d, (m.references d).map Reference.span)) =
    some [(
      [⟨.word, "fn", ⟨0, 2⟩⟩, ⟨.word, "f", ⟨3, 1⟩⟩, ⟨.symbol, "(", ⟨4, 1⟩⟩, ⟨.symbol, ")", ⟨5, 1⟩⟩,
        ⟨.symbol, "\x7b", ⟨7, 1⟩⟩, ⟨.word, "bar", ⟨9, 3⟩⟩, ⟨.symbol, ".", ⟨12, 1⟩⟩,
        ⟨.word, "baz", ⟨13, 3⟩⟩, ⟨.symbol, "(", ⟨16, 1⟩⟩, ⟨.number, "1", ⟨17, 1⟩⟩,
        ⟨.symbol, ")", ⟨18, 1⟩⟩, ⟨.symbol, ";", ⟨19, 1⟩⟩, ⟨.word, "v", ⟨21, 1⟩⟩,
        ⟨.symbol, ".", ⟨22, 1⟩⟩, ⟨.word, "x", ⟨23, 1⟩⟩, ⟨.symbol, ";", ⟨24, 1⟩⟩,
        ⟨.symbol, "\x7d", ⟨26, 1⟩⟩],
      [⟨9, 7⟩, ⟨21, 1⟩])] := by
    decide +kernel
  obtain ⟨m, hm, heval⟩ := Option.map_eq_some_iff.1 heval
  obtain ⟨d, hdecl, heq⟩ := List.mem_map.1 (heval ▸ List.mem_singleton.2 rfl)
  obtain ⟨htokens, hspans⟩ := Prod.mk.inj heq
  have hd := Element.mem_filterMap_decl?_iff.1 hdecl
  have hm := Except.eq_ok_of_toOption hm
  have hbaz : (⟨.word, "baz", ⟨13, 3⟩⟩ : Token) ∈ m.tokensOf d := by
    rw [htokens]
    decide
  have hx : (⟨.word, "x", ⟨23, 1⟩⟩ : Token) ∈ m.tokensOf d := by
    rw [htokens]
    decide
  have hspan : ∀ r ∈ m.references d, r.span ∈ [⟨9, 7⟩, ⟨21, 1⟩] := fun r hr ↦
    hspans ▸ List.mem_map_of_mem hr
  obtain ⟨r, hr, hcall⟩ : ∃ r ∈ m.references d, r.span = ⟨9, 7⟩ :=
    List.mem_map.1 (hspans ▸ List.mem_cons_self)
  obtain ⟨role, hrole, huse, hother⟩ := uses_of_parse hm hd hbaz rfl
  obtain ⟨role', hrole', huse', hother'⟩ := uses_of_parse hm hd hx rfl
  have hbazUse : role = .use := by
    by_contra hnot
    have hfalse := hother hnot r hr
    rw [hcall] at hfalse
    exact absurd hfalse (by decide)
  have hxOther : role' ≠ .use := by
    intro hxUse
    obtain ⟨r', hone⟩ := huse' hxUse
    obtain ⟨hr', hcontains⟩ := List.mem_filter.1 (hone ▸ List.mem_singleton_self r')
    have hnone : ∀ s ∈ [⟨9, 7⟩, ⟨21, 1⟩], Span.contains s ⟨23, 1⟩ = false := by decide
    exact absurd hcontains (Bool.eq_false_iff.1 (hnone _ (hspan r' hr')))
  exact ⟨m, _, _, _, hm, hd, hbaz, rfl, hx, rfl, (hrole .use).2 hbazUse.symm, huse hbazUse,
    fun hxUse ↦ hxOther ((hrole' .use).1 hxUse).symm, hother' hxOther⟩

end Module

end ShaderLink
