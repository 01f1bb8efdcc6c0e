import ShaderLink.Proofs.Grammar.Item
import ShaderLink.Proofs.Module.Scopes

/-!
# References in a module

The span of a reference covers its whole path. If the path is a single name, what stands in the text
there is this name and nothing else (`Event.Spelled`), because the text of a token is what the token
spans. Like the order of the text, this is a fact about the parts of declarations, and holds of all
that the rules put together from them.

In a parsed module the identifier of a reference has the last name of its path, and a reference by a
single name stands in the text as this name (`Reference.Known`). Only such references are bound, so
what a bound reference stands as in the text is the name of the declaration that it is bound to
(`Module.slice?_of_bound`).
-/

namespace ShaderLink

/-! ### Spelling -/

/-- A reference by a single name stands in the text as the name. -/
def Event.Spelled (t : Text) : Event → Prop
  | reference path span _ => path.length = 1 → t.slice? span = some (path.getLastD "").toList
  | _ => True

/-- The references in the declaration stand in the text as their names. -/
def DeclItem.Spelled (t : Text) (d : DeclItem) : Prop :=
  ∀ e ∈ d.events, e.Spelled t

namespace Parser

variable {t : Text} {c₀ c c' : Cursor}

namespace Yields

/-- A path of a single name is its first token. -/
theorem slice?_referencePath {first : Token} {path : List String} {span : Span} {called : Bool}
    (hfirst : (Parser.token .shader).Yields c₀ first c) (hin : c₀.In t)
    (h : (referencePath first).Yields c (path, span, called) c') (hpath : path.length = 1) :
    t.slice? span = some (path.getLastD "").toList := by
  obtain ⟨colons, c₁, -, h⟩ := Yields.bind h
  obtain ⟨dots, c₂, -, h⟩ := h.bind
  obtain ⟨heq, -⟩ := h.pure
  obtain ⟨rfl, hspan⟩ := Prod.mk.inj heq
  obtain ⟨rfl, -⟩ := Prod.mk.inj hspan
  have hnone : colons ++ dots.getD [] = [] := by
    rw [List.length_map, List.length_cons] at hpath
    exact List.eq_nil_of_length_eq_zero (Nat.succ.inj hpath)
  obtain ⟨c₃, hskip, hpasses⟩ := hfirst.passes_token (t := t)
  have hslice := hpasses.slice? (hskip hin).1
  rw [hnone]
  show t.slice? (Span.between first.span.start first.span.stop) = some first.text.toList
  rwa [Span.between_start_stop]

end Yields

/-- The references among events stand in the text as their names. -/
theorem eventClosed_spelled (t : Text) :
    EventClosed fun c events c' ↦ c.In t → c'.In t ∧ ∀ e ∈ events, e.Spelled t where
  refl c hin := ⟨hin, List.forall_mem_nil _⟩
  trans h h' hin := by
    obtain ⟨hin₁, hevents⟩ := h hin
    obtain ⟨hin', hevents'⟩ := h' hin₁
    exact ⟨hin', List.forall_mem_append.2 ⟨hevents, hevents'⟩⟩
  skip h hin := ⟨(h hin).1, List.forall_mem_nil _⟩
  read h hin := ⟨(h.reads_token hin).1, List.forall_mem_nil _⟩
  declare _ _ c hin := ⟨hin, List.forall_mem_singleton.2 trivial⟩
  block h hin := by
    obtain ⟨hin', hevents⟩ := h hin
    exact ⟨hin', List.forall_mem_cons.2 ⟨trivial,
      List.forall_mem_append.2 ⟨hevents, List.forall_mem_singleton.2 trivial⟩⟩⟩
  member h hin := ⟨(h.reads_word hin).1, List.forall_mem_singleton.2 trivial⟩
  reference hfirst h kind hin := by
    have hin' := (h.reads_referencePath hfirst.reads_token hin).1
    exact ⟨hin', List.forall_mem_singleton.2 (Yields.slice?_referencePath hfirst hin h)⟩

namespace Yields

/-- The events of a declaration spell what stands at their spans. -/
theorem spelled_unmarkedDecl {kind : DeclKind} {declared : Token} {events : List Event}
    (h : unmarkedDecl.Yields c (kind, declared, events) c') (hin : c.In t) :
    ∀ e ∈ events, e.Spelled t := by
  obtain ⟨marks, rest, c₁, rfl, hmarks, c₂, c₃, hword, hname, hrest⟩ :=
    (eventClosed_spelled t).unmarkedDecl h
  obtain ⟨hin₁, hmarks⟩ := hmarks hin
  have hin₃ := (hname.reads_name (hword hin₁).1).1
  exact List.forall_mem_append.2 ⟨hmarks, (hrest hin₃).2⟩

end Yields

/-- The references in what a text declares stand in it as their names. -/
theorem spelled_of_items {steps : Nat} {all : List Item} {e : Effort}
    (h : items.run steps t = (.accepted all c', e)) :
    ∀ d ∈ all.filterMap Item.decl?, d.Spelled t := by
  intro d hd
  obtain ⟨c₁, c₂, hin, hdecl⟩ := exists_unmarkedDecl_of_items h d hd
  exact hdecl.spelled_unmarkedDecl hin

end Parser

/-! ### References -/

/-- The identifier of the reference has the last name of its path. If there is no other name in the
path, the reference stands in the text as it. -/
structure Reference.Known (t : Text) (scopes : ScopeTree) (r : Reference) : Prop where
  ident : ∃ ident, scopes.idents[r.ident]? = some ident ∧ ident.name = r.path.getLastD "" ∧
    ident.segments = r.path.length
  spelled : r.path.length = 1 → t.slice? r.span = some (r.path.getLastD "").toList

/-- The references among the elements are known. -/
def ReferencesKnown (t : Text) (scopes : ScopeTree) (es : List Element) : Prop :=
  ∀ r, .reference r ∈ es → r.Known t scopes

variable {t : Text} {scopes : ScopeTree} {es es' : List Element} {r : Reference}

theorem Reference.Known.addIdent (h : r.Known t scopes) (scope : ScopeId) (kind : IdentKind)
    (name : String) (segments : Nat) (span : Span) :
    r.Known t (scopes.addIdent scope kind name segments span) := by
  obtain ⟨⟨ident, hget, hident⟩, hspelled⟩ := h
  exact ⟨⟨ident, ScopeTree.getElem?_addIdent hget scope kind name segments span, hident⟩, hspelled⟩

theorem Reference.Known.pushScope (h : r.Known t scopes) (parent : ScopeId) (kind : ScopeKind) :
    r.Known t (scopes.pushScope parent kind) :=
  ⟨h.ident, h.spelled⟩

/-- Binding does not change what references are called. -/
theorem Reference.Known.bindAll (h : r.Known t scopes) : r.Known t scopes.bindAll := by
  obtain ⟨⟨ident, hget, hname, hsegments⟩, hspelled⟩ := h
  refine ⟨⟨scopes.bind r.ident ident, ?_, ?_, ?_⟩, hspelled⟩
  · rw [ScopeTree.getElem?_bindAll, hget]
    rfl
  · rw [ScopeTree.bind_eq]
    exact hname
  · rw [ScopeTree.bind_eq]
    exact hsegments

theorem ReferencesKnown.append (h : ReferencesKnown t scopes es)
    (h' : ReferencesKnown t scopes es') : ReferencesKnown t scopes (es ++ es') := by
  intro r hr
  rcases List.mem_append.1 hr with hr | hr
  · exact h r hr
  · exact h' r hr

/-- An element that is no reference can be added. -/
theorem ReferencesKnown.append_other (h : ReferencesKnown t scopes es) {e : Element}
    (he : e.reference? = none) : ReferencesKnown t scopes (es ++ [e]) := by
  refine h.append fun r hr ↦ ?_
  rw [← List.mem_singleton.1 hr] at he
  cases he

namespace BodyAssembly

variable {a : BodyAssembly} {before : List Element}

/-- Reading an event keeps the references known, those in front of the declaration and those in
it. -/
theorem known_event {e : Event} (h : ReferencesKnown t a.scopes (before ++ a.children))
    (he : e.Spelled t) (body : ScopeId) :
    ReferencesKnown t (a.event body e).scopes (before ++ (a.event body e).children) := by
  cases e with
  | declare name span => exact fun r hr ↦ (h r hr).addIdent _ _ _ _ _
  | reference path span kind =>
    show ReferencesKnown t _ (before ++ (a.children ++ [_]))
    rw [← List.append_assoc]
    refine ReferencesKnown.append (fun r hr ↦ (h r hr).addIdent _ _ _ _ _) fun r hr ↦ ?_
    obtain rfl := Element.reference.inj (List.mem_singleton.1 hr)
    exact ⟨⟨_, Array.getElem?_push_size, rfl, rfl⟩, he⟩
  | openBlock => exact fun r hr ↦ (h r hr).pushScope _ _
  | closeBlock => exact h
  | member name span =>
    show ReferencesKnown t a.scopes (before ++ (a.children ++ [_]))
    rw [← List.append_assoc]
    exact h.append_other rfl

/-- The references in a body are known, so that their identifiers are spelled there. -/
theorem known_foldl {events : List Event} (h : ReferencesKnown t a.scopes (before ++ a.children))
    (hevents : ∀ e ∈ events, e.Spelled t) (body : ScopeId) :
    ReferencesKnown t (events.foldl (event body) a).scopes
      (before ++ (events.foldl (event body) a).children) := by
  induction events generalizing a with
  | nil => exact h
  | cons e events ih =>
    obtain ⟨he, hevents⟩ := List.forall_mem_cons.1 hevents
    exact ih (known_event h he body) hevents

end BodyAssembly

namespace Assembly

variable {a : Assembly} {exportsAll : Bool}

theorem known_decl {d : DeclItem} (h : ReferencesKnown t a.scopes a.elements) (hd : d.Spelled t) :
    ReferencesKnown t (a.decl exportsAll d).scopes (a.decl exportsAll d).elements := by
  have hall : ReferencesKnown t (BodyAssembly.ofEvents a.scopes d.events).scopes
      (a.elements ++ (BodyAssembly.ofEvents a.scopes d.events).children) := by
    refine BodyAssembly.known_foldl ?_ hd _
    rw [List.append_nil]
    exact fun r hr ↦ (h r hr).pushScope _ _
  intro r hr
  rcases List.mem_append.1 hr with hr | hr
  · exact hall r (List.mem_append_left _ hr)
  · rcases List.mem_append.1 hr with hr | hr
    · simp at hr
    · rcases List.mem_cons.1 hr with heq | hr
      · cases heq
      · exact hall r (List.mem_append_right _ hr)

theorem known_foldl {items : List Item} (h : ReferencesKnown t a.scopes a.elements)
    (hitems : ∀ d ∈ items.filterMap Item.decl?, d.Spelled t) :
    ReferencesKnown t (items.foldl (item exportsAll) a).scopes
      (items.foldl (item exportsAll) a).elements := by
  induction items generalizing a with
  | nil => exact h
  | cons i items ih =>
    have hrest : ∀ d ∈ items.filterMap Item.decl?, d.Spelled t := by
      intro d hd
      obtain ⟨j, hj, hd⟩ := List.mem_filterMap.1 hd
      exact hitems d (List.mem_filterMap.2 ⟨j, List.mem_cons_of_mem i hj, hd⟩)
    refine ih ?_ hrest
    cases i with
    | decl d => exact known_decl h (hitems d (List.mem_filterMap.2 ⟨_, List.mem_cons_self, rfl⟩))
    | stray token => exact h
    | _ => exact h.append_other rfl

end Assembly

namespace Module

variable {options : ParseOptions} {file : String} {source : Text} {m : Module}

/-- All references of a module are known. -/
theorem known_of_parse (h : parse options file source = .ok m) :
    ReferencesKnown m.text m.scopes m.elements := by
  obtain ⟨items, c', e, hrun, rfl⟩ := exists_items h
  have hstart : ReferencesKnown (Conditional.process options.conditions ⟨file⟩ source).map.text
      (Assembly.globalScope items) [] := fun _ hr ↦ absurd hr List.not_mem_nil
  intro r hr
  have hknown := @Assembly.known_foldl _ ⟨none, [], Assembly.globalScope items,
    Assembly.strayProblems items, none, 0⟩ (!items.any Item.marksExport) items hstart
    (Parser.spelled_of_items hrun)
  exact (hknown r hr).bindAll

/-- A bound reference stands in the text as the name of the declaration it is bound to. -/
theorem slice?_of_bound (h : parse options file source = .ok m) {d : Decl} {ident : Ident}
    {binding : IdentId} (hr : .reference r ∈ m.elements)
    (hget : m.scopes.idents[r.ident]? = some ident) (hbound : ident.binding = some binding)
    (hd : .decl d ∈ m.elements) (hident : d.ident = binding) :
    m.text.slice? r.span = some d.name.toList := by
  have hscoped := scoped_of_parse h
  obtain ⟨⟨ident', hget', hname, hsegments⟩, hspelled⟩ := known_of_parse h r hr
  obtain rfl := Option.some.inj (hget.symm.trans hget')
  rw [hscoped.single _ _ _ hget hbound] at hsegments
  rw [hspelled hsegments.symm, ← hname, hscoped.name_eq hget hbound hd hident]

end Module

end ShaderLink
