import Mathlib.Data.List.Basic
import ShaderLink.Module.Parse
import ShaderLink.Proofs.Grammar.Item

/-!
# The layout of a module

In a parsed module the elements at module level stand one behind the other, and so do, inside a
declaration, its name and the elements inside it (`ElementsInOrder`). This is what makes it possible
to delete or rename any of them without touching another. The layout follows from the order of the
items (`Parser.items_inOrder`), because assembling items only adds elements at the end.
-/

namespace ShaderLink

/-- The span of an element at module level. -/
def Element.outer? : Element → Option Span
  | member .. => none
  | reference _ => none
  | e => some e.span

/-- The event that an element inside a declaration has come of. -/
def Element.event? : Element → Option Event
  | member name span => some (.member name span)
  | reference r => some (.reference r.path r.span r.kind)
  | _ => none

/-- The elements inside a declaration. -/
def Decl.childrenIn (d : Decl) (es : List Element) : List Element :=
  (es.drop d.firstChild).take d.childCount

/-- The name of a declaration and the elements inside it stand one behind the other in its span. -/
def Decl.InOrder (t : Text) (d : Decl) (children : List Element) : Prop :=
  ∃ front back, children.map Element.span = front ++ back ∧
    t.Ascending d.span.start (front ++ d.nameSpan :: back) d.span.stop

/-- The elements at module level stand one behind the other, and what is inside a declaration is
in order. -/
structure ElementsInOrder (t : Text) (es : List Element) (hi : Nat) : Prop where
  outer : t.Ascending 0 (es.filterMap Element.outer?) hi
  inside : ∀ d, .decl d ∈ es →
    d.firstChild + d.childCount ≤ es.length ∧ d.InOrder t (d.childrenIn es)

/-! ### Events become elements -/

namespace BodyAssembly

theorem children_event (body : ScopeId) (a : BodyAssembly) (e : Event) :
    ∃ added, (a.event body e).children = a.children ++ added ∧
      added.map Element.span = e.child?.toList ∧ added.filterMap Element.outer? = [] := by
  cases e with
  | declare name span => exact ⟨[], (List.append_nil _).symm, rfl, rfl⟩
  | reference path span kind => exact ⟨_, rfl, rfl, rfl⟩
  | openBlock => exact ⟨[], (List.append_nil _).symm, rfl, rfl⟩
  | closeBlock => exact ⟨[], (List.append_nil _).symm, rfl, rfl⟩
  | member name span => exact ⟨_, rfl, rfl, rfl⟩

theorem children_foldl (body : ScopeId) (events : List Event) (a : BodyAssembly) :
    ∃ added, (events.foldl (event body) a).children = a.children ++ added ∧
      added.map Element.span = childSpans events ∧ added.filterMap Element.outer? = [] := by
  induction events generalizing a with
  | nil => exact ⟨[], (List.append_nil _).symm, rfl, rfl⟩
  | cons e events ih =>
    obtain ⟨first, hfirst, hspan, houter⟩ := children_event body a e
    obtain ⟨rest, hrest, hspans, houters⟩ := ih (a.event body e)
    refine ⟨first ++ rest, ?_, ?_, ?_⟩
    · rw [List.foldl_cons, hrest, hfirst, List.append_assoc]
    · rw [List.map_append, hspan, hspans, childSpans_cons]
    · rw [List.filterMap_append, houter, houters, List.nil_append]

/-- The elements of a declaration are those of its events, none of them at module level. -/
theorem children_ofEvents (scopes : ScopeTree) (events : List Event) :
    (ofEvents scopes events).children.map Element.span = childSpans events ∧
      (ofEvents scopes events).children.filterMap Element.outer? = [] := by
  obtain ⟨added, hadded, hspans, houter⟩ := children_foldl scopes.scopes.size events
    ⟨scopes.pushScope ScopeTree.root .body, [], []⟩
  have hchildren : (ofEvents scopes events).children = added := hadded
  rw [hchildren]
  exact ⟨hspans, houter⟩

theorem events_foldl (body : ScopeId) (events : List Event) (a : BodyAssembly) :
    (events.foldl (event body) a).children.filterMap Element.event? =
      a.children.filterMap Element.event? ++ events.filter fun e ↦ e.child?.isSome := by
  induction events generalizing a with
  | nil => exact (List.append_nil _).symm
  | cons e events ih =>
    rw [List.foldl_cons, ih]
    cases e with
    | reference path span kind =>
      show (a.children ++ [_]).filterMap Element.event? ++ _ = _
      rw [List.filterMap_append, List.append_assoc]
      rfl
    | member name span =>
      show (a.children ++ [_]).filterMap Element.event? ++ _ = _
      rw [List.filterMap_append, List.append_assoc]
      rfl
    | _ => rfl

/-- The elements of a declaration have come of its events. -/
theorem events_ofEvents (scopes : ScopeTree) (events : List Event) :
    (ofEvents scopes events).children.filterMap Element.event? =
      events.filter fun e ↦ e.child?.isSome :=
  events_foldl scopes.scopes.size events ⟨scopes.pushScope ScopeTree.root .body, [], []⟩

/-- No declaration at module level is inside another. -/
theorem decl_not_mem_children (scopes : ScopeTree) (events : List Event) (d : Decl) :
    .decl d ∉ (ofEvents scopes events).children :=
  fun hd ↦ by
    simpa [Element.outer?] using
      List.filterMap_eq_nil_iff.1 (children_ofEvents scopes events).2 _ hd

end BodyAssembly

/-! ### Items become elements -/

namespace ElementsInOrder

variable {t : Text} {es : List Element} {lo hi : Nat}

theorem nil (t : Text) : ElementsInOrder t [] 0 :=
  ⟨.nil le_rfl, by simp⟩

/-- Elements can be added at the end, if the declarations among them know their places. -/
theorem append (h : ElementsInOrder t es lo) (added : List Element)
    (houter : t.Ascending lo (added.filterMap Element.outer?) hi)
    (hinside : ∀ d, .decl d ∈ added → ∃ place, d.firstChild = es.length + place ∧
      place + d.childCount ≤ added.length ∧
      d.InOrder t ((added.drop place).take d.childCount)) :
    ElementsInOrder t (es ++ added) hi where
  outer := by
    rw [List.filterMap_append]
    exact h.outer.append houter
  inside d hd := by
    rw [List.length_append]
    rcases List.mem_append.1 hd with hd | hd
    · obtain ⟨hle, hd⟩ := h.inside d hd
      -- what is added behind is out of the window of an earlier declaration
      have hwindow : d.childrenIn (es ++ added) = d.childrenIn es := by
        rw [Decl.childrenIn, List.drop_append_of_le_length (by omega),
          List.take_append_of_le_length (by rw [List.length_drop]; omega), Decl.childrenIn]
      exact ⟨by omega, by rwa [hwindow]⟩
    · obtain ⟨place, hplace, hle, hd⟩ := hinside d hd
      have hwindow : d.childrenIn (es ++ added) = (added.drop place).take d.childCount := by
        rw [Decl.childrenIn, hplace, List.drop_append, List.drop_eq_nil_of_le (by omega)]
        simp
      exact ⟨by omega, by rwa [hwindow]⟩

/-- An element that is no declaration can be added. -/
theorem append_plain {e : Element} {span : Span} (h : ElementsInOrder t es lo)
    (hspan : e.outer? = some span) (hplain : e.decl? = none) (houter : t.Ascending lo [span] hi) :
    ElementsInOrder t (es ++ [e]) hi := by
  refine h.append [e] (by simpa [hspan] using houter) fun d hd ↦ ?_
  rw [← List.mem_singleton.1 hd] at hplain
  exact absurd hplain nofun

end ElementsInOrder

namespace Assembly

variable {t : Text} {a : Assembly} {lo hi : Nat} {exportsAll : Bool}

theorem inOrder_decl {d : DeclItem} (h : ElementsInOrder t a.elements lo)
    (houter : t.Ascending lo (Item.decl d).outerSpans hi) (hd : d.InOrder t) :
    ElementsInOrder t (a.decl exportsAll d).elements hi := by
  obtain ⟨hspans, hnone⟩ := BodyAssembly.children_ofEvents a.scopes d.events
  refine h.append _ ?_ fun d' hd' ↦ ?_
  · have hwords (word : Option Span) : (word.toList.map fun word ↦
        Element.exporting [] (Span.between word.start d.span.start)).filterMap Element.outer? =
          word.toList.map fun word ↦ Span.between word.start d.span.start := by
      cases word <;> rfl
    rw [List.filterMap_append, List.filterMap_cons, hnone, hwords]
    exact houter
  · rcases List.mem_append.1 hd' with hd' | hd'
    · simp at hd'
    · rcases List.mem_cons.1 hd' with heq | hd'
      · obtain rfl := Element.decl.inj heq
        refine ⟨(d.exportSpan.toList.map fun word ↦
          Element.exporting [] (Span.between word.start d.span.start)).length + 1,
          by rw [Nat.add_assoc], by simp; omega, ?_⟩
        obtain ⟨front, back, hchildren, hascending⟩ := hd
        refine ⟨front, back, ?_, hascending⟩
        rw [List.drop_append, List.drop_eq_nil_of_le (by omega)]
        simp [hspans, hchildren]
      · exact absurd hd' (BodyAssembly.decl_not_mem_children a.scopes d.events d')

theorem inOrder_item {i : Item} (h : ElementsInOrder t a.elements lo)
    (houter : t.Ascending lo i.outerSpans hi) (hi' : ∀ d, i.decl? = some d → d.InOrder t) :
    ElementsInOrder t (a.item exportsAll i).elements hi := by
  cases i with
  | module path span => exact h.append_plain rfl rfl houter
  | importing tree dialect span => exact h.append_plain rfl rfl houter
  | exporting params span => exact h.append_plain rfl rfl houter
  | decl d => exact inOrder_decl h houter (hi' d rfl)
  | text span => exact h.append_plain rfl rfl houter
  | stray token =>
    have hadded := h.append [] houter (by simp)
    rwa [List.append_nil] at hadded

theorem inOrder_foldl {items : List Item} (h : ElementsInOrder t a.elements lo)
    (houter : t.Ascending lo (items.flatMap Item.outerSpans) hi)
    (hitems : ∀ d ∈ items.filterMap Item.decl?, d.InOrder t) :
    ElementsInOrder t (items.foldl (item exportsAll) a).elements hi := by
  induction items generalizing a lo with
  | nil =>
    have hadded := h.append [] houter (by simp)
    rwa [List.append_nil] at hadded
  | cons i items ih =>
    rw [List.flatMap_cons] at houter
    obtain ⟨mid, hfirst, hrest⟩ := houter.split
    have hdecl (d : DeclItem) (hd : i.decl? = some d) : d.InOrder t :=
      hitems d (List.mem_filterMap.2 ⟨i, List.mem_cons_self, hd⟩)
    refine ih (inOrder_item h hfirst hdecl) hrest fun d hd ↦ ?_
    obtain ⟨j, hj, hd⟩ := List.mem_filterMap.1 hd
    exact hitems d (List.mem_filterMap.2 ⟨j, List.mem_cons_of_mem i hj, hd⟩)

end Assembly

namespace Module

variable {options : ParseOptions} {file : String} {source : Text} {m : Module}

/-- A parsed module is what its items make of the text that conditional lines leave. -/
theorem exists_items (h : parse options file source = .ok m) :
    ∃ items c' e, Parser.items.run options.maxSteps
        (Conditional.process options.conditions ⟨file⟩ source).map.text =
          (.accepted items c', e) ∧
      m = ofItems file source (Conditional.process options.conditions ⟨file⟩ source) items := by
  unfold parse at h
  dsimp only at h
  split at h
  · rename_i items c' e hrun
    exact ⟨items, c', e, hrun, (Except.ok.inj h).symm⟩
  · cases h
  · cases h

/-- The elements of a parsed module are in order. -/
theorem elementsInOrder_of_parse (h : parse options file source = .ok m) :
    ElementsInOrder m.text m.elements m.text.size := by
  obtain ⟨items, c', e, hrun, rfl⟩ := exists_items h
  obtain ⟨houter, hdecls⟩ := Parser.items_inOrder hrun
  exact Assembly.inOrder_foldl (.nil _) houter hdecls

end Module

end ShaderLink
