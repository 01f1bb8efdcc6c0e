import ShaderLink.Proofs.Module.Layout
import ShaderLink.Proofs.Scope.Tree

/-!
# The scopes of a module

In a parsed module every reference that is bound is bound to what its name is looked up to, and the
identifier of a declaration at module level has the declaration's name. The latter holds because the
identifiers of these declarations are made first, in the order of the declarations.
-/

namespace ShaderLink

/-- References are bound to what their names are looked up to, and declarations know their
identifiers. -/
structure Module.Scoped (m : Module) : Prop where
  bound : m.scopes.Bound
  single : ∀ (id : IdentId) ident binding, m.scopes.idents[id]? = some ident →
    ident.binding = some binding → ident.segments = 1
  named : ∀ d, .decl d ∈ m.elements → ∃ ident, m.scopes.idents[d.ident]? = some ident ∧
    ident.name = d.name

namespace BodyAssembly

variable {a : BodyAssembly} {names : List String}

/-- Reading events makes identifiers and scopes, and binds nothing. -/
theorem scopes_foldl (body : ScopeId) (events : List Event) (hstarts : a.scopes.Starts names)
    (hunbound : a.scopes.Unbound) :
    (events.foldl (event body) a).scopes.Starts names ∧
      (events.foldl (event body) a).scopes.Unbound := by
  induction events generalizing a with
  | nil => exact ⟨hstarts, hunbound⟩
  | cons e events ih =>
    cases e with
    | declare name span =>
      exact ih (hstarts.addIdent _ _ _ _ _) (hunbound.addIdent _ _ _ _ _)
    | reference path span kind =>
      exact ih (hstarts.addIdent _ _ _ _ _) (hunbound.addIdent _ _ _ _ _)
    | openBlock => exact ih (hstarts.pushScope _ _) (hunbound.pushScope _ _)
    | closeBlock => exact ih hstarts hunbound
    | member name span => exact ih hstarts hunbound

end BodyAssembly

namespace Assembly

variable {a : Assembly} {names : List String} {exportsAll : Bool}

/-- The names that items declare at module level. -/
def declNames (items : List Item) : List String :=
  (items.filterMap Item.decl?).map fun d ↦ d.name.text

/-- The first identifiers have the names of all declarations, nothing is bound, and declarations
that have been read know their identifiers. -/
structure Scoped (a : Assembly) (names : List String) : Prop where
  starts : a.scopes.Starts names
  unbound : a.scopes.Unbound
  named : ∀ d, .decl d ∈ a.elements → names[d.ident]? = some d.name

theorem Scoped.append_plain (h : a.Scoped names) {e : Element} (hplain : e.decl? = none) (d : Decl)
    (hd : .decl d ∈ a.elements ++ [e]) : names[d.ident]? = some d.name := by
  rcases List.mem_append.1 hd with hd | hd
  · exact h.named d hd
  · rw [← List.mem_singleton.1 hd] at hplain
    exact absurd hplain nofun

theorem Scoped.decl (h : a.Scoped names) {d : DeclItem}
    (hname : names[a.declCount]? = some d.name.text) : (a.decl exportsAll d).Scoped names := by
  obtain ⟨hstarts, hunbound⟩ := BodyAssembly.scopes_foldl a.scopes.scopes.size d.events
    (a := ⟨a.scopes.pushScope ScopeTree.root .body, [], []⟩) (h.starts.pushScope _ _)
    (h.unbound.pushScope _ _)
  refine ⟨hstarts, hunbound, fun d' hd' ↦ ?_⟩
  rcases List.mem_append.1 hd' with hd' | hd'
  · exact h.named d' hd'
  · rcases List.mem_append.1 hd' with hd' | hd'
    · simp at hd'
    · rcases List.mem_cons.1 hd' with heq | hd'
      · obtain rfl := Element.decl.inj heq
        exact hname
      · exact absurd hd' (BodyAssembly.decl_not_mem_children a.scopes d.events d')

theorem Scoped.foldl {items : List Item} (h : a.Scoped names) (exportsAll : Bool)
    (before : List String) (hcount : a.declCount = before.length)
    (hnames : names = before ++ declNames items) :
    (items.foldl (item exportsAll) a).Scoped names := by
  induction items generalizing a before with
  | nil => exact h
  | cons i items ih =>
    cases i with
    | decl d =>
      have hall : names = (before ++ [d.name.text]) ++ declNames items := by
        rw [hnames, List.append_assoc]
        rfl
      refine ih (h.decl (d := d) ?_) _ ?_ hall
      · rw [hcount, hnames]
        simp [declNames, Item.decl?]
      · rw [List.length_append, ← hcount]
        rfl
    | stray token => exact ih h before hcount hnames
    | _ => exact ih ⟨h.starts, h.unbound, h.append_plain rfl⟩ before hcount hnames

/-- The scope of the module starts with the names that it declares. -/
theorem starts_globalScope (items : List Item) :
    (globalScope items).Starts (declNames items) ∧ (globalScope items).Unbound := by
  have hfoldl (decls : List DeclItem) (t : ScopeTree) (before : List String)
      (hstarts : t.Starts before) (hsize : t.idents.size = before.length) (hunbound : t.Unbound) :
      (decls.foldl (fun scopes d ↦
        scopes.addIdent ScopeTree.root .decl d.name.text 1 d.name.span) t).Starts
          (before ++ decls.map fun d ↦ d.name.text) ∧
        (decls.foldl (fun scopes d ↦
          scopes.addIdent ScopeTree.root .decl d.name.text 1 d.name.span) t).Unbound := by
    induction decls generalizing t before with
    | nil => exact ⟨by simpa using hstarts, hunbound⟩
    | cons d decls ih =>
      have hrest := ih (t.addIdent ScopeTree.root .decl d.name.text 1 d.name.span)
        (before ++ [d.name.text]) (hstarts.addIdent_self hsize _ _ _ _ _)
        (by simp [ScopeTree.addIdent, hsize]) (hunbound.addIdent _ _ _ _ _)
      simpa using hrest
  exact hfoldl _ .empty [] ScopeTree.starts_empty rfl ScopeTree.unbound_empty

end Assembly

namespace Module

variable {options : ParseOptions} {file : String} {source : Text} {m : Module}

/-- The scopes of a parsed module are in order. -/
theorem scoped_of_parse (h : parse options file source = .ok m) : m.Scoped := by
  obtain ⟨items, c', e, -, rfl⟩ := exists_items h
  obtain ⟨hstarts, hunbound⟩ := Assembly.starts_globalScope items
  have hscoped : Assembly.Scoped ⟨none, [], Assembly.globalScope items,
      Assembly.strayProblems items, none, 0⟩ (Assembly.declNames items) :=
    ⟨hstarts, hunbound, fun _ hd ↦ absurd hd List.not_mem_nil⟩
  have hall := hscoped.foldl (!items.any Item.marksExport) [] rfl rfl
  exact ⟨hall.unbound.bound_bindAll, fun _ _ _ hident hbinding ↦
    hall.unbound.segments_eq_one hident hbinding, fun d hd ↦
    hall.starts.bindAll d.ident d.name (hall.named d hd)⟩

/-- A reference and the declaration at module level that it is bound to have the same name. -/
theorem Scoped.name_eq (h : m.Scoped) {id binding : IdentId} {ident : Ident} {d : Decl}
    (hget : m.scopes.idents[id]? = some ident) (hbound : ident.binding = some binding)
    (hd : .decl d ∈ m.elements) (hident : d.ident = binding) : ident.name = d.name := by
  obtain ⟨declared, hdeclared, -, hname⟩ :=
    ScopeTree.declares_of_lookup (h.bound id ident binding hget hbound)
  obtain ⟨named, hnamed, hname'⟩ := h.named d hd
  rw [hident, hdeclared] at hnamed
  obtain rfl := Option.some.inj hnamed
  rw [← hname, hname']

end Module

end ShaderLink
