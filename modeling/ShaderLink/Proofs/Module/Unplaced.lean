import ShaderLink.Module.Parse
import ShaderLink.Proofs.Grammar.SameItem
import ShaderLink.Proofs.Scope.Tree

/-!
# Modules without places

Everything a module is assembled from has a span somewhere: events, items, elements, identifiers.
None of these spans decides anything. So to assemble a module and then forget the places comes to
the same as to assemble it from items without places (`Assembly.unplaced_ofItems`), and items that
are the same up to their places make modules that are (`Module.same_ofItems`).
-/

namespace ShaderLink

/-! ### Forgetting places -/

def Decl.unplaced (d : Decl) : Decl :=
  { d with nameSpan := default, span := default }

/-- An element without its places. -/
def Element.unplaced : Element → Element
  | module path _ => module path default
  | importing tree dialect _ => importing tree dialect default
  | exporting params _ => exporting params default
  | decl d => decl d.unplaced
  | member name _ => member name default
  | reference r => reference { r with span := default }
  | text _ => text default

def Ident.unplaced (ident : Ident) : Ident :=
  { ident with span := default }

/-- A scope tree without the places of its identifiers. -/
def ScopeTree.unplaced (t : ScopeTree) : ScopeTree where
  scopes := t.scopes
  idents := t.idents.map Ident.unplaced

def BodyAssembly.unplaced (a : BodyAssembly) : BodyAssembly where
  scopes := a.scopes.unplaced
  blocks := a.blocks
  children := a.children.map Element.unplaced

/-- What has been assembled, without places. -/
def Assembly.unplaced (a : Assembly) : Assembly where
  path := a.path
  elements := a.elements.map Element.unplaced
  scopes := a.scopes.unplaced
  problems := a.problems.map fun problem ↦ (default, problem.2)
  pendingExport := a.pendingExport.map fun mark ↦ (mark.1, default)
  declCount := a.declCount

/-! ### Scope trees -/

namespace ScopeTree

variable (t : ScopeTree)

@[simp] theorem size_idents_unplaced : t.unplaced.idents.size = t.idents.size :=
  Array.size_map

@[simp] theorem unplaced_pushScope (parent : ScopeId) (kind : ScopeKind) :
    (t.pushScope parent kind).unplaced = t.unplaced.pushScope parent kind :=
  rfl

/-- An identifier is given the same number wherever it stands. -/
@[simp] theorem unplaced_addIdent (scope : ScopeId) (kind : IdentKind) (name : String)
    (segments : Nat) (span : Span) :
    (t.addIdent scope kind name segments span).unplaced =
      t.unplaced.addIdent scope kind name segments default := by
  simp [unplaced, addIdent, Ident.unplaced]

/-- A declaration is found by its name, wherever it stands. -/
theorem findIn_unplaced (scope : Scope) (name : String) (user : IdentId) :
    t.unplaced.findIn scope name user = t.findIn scope name user := by
  rw [findIn, findIn]
  congr 1
  funext id
  rw [unplaced, Array.getElem?_map, Option.any_map]
  rfl

/-- What identifiers are bound to depends on their order alone. -/
theorem unplaced_bindAll : t.bindAll.unplaced = t.unplaced.bindAll := by
  rw [bindAll, bindAll, unplaced, unplaced]
  congr 1
  refine Array.ext_getElem? fun id ↦ ?_
  rw [Array.getElem?_map, Array.getElem?_mapIdx, Array.getElem?_mapIdx, Array.getElem?_map,
    Option.map_map, Option.map_map]
  congr 1
  funext ident
  show (t.bind id ident).unplaced = t.unplaced.bind id ident.unplaced
  have hlookup : t.unplaced.lookup ident.name id ident.scope =
      t.lookup ident.name id ident.scope :=
    lookup_congr (show t.unplaced.scopes = t.scopes from rfl) t.findIn_unplaced _ _ _
  rw [bind, bind]
  show _ = if ident.kind = .ref ∧ ident.segments = 1 ∧ ident.binding = none then
    { ident.unplaced with binding := t.unplaced.lookup ident.name id ident.scope }
    else ident.unplaced
  rw [hlookup]
  split <;> rfl

end ScopeTree

/-! ### Assembling -/

namespace BodyAssembly

/-- An event does the same to the scopes and the elements wherever it stands. -/
theorem unplaced_event (body : ScopeId) (a : BodyAssembly) (e : Event) :
    (a.event body e).unplaced = a.unplaced.event body e.unplaced := by
  cases e with
  | declare name span =>
    simp [event, unplaced, Event.unplaced]
  | reference path span kind =>
    simp [event, unplaced, Event.unplaced, Element.unplaced]
  | openBlock => rfl
  | closeBlock => simp [event, unplaced, Event.unplaced]
  | member name span => simp [event, unplaced, Event.unplaced, Element.unplaced]

/-- So do all events of a body in turn. -/
theorem unplaced_ofEvents (scopes : ScopeTree) (events : List Event) :
    (ofEvents scopes events).unplaced = ofEvents scopes.unplaced (events.map Event.unplaced) := by
  have hfoldl (body : ScopeId) (a : BodyAssembly) :
      (events.foldl (event body) a).unplaced =
        (events.map Event.unplaced).foldl (event body) a.unplaced := by
    induction events generalizing a with
    | nil => rfl
    | cons e events ih => rw [List.foldl_cons, ih, unplaced_event, List.map_cons, List.foldl_cons]
  exact hfoldl _ _

end BodyAssembly

namespace Assembly

/-- A declaration is assembled from its events, its name and its attributes. -/
theorem unplaced_decl (exportsAll : Bool) (a : Assembly) (d : DeclItem) :
    (a.decl exportsAll d).unplaced = a.unplaced.decl exportsAll d.unplaced := by
  have hbody := BodyAssembly.unplaced_ofEvents a.scopes d.events
  have hscopes : (BodyAssembly.ofEvents a.scopes d.events).scopes.unplaced =
      (BodyAssembly.ofEvents a.unplaced.scopes d.unplaced.events).scopes :=
    congrArg BodyAssembly.scopes hbody
  have hchildren : (BodyAssembly.ofEvents a.scopes d.events).children.map Element.unplaced =
      (BodyAssembly.ofEvents a.unplaced.scopes d.unplaced.events).children :=
    congrArg BodyAssembly.children hbody
  have hword : (d.exportSpan.toList.map fun word ↦
        Element.exporting [] (Span.between word.start d.span.start)).map Element.unplaced =
      d.unplaced.exportSpan.toList.map fun word ↦
        Element.exporting [] (Span.between word.start d.unplaced.span.start) := by
    rw [DeclItem.unplaced]
    cases d.exportSpan <;> rfl
  rw [decl, decl, unplaced, ← hchildren, ← hscopes, ← hword]
  simp [unplaced, DeclItem.unplaced, Element.unplaced, Decl.unplaced, Token.unplaced,
    ScopeTree.unplaced, Function.comp_def]

theorem unplaced_unusedExport (pending : Option (List String × Span)) :
    (unusedExport pending).map (fun problem ↦ ((default : Span), problem.2)) =
      unusedExport (pending.map fun mark ↦ (mark.1, default)) := by
  cases pending <;> rfl

/-- Each item is assembled by its kind and content. -/
theorem unplaced_item (exportsAll : Bool) (a : Assembly) (i : Item) :
    (a.item exportsAll i).unplaced = a.unplaced.item exportsAll i.unplaced := by
  cases i with
  | module path span => simp [item, unplaced, Item.unplaced, Element.unplaced]
  | importing tree dialect span => simp [item, unplaced, Item.unplaced, Element.unplaced]
  | exporting params span =>
    simp [item, unplaced, Item.unplaced, Element.unplaced, unplaced_unusedExport]
  | decl d => exact unplaced_decl exportsAll a d
  | text span => simp [item, unplaced, Item.unplaced, Element.unplaced]
  | stray token => rfl

/-- Stray tokens are pointed out wherever they stand. -/
theorem unplaced_strayProblems (items : List Item) :
    (strayProblems items).map (fun problem ↦ ((default : Span), problem.2)) =
      strayProblems (items.map Item.unplaced) := by
  induction items with
  | nil => rfl
  | cons i items ih =>
    cases i with
    | stray token => exact congrArg (List.cons _) ih
    | _ => exact ih

/-- Module-level names are declared in the order of the items. -/
theorem unplaced_globalScope (items : List Item) :
    (globalScope items).unplaced = globalScope (items.map Item.unplaced) := by
  have hfoldl (scopes : ScopeTree) :
      ((items.filterMap Item.decl?).foldl (fun scopes d ↦
        scopes.addIdent ScopeTree.root .decl d.name.text 1 d.name.span) scopes).unplaced =
      ((items.map Item.unplaced).filterMap Item.decl?).foldl (fun scopes d ↦
        scopes.addIdent ScopeTree.root .decl d.name.text 1 d.name.span) scopes.unplaced := by
    induction items generalizing scopes with
    | nil => rfl
    | cons i items ih =>
      cases i with
      | decl d => exact (ih _).trans (by rw [ScopeTree.unplaced_addIdent]; rfl)
      | _ => exact ih scopes
  have hempty : ScopeTree.empty.unplaced = .empty := by
    simp [ScopeTree.unplaced, ScopeTree.empty]
  have hall := hfoldl .empty
  rwa [hempty] at hall

/-- Whether an item marks an export is no question of its place. -/
theorem marksExport_unplaced (i : Item) : i.unplaced.marksExport = i.marksExport := by
  cases i with
  | decl d => exact Option.isSome_map
  | _ => rfl

theorem any_marksExport_unplaced (items : List Item) :
    (items.map Item.unplaced).any Item.marksExport = items.any Item.marksExport := by
  rw [List.any_map]
  congr 1
  funext i
  exact marksExport_unplaced i

/-- To forget the places behind or in front of assembling comes to the same. -/
theorem unplaced_ofItems (items : List Item) :
    (ofItems items).unplaced = ofItems (items.map Item.unplaced) := by
  have hfoldl (exportsAll : Bool) (a : Assembly) :
      (items.foldl (item exportsAll) a).unplaced =
        (items.map Item.unplaced).foldl (item exportsAll) a.unplaced := by
    induction items generalizing a with
    | nil => rfl
    | cons i items ih => rw [List.foldl_cons, ih, unplaced_item, List.map_cons, List.foldl_cons]
  have hstart : (⟨none, [], globalScope items, strayProblems items, none, 0⟩ : Assembly).unplaced =
      ⟨none, [], globalScope (items.map Item.unplaced), strayProblems (items.map Item.unplaced),
        none, 0⟩ := by
    rw [← unplaced_globalScope, ← unplaced_strayProblems]
    rfl
  have hend (a : Assembly) : ({ a with
      scopes := a.scopes.bindAll
      problems := a.problems ++ unusedExport a.pendingExport } : Assembly).unplaced =
      { a.unplaced with
        scopes := a.unplaced.scopes.bindAll
        problems := a.unplaced.problems ++ unusedExport a.unplaced.pendingExport } := by
    show Assembly.mk _ _ a.scopes.bindAll.unplaced (List.map _ _) _ _ = _
    rw [ScopeTree.unplaced_bindAll, List.map_append, unplaced_unusedExport]
    rfl
  rw [ofItems, hend, hfoldl, hstart, ofItems, any_marksExport_unplaced]

end Assembly

/-! ### Modules -/

/-- The modules differ in places only: in the spans of elements and identifiers, and in where
warnings point to. -/
structure Module.SameUpToPlaces (m m' : Module) : Prop where
  path : m.path = m'.path
  elements : m.elements.map Element.unplaced = m'.elements.map Element.unplaced
  scopes : m.scopes.unplaced = m'.scopes.unplaced
  warnings : m.warnings.map Warning.message = m'.warnings.map Warning.message
  exportsAll : m.exportsAll = m'.exportsAll

/-- Items that are the same up to their places make modules that are. -/
theorem Module.same_ofItems {items items' : List Item}
    (h : items.map Item.unplaced = items'.map Item.unplaced) (file : String) {t t' : Text}
    {processed processed' : Conditional.Processed}
    (hwarnings : processed.warnings = []) (hwarnings' : processed'.warnings = []) :
    (ofItems file t processed items).SameUpToPlaces (ofItems file t' processed' items') := by
  have hassembly : (Assembly.ofItems items).unplaced = (Assembly.ofItems items').unplaced := by
    rw [Assembly.unplaced_ofItems, Assembly.unplaced_ofItems, h]
  have hmessages (source : Text) (processed : Conditional.Processed) (items : List Item)
      (hnone : processed.warnings = []) :
      (ofItems file source processed items).warnings.map Warning.message =
        (Assembly.ofItems items).unplaced.problems.map Prod.snd := by
    show (processed.warnings ++ List.map _ _).map _ = (List.map _ _).map _
    rw [hnone, List.nil_append, List.map_map, List.map_map]
    rfl
  exact {
    path := by
      have hpath := congrArg Assembly.path hassembly
      exact congrArg (Option.getD · (ModulePath.ofFile file.toList)) hpath
    elements := congrArg Assembly.elements hassembly
    scopes := congrArg Assembly.scopes hassembly
    warnings := by
      rw [hmessages _ _ _ hwarnings, hmessages _ _ _ hwarnings', hassembly]
    exportsAll := by
      show (!items.any Item.marksExport) = !items'.any Item.marksExport
      rw [← Assembly.any_marksExport_unplaced, h, Assembly.any_marksExport_unplaced] }

end ShaderLink
