import ShaderLink.Proofs.Grammar.Balanced
import ShaderLink.Proofs.Module.Chain
import ShaderLink.Proofs.Module.Scopes

/-!
# Binding is lexical scoping

The references of a parsed module are bound as if each declaration had been read with an environment
of the blocks around a reference (`Module.lexical_of_parse`). While events are read, the open blocks
of the scope tree show the environment (`BodyAssembly.Shows`); a reference that is made then will be
looked up to what its name means at this point.
-/

namespace ShaderLink

/-- The use that a reference is, with the declaration that it is bound to. -/
def ScopeTree.usage? (t : ScopeTree) (r : Reference) : Option Usage :=
  t.idents[r.ident]?.map fun ident ↦ ⟨r.path, r.span, ident.binding⟩

/-- The kind, name and span of the identifier that an event makes, if it makes one. -/
def Event.site? : Event → Option (IdentKind × String × Span)
  | declare name span => some (.decl, name, span)
  | reference path span _ => some (.ref, path.getLastD "", span)
  | _ => none

theorem Item.eq_of_decl? {i : Item} {d : DeclItem} (h : i.decl? = some d) : i = .decl d := by
  cases i with
  | decl d' => exact congrArg Item.decl (Option.some.inj h)
  | _ => cases h

/-- The references among the elements inside a declaration. -/
def Decl.referencesIn (d : Decl) (es : List Element) : List Reference :=
  (d.childrenIn es).filterMap Element.reference?

/-- The kind, name and span of an identifier. -/
def Ident.site (ident : Ident) : IdentKind × String × Span :=
  (ident.kind, ident.name, ident.span)

/-- The number, name and span of the identifier that a declaration is. -/
def Decl.site (d : Decl) : IdentId × String × Span :=
  (d.ident, d.name, d.nameSpan)

/-! ### Reading a declaration -/

namespace BodyAssembly

variable {a : BodyAssembly} {body : ScopeId} {env next last : Environment} {e : Event}
  {events : List Event} {usages : List Usage}

/-- What has been read of a declaration shows the environment: its open blocks do, and as many
identifiers have been made. -/
structure Shows (body : ScopeId) (a : BodyAssembly) (env : Environment) : Prop where
  scopes : a.scopes.Shows env.globals (a.blocks ++ [body]) (env.block :: env.outer)
  count : a.scopes.idents.size = env.count

theorem headD_blocks (a : BodyAssembly) (body : ScopeId) :
    (a.blocks ++ [body]).headD ScopeTree.root = a.blocks.headD body := by
  cases a.blocks <;> rfl

/-- An identifier is made in the innermost open block. -/
theorem Shows.addIdent (h : a.Shows body env) (kind : IdentKind) (name : String) (segments : Nat)
    (span : Span) :
    (a.scopes.addIdent (a.blocks.headD body) kind name segments span).Shows env.globals
        (a.blocks ++ [body])
        (((if kind = .decl then [(name, env.count)] else []) ++ env.block) :: env.outer) ∧
      a.scopes.Extends (a.scopes.addIdent (a.blocks.headD body) kind name segments span) := by
  obtain ⟨hscopes, hcount⟩ := h
  obtain ⟨id, path, hpath⟩ : ∃ id path, a.blocks ++ [body] = id :: path :=
    List.exists_cons_of_ne_nil (List.append_ne_nil_of_right_ne_nil _ (List.cons_ne_nil _ _))
  have hid : a.blocks.headD body = id := by
    rw [← headD_blocks, hpath]
    rfl
  rw [hpath] at hscopes ⊢
  rw [hid, ← hcount]
  exact ⟨hscopes.addIdent kind name segments span,
    ScopeTree.extends_addIdent hscopes.kind_ne kind name segments span⟩

/-- An event leads to the next environment. -/
theorem Shows.event (h : a.Shows body env) (hnext : env.event e = some next) :
    (a.event body e).Shows body next ∧ a.scopes.Extends (a.event body e).scopes := by
  cases e with
  | declare name span =>
    obtain rfl := Option.some.inj hnext
    obtain ⟨hscopes, hext⟩ := h.addIdent .decl name 1 span
    exact ⟨⟨hscopes, by simp [BodyAssembly.event, ScopeTree.addIdent, h.count]⟩, hext⟩
  | reference path span kind =>
    obtain rfl := Option.some.inj hnext
    obtain ⟨hscopes, hext⟩ := h.addIdent .ref (path.getLastD "") path.length span
    exact ⟨⟨hscopes, by simp [BodyAssembly.event, ScopeTree.addIdent, h.count]⟩, hext⟩
  | openBlock =>
    obtain rfl := Option.some.inj hnext
    have hkind : ScopeKind.block ≠ .module := by decide
    have hlt := h.scopes.headD_lt
    have hscopes := h.scopes.pushScope hkind
    rw [headD_blocks] at hlt hscopes
    exact ⟨⟨hscopes, h.count⟩, ScopeTree.extends_pushScope hlt .block⟩
  | closeBlock =>
    obtain ⟨globals, block, outer, count⟩ := env
    obtain ⟨scopes, blocks, children⟩ := a
    obtain ⟨hscopes, hcount⟩ := h
    cases outer with
    | nil => cases hnext
    | cons block' outer =>
      obtain rfl := Option.some.inj hnext
      cases blocks with
      | nil => cases hscopes.tail
      | cons id blocks => exact ⟨⟨hscopes.tail, hcount⟩, .refl _⟩
  | member name span =>
    obtain rfl := Option.some.inj hnext
    exact ⟨⟨h.scopes, h.count⟩, .refl _⟩

/-- The element that a reference leads to is bound to what its name means, once all is read. -/
theorem Shows.usage (h : a.Shows body env) (e : Event) :
    ∃ added, (a.event body e).children = a.children ++ added ∧
      ∀ t : ScopeTree, (a.event body e).scopes.Extends t →
        (added.filterMap Element.reference?).map t.bindAll.usage? =
          (env.usage? e).toList.map some := by
  cases e with
  | declare name span => exact ⟨[], (List.append_nil _).symm, fun _ _ ↦ rfl⟩
  | openBlock => exact ⟨[], (List.append_nil _).symm, fun _ _ ↦ rfl⟩
  | closeBlock => exact ⟨[], (List.append_nil _).symm, fun _ _ ↦ rfl⟩
  | member name span => exact ⟨[.member name span], rfl, fun _ _ ↦ rfl⟩
  | reference path span kind =>
    refine ⟨_, rfl, fun t ht ↦ ?_⟩
    have hext := (h.addIdent .ref (path.getLastD "") path.length span).2
    have hlookup := h.scopes.lookup_eq (hext.trans ht) (path.getLastD "")
    rw [headD_blocks] at hlookup
    have hident : t.idents[a.scopes.idents.size]? =
        some ⟨.ref, path.getLastD "", path.length, span, a.blocks.headD body, none⟩ := by
      rw [ht.idents _ (by simp [BodyAssembly.event, ScopeTree.addIdent])]
      simp [BodyAssembly.event, ScopeTree.addIdent]
    show [t.bindAll.usage? ⟨kind, path, span, a.scopes.idents.size⟩] =
      [some ⟨path, span, env.pathMeaning? path⟩]
    rw [ScopeTree.usage?, ScopeTree.getElem?_bindAll, hident, Environment.pathMeaning?,
      Environment.meaning?, ← hlookup]
    by_cases hlength : path.length = 1 <;> simp [ScopeTree.bind, hlength]

/-- Reading events as the environment does leads to the last environment, and the elements found are
bound to what the environment says. -/
theorem Shows.read (h : a.Shows body env) (hread : env.read events = some (usages, last)) :
    (events.foldl (BodyAssembly.event body) a).Shows body last ∧
      a.scopes.Extends (events.foldl (BodyAssembly.event body) a).scopes ∧
      ∃ added, (events.foldl (BodyAssembly.event body) a).children = a.children ++ added ∧
        ∀ t : ScopeTree, (events.foldl (BodyAssembly.event body) a).scopes.Extends t →
          (added.filterMap Element.reference?).map t.bindAll.usage? = usages.map some := by
  induction events generalizing a env usages with
  | nil =>
    obtain ⟨rfl, rfl⟩ := Prod.mk.inj (Option.some.inj hread)
    exact ⟨h, .refl _, [], (List.append_nil _).symm, fun _ _ ↦ rfl⟩
  | cons e events ih =>
    simp only [Environment.read, Option.bind_eq_bind, Option.bind_eq_some_iff, Option.pure_def,
      Option.some.injEq, Prod.mk.injEq] at hread
    obtain ⟨next, hnext, ⟨usages', last'⟩, hrest, rfl, rfl⟩ := hread
    obtain ⟨hshows, hext⟩ := h.event hnext
    obtain ⟨first, hfirst, husage⟩ := h.usage e
    obtain ⟨hlast, hext', rest, hrest, husages⟩ := ih hshows hrest
    refine ⟨hlast, hext.trans hext', first ++ rest, ?_, fun t ht ↦ ?_⟩
    · rw [List.foldl_cons, hrest, hfirst, List.append_assoc]
    · rw [List.filterMap_append, List.map_append, List.map_append, husage t (hext'.trans ht),
        husages t ht]

/-- Every event that makes an identifier makes the next one. -/
theorem sites_foldl (body : ScopeId) (events : List Event) (a : BodyAssembly) :
    (events.foldl (event body) a).scopes.idents.toList.map Ident.site =
      a.scopes.idents.toList.map Ident.site ++ events.filterMap Event.site? := by
  induction events generalizing a with
  | nil => exact (List.append_nil _).symm
  | cons e events ih =>
    rw [List.foldl_cons, ih]
    cases e with
    | declare name span => simp [event, ScopeTree.addIdent, Event.site?, Ident.site]
    | reference path span kind => simp [event, ScopeTree.addIdent, Event.site?, Ident.site]
    | _ => rfl

/-- As many blocks are open as around the innermost block of the environment. -/
theorem length_blocks_foldl (body : ScopeId) (hread : env.read events = some (usages, last))
    (hlength : a.blocks.length = env.outer.length) :
    (events.foldl (event body) a).blocks.length = last.outer.length := by
  induction events generalizing a env usages with
  | nil =>
    obtain ⟨-, rfl⟩ := Prod.mk.inj (Option.some.inj hread)
    exact hlength
  | cons e events ih =>
    simp only [Environment.read, Option.bind_eq_bind, Option.bind_eq_some_iff, Option.pure_def,
      Option.some.injEq, Prod.mk.injEq] at hread
    obtain ⟨next, hnext, ⟨usages', last'⟩, hrest, -, rfl⟩ := hread
    refine ih hrest ?_
    cases e with
    | openBlock =>
      obtain rfl := Option.some.inj hnext
      simp [event, hlength]
    | closeBlock =>
      cases houter : env.outer with
      | nil => simp [Environment.event, houter] at hnext
      | cons block outer =>
        simp only [Environment.event, houter, Option.some.injEq] at hnext
        rw [houter, List.length_cons] at hlength
        simp [event, hlength, ← hnext]
    | _ =>
      obtain rfl := Option.some.inj hnext
      exact hlength

/-- What is balanced closes only blocks that it has opened, and all of them. -/
theorem blocks_of_balanced (h : Event.Balanced events) (scopes : ScopeTree) :
    (ofEvents scopes events).blocks = [] ∧
      ∀ front back, events = front ++ .closeBlock :: back →
        (front.foldl (event scopes.scopes.size)
          ⟨scopes.pushScope ScopeTree.root .body, [], []⟩).blocks ≠ [] := by
  obtain ⟨usages, last, hread, houter⟩ := Environment.exists_read h ⟨[], [], [], 0⟩
  constructor
  · have hlength := length_blocks_foldl scopes.scopes.size hread
      (a := ⟨scopes.pushScope ScopeTree.root .body, [], []⟩) rfl
    rw [houter] at hlength
    exact List.eq_nil_of_length_eq_zero hlength
  · rintro front back rfl hnil
    rw [Environment.read_append, Option.bind_eq_bind, Option.bind_eq_some_iff] at hread
    obtain ⟨⟨usages', next⟩, hfront, hrest⟩ := hread
    have hlength := length_blocks_foldl scopes.scopes.size hfront
      (a := ⟨scopes.pushScope ScopeTree.root .body, [], []⟩) rfl
    rw [hnil] at hlength
    have houter := List.eq_nil_of_length_eq_zero hlength.symm
    simp [Environment.read, Environment.event, houter] at hrest

end BodyAssembly

/-! ### Reading a module -/

namespace Environment

variable {globals : List (String × IdentId)} {count : IdentId}

/-- Declarations with balanced events can be read. -/
theorem exists_readAll (globals : List (String × IdentId)) (count : IdentId)
    {decls : List (List Event)} (h : ∀ events ∈ decls, Event.Balanced events) :
    ∃ usages, readAll globals count decls = some usages := by
  induction decls generalizing count with
  | nil => exact ⟨[], rfl⟩
  | cons events decls ih =>
    obtain ⟨hevents, hdecls⟩ := List.forall_mem_cons.1 h
    obtain ⟨usages, last, hread, houter⟩ := exists_read hevents ⟨globals, [], [], count⟩
    obtain ⟨rest, hrest⟩ := ih last.count hdecls
    refine ⟨usages :: rest, ?_⟩
    rw [readAll, hread, Option.bind_eq_bind, Option.bind_some]
    dsimp only
    rw [if_pos houter, hrest]
    rfl

theorem exists_of_readAll_cons {events : List Event} {decls : List (List Event)}
    {all : List (List Usage)} (h : readAll globals count (events :: decls) = some all) :
    ∃ usages last rest, (⟨globals, [], [], count⟩ : Environment).read events = some (usages, last) ∧
      last.outer = [] ∧ readAll globals last.count decls = some rest ∧ all = usages :: rest := by
  rw [readAll, Option.bind_eq_bind, Option.bind_eq_some_iff] at h
  obtain ⟨⟨usages, last⟩, hread, h⟩ := h
  dsimp only at h
  split_ifs at h with houter
  rw [Option.bind_eq_bind, Option.bind_eq_some_iff] at h
  obtain ⟨rest, hrest, h⟩ := h
  exact ⟨usages, last, rest, hread, houter, hrest, (Option.some.inj h).symm⟩

end Environment

namespace Assembly

variable {a : Assembly} {exportsAll : Bool} {globals : List (String × IdentId)} {count : IdentId}

/-- Reading a declaration makes a scope below that of the module, and shows what an environment of
its own does. -/
theorem shows_decl (h : a.scopes.Shows globals [] []) (hcount : a.scopes.idents.size = count)
    (d : DeclItem) {usages : List Usage} {last : Environment}
    (hread : (⟨globals, [], [], count⟩ : Environment).read d.events = some (usages, last)) :
    (a.decl exportsAll d).scopes.Shows globals [] [] ∧
      (a.decl exportsAll d).scopes.idents.size = last.count ∧
      a.scopes.Extends (a.decl exportsAll d).scopes ∧
      ∀ t : ScopeTree, (a.decl exportsAll d).scopes.Extends t →
        ((BodyAssembly.ofEvents a.scopes d.events).children.filterMap Element.reference?).map
          t.bindAll.usage? = usages.map some := by
  have hkind : ScopeKind.body ≠ .module := nofun
  have hstart : BodyAssembly.Shows a.scopes.scopes.size
      ⟨a.scopes.pushScope ScopeTree.root .body, [], []⟩ ⟨globals, [], [], count⟩ :=
    ⟨h.pushScope hkind, hcount⟩
  obtain ⟨hlast, hext, added, hadded, husages⟩ := hstart.read hread
  have hroot := hlast.scopes.toRoot
  rw [Environment.globals_of_read hread] at hroot
  refine ⟨hroot, hlast.count, (ScopeTree.extends_pushScope h.headD_lt .body).trans hext,
    fun t ht ↦ ?_⟩
  rw [← husages t ht]
  exact congrArg (fun es ↦ (es.filterMap Element.reference?).map t.bindAll.usage?) hadded

/-- Reading a declaration adds it and the elements inside, among which there is no declaration. -/
theorem filterMap_decl?_decl (a : Assembly) (exportsAll : Bool) (d : DeclItem) :
    ∃ new decl, (a.decl exportsAll d).elements = a.elements ++ new ∧
      new.filterMap Element.decl? = [decl] ∧ decl.site = (a.declCount, d.name.text, d.name.span) ∧
      ∀ added, decl.childrenIn ((a.decl exportsAll d).elements ++ added) =
        (BodyAssembly.ofEvents a.scopes d.events).children := by
  obtain ⟨word, decl, helements, hword, hsite, hchildren⟩ : ∃ word decl,
      (a.decl exportsAll d).elements = a.elements ++
        (word ++ .decl decl :: (BodyAssembly.ofEvents a.scopes d.events).children) ∧
      word.filterMap Element.decl? = [] ∧
      decl.site = (a.declCount, d.name.text, d.name.span) ∧
      ∀ added, decl.childrenIn ((a.decl exportsAll d).elements ++ added) =
        (BodyAssembly.ofEvents a.scopes d.events).children :=
    ⟨_, _, rfl, by cases d.exportSpan <;> rfl, rfl, fun added ↦ take_drop_inside _ _ _ _ _⟩
  refine ⟨_, decl, helements, ?_, hsite, hchildren⟩
  have hinside :
      (BodyAssembly.ofEvents a.scopes d.events).children.filterMap Element.decl? = [] := by
    refine List.filterMap_eq_nil_iff.2 fun e he ↦ ?_
    cases e with
    | decl d' => exact absurd he (BodyAssembly.decl_not_mem_children a.scopes d.events d')
    | _ => rfl
  rw [List.filterMap_append, hword, List.nil_append, List.filterMap_cons]
  dsimp only [Element.decl?]
  rw [hinside]

/-- An item that declares nothing adds no declaration. -/
theorem item_of_decl?_eq_none {i : Item} (h : i.decl? = none) :
    (a.item exportsAll i).scopes = a.scopes ∧ (a.item exportsAll i).declCount = a.declCount ∧
      ∃ new, (a.item exportsAll i).elements = a.elements ++ new ∧
        new.filterMap Element.decl? = [] := by
  cases i with
  | decl d => cases h
  | stray token => exact ⟨rfl, rfl, [], (List.append_nil _).symm, rfl⟩
  | _ => exact ⟨rfl, rfl, _, rfl, rfl⟩

/-- Along all items, declarations show what environments do that know the declarations at module
level. -/
theorem usages_foldl (exportsAll : Bool) {items : List Item} (h : a.scopes.Shows globals [] [])
    (hcount : a.scopes.idents.size = count) {all : List (List Usage)}
    (hread : Environment.readAll globals count
      ((items.filterMap Item.decl?).map DeclItem.events) = some all) :
    a.scopes.Extends (items.foldl (item exportsAll) a).scopes ∧
      ∃ added, (items.foldl (item exportsAll) a).elements = a.elements ++ added ∧
        (added.filterMap Element.decl?).map (fun d ↦
            (d.referencesIn (items.foldl (item exportsAll) a).elements).map
              (items.foldl (item exportsAll) a).scopes.bindAll.usage?) =
          all.map (List.map some) := by
  induction items generalizing a count all with
  | nil =>
    obtain rfl := Option.some.inj hread
    exact ⟨.refl _, [], (List.append_nil _).symm, rfl⟩
  | cons i items ih =>
    rw [List.foldl_cons]
    -- only declarations read events
    cases hdecl : i.decl? with
    | none =>
      rw [List.filterMap_cons, hdecl] at hread
      obtain ⟨hscopes, -, new, hnew, hnone⟩ := item_of_decl?_eq_none hdecl
      obtain ⟨hext, added, hadded, hall⟩ := ih (hscopes ▸ h) (hscopes ▸ hcount) hread
      refine ⟨hscopes ▸ hext, new ++ added, by rw [hadded, hnew, List.append_assoc], ?_⟩
      rw [List.filterMap_append, hnone]
      exact hall
    | some d =>
      obtain rfl := Item.eq_of_decl? hdecl
      rw [List.filterMap_cons, hdecl] at hread
      obtain ⟨usages, last, rest, hfirst, -, hrest, rfl⟩ := Environment.exists_of_readAll_cons hread
      obtain ⟨hroot, hsize, hext, husages⟩ := shows_decl h hcount d hfirst
      obtain ⟨hext', added, hadded, hall⟩ := ih hroot hsize hrest
      obtain ⟨new, decl, hnew, hdecls, -, hchildren⟩ := filterMap_decl?_decl a exportsAll d
      rw [Assembly.item]
      refine ⟨hext.trans hext', new ++ added, by rw [hadded, hnew, List.append_assoc], ?_⟩
      rw [List.filterMap_append, hdecls, List.map_append, hall, List.map_singleton, List.map_cons,
        ← husages _ hext', Decl.referencesIn, hadded, hchildren]
      rfl

/-- The identifiers are made in the order of the events. -/
theorem sites_foldl (exportsAll : Bool) (items : List Item) (a : Assembly) :
    (items.foldl (item exportsAll) a).scopes.idents.toList.map Ident.site =
      a.scopes.idents.toList.map Ident.site ++
        (items.filterMap Item.decl?).flatMap fun d ↦ d.events.filterMap Event.site? := by
  induction items generalizing a with
  | nil => exact (List.append_nil _).symm
  | cons i items ih =>
    rw [List.foldl_cons, ih]
    cases i with
    | decl d =>
      have hdecl : (a.decl exportsAll d).scopes.idents.toList.map Ident.site =
          a.scopes.idents.toList.map Ident.site ++ d.events.filterMap Event.site? :=
        BodyAssembly.sites_foldl a.scopes.scopes.size d.events _
      rw [Assembly.item, hdecl, List.append_assoc]
      rfl
    | _ => rfl

/-- Declarations are numbered in their order. -/
theorem sites_decls_foldl (exportsAll : Bool) (items : List Item) (a : Assembly) :
    ((items.foldl (item exportsAll) a).elements.filterMap Element.decl?).map Decl.site =
      (a.elements.filterMap Element.decl?).map Decl.site ++
        ((items.filterMap Item.decl?).zipIdx a.declCount).map fun d ↦
          (d.2, d.1.name.text, d.1.name.span) := by
  induction items generalizing a with
  | nil => exact (List.append_nil _).symm
  | cons i items ih =>
    rw [List.foldl_cons, ih, List.filterMap_cons]
    cases hdecl : i.decl? with
    | none =>
      obtain ⟨-, hcount, new, hnew, hnone⟩ := item_of_decl?_eq_none hdecl
      rw [hcount, hnew, List.filterMap_append, hnone, List.append_nil]
    | some d =>
      obtain rfl := Item.eq_of_decl? hdecl
      obtain ⟨new, decl, hnew, hdecls, hsite, -⟩ := filterMap_decl?_decl a exportsAll d
      rw [Assembly.item, hnew, List.filterMap_append, hdecls, List.map_append, List.map_singleton,
        hsite, List.append_assoc]
      rfl

/-- The scope of the module shows the declarations at module level. -/
theorem shows_globalScope (items : List Item) :
    (globalScope items).Shows (Environment.globalsOf (declNames items)) [] [] ∧
      (globalScope items).idents.toList.map Ident.site =
        (items.filterMap Item.decl?).map fun d ↦ (.decl, d.name.text, d.name.span) := by
  rw [globalScope, declNames]
  generalize items.filterMap Item.decl? = decls
  induction decls using List.reverseRecOn with
  | nil => exact ⟨.root rfl rfl rfl (List.forall_mem_nil _) rfl, rfl⟩
  | append_singleton decls d ih =>
    obtain ⟨hshows, hsites⟩ := ih
    rw [List.foldl_append, List.foldl_cons, List.foldl_nil, List.map_append, List.map_singleton]
    have hsize := congrArg List.length hsites
    simp only [List.length_map, Array.length_toList] at hsize
    constructor
    · have h := hshows.addIdent_root d.name.text 1 d.name.span
      rw [hsize] at h
      simpa [Environment.globalsOf, List.zipIdx_append] using h
    · simpa [ScopeTree.addIdent, Ident.site] using hsites

end Assembly

/-! ### Modules -/

theorem ScopeTree.sites_bindAll (t : ScopeTree) :
    t.bindAll.idents.toList.map Ident.site = t.idents.toList.map Ident.site := by
  refine List.ext_getElem? fun i ↦ ?_
  rw [List.getElem?_map, List.getElem?_map, Array.getElem?_toList, Array.getElem?_toList,
    ScopeTree.getElem?_bindAll]
  cases t.idents[i]? with
  | none => rfl
  | some ident =>
    rw [Option.map_some, Option.map_some, Option.map_some, ScopeTree.bind_eq]
    rfl

namespace Module

/-- The references of a module mean what they do lexically, where `decls` are its declarations as
they have been read. -/
structure Lexical (m : Module) (decls : List DeclItem) : Prop where
  /-- The declarations at module level have the first numbers. -/
  named : (m.elements.filterMap Element.decl?).map Decl.site =
    decls.zipIdx.map fun d ↦ (d.2, d.1.name.text, d.1.name.span)
  /-- The names declared and used inside them have the numbers behind, in their order. -/
  numbered : m.scopes.idents.toList.map Ident.site =
    decls.map (fun d ↦ (.decl, d.name.text, d.name.span)) ++
      decls.flatMap fun d ↦ d.events.filterMap Event.site?
  balanced : ∀ d ∈ decls, Event.Balanced d.events
  /-- At the end of a declaration no block is open, and no block is closed where none is open. -/
  closed : ∀ d ∈ decls, ∀ scopes, (BodyAssembly.ofEvents scopes d.events).blocks = [] ∧
    ∀ front back, d.events = front ++ .closeBlock :: back →
      (front.foldl (BodyAssembly.event scopes.scopes.size)
        ⟨scopes.pushScope ScopeTree.root .body, [], []⟩).blocks ≠ []
  /-- References are bound to what an environment says. -/
  bound : ∃ usages,
    Environment.readAll (Environment.globalsOf (decls.map fun d ↦ d.name.text)) decls.length
      (decls.map DeclItem.events) = some usages ∧
    (m.elements.filterMap Element.decl?).map (fun d ↦ (m.references d).map m.scopes.usage?) =
      usages.map (List.map some)

variable {options : ParseOptions} {file : String} {source : Text} {m : Module}

/-- Binding is lexical scoping in every parsed module. -/
theorem lexical_of_parse (h : parse options file source = .ok m) :
    ∃ items c' e, Parser.items.run options.maxSteps m.text = (.accepted items c', e) ∧
      m.Lexical (items.filterMap Item.decl?) := by
  obtain ⟨items, c', e, hrun, rfl⟩ := exists_items h
  have hbalanced := Parser.balanced_of_items hrun
  refine ⟨items, c', e, hrun, ?_⟩
  obtain ⟨hshows, hsites⟩ := Assembly.shows_globalScope items
  have hsize := congrArg List.length hsites
  rw [List.length_map, List.length_map, Array.length_toList] at hsize
  have hevents : ∀ events ∈ (items.filterMap Item.decl?).map DeclItem.events,
      Event.Balanced events := List.forall_mem_map.2 hbalanced
  -- blocks that are balanced can be read by stacking environments
  obtain ⟨usages, husages⟩ := Environment.exists_readAll
    (Environment.globalsOf (Assembly.declNames items)) (items.filterMap Item.decl?).length hevents
  obtain ⟨-, added, hadded, hbound⟩ := Assembly.usages_foldl (!items.any Item.marksExport)
    (a := ⟨none, [], Assembly.globalScope items, Assembly.strayProblems items, none, 0⟩)
    hshows hsize husages
  refine ⟨Assembly.sites_decls_foldl _ items _, ?_, hbalanced, fun d hd scopes ↦
    BodyAssembly.blocks_of_balanced (hbalanced d hd) scopes, usages, husages, ?_⟩
  · refine (ScopeTree.sites_bindAll _).trans ?_
    rw [Assembly.sites_foldl, hsites]
  · rw [List.nil_append] at hadded
    rw [← hadded] at hbound
    exact hbound

/-- Here a constant, a parameter and a variable of an inner block share a name. -/
theorem lexical_shadowed :
    ∃ m ∈ (parse .default "main"
        ("const a = 1; fn f(a: i32) \x7b \x7b let a = a; g::a(a); \x7d g(a); \x7d " ++
          "fn g() \x7b \x7d").toList).toOption,
      (m.elements.filterMap Element.decl?).map (fun d ↦
          (m.references d).filterMap fun r ↦ (m.scopes.usage? r).map Usage.meaning) =
        [[], [none, some 3, none, some 6, some 2, some 3], []] ∧
      ∃ items c' e, Parser.items.run ParseOptions.default.maxSteps m.text =
          (.accepted items c', e) ∧ m.Lexical (items.filterMap Item.decl?) := by
  have heval : (parse .default "main"
        ("const a = 1; fn f(a: i32) \x7b \x7b let a = a; g::a(a); \x7d g(a); \x7d " ++
          "fn g() \x7b \x7d").toList).toOption.map (fun m ↦
            (m.elements.filterMap Element.decl?).map fun d ↦
              (m.references d).filterMap fun r ↦ (m.scopes.usage? r).map Usage.meaning) =
      some [[], [none, some 3, none, some 6, some 2, some 3], []] := by
    decide +kernel
  obtain ⟨m, hm, hmeanings⟩ := Option.map_eq_some_iff.1 heval
  exact ⟨m, hm, hmeanings, lexical_of_parse (Except.eq_ok_of_toOption hm)⟩

end Module

end ShaderLink
