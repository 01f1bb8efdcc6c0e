import ShaderLink.Proofs.Link.Meaning
import ShaderLink.Proofs.Module.DeclTokens
import ShaderLink.Proofs.Module.Visible

/-!
# Names in a signature

The parameters of a function are declared in the scope in which its signature and its body are read,
each as soon as its name is. So the body sees all of them, but so do the types and attributes of the
parameters behind one, its own type included, and the result. There a name means the parameter and
not what the module declares, also where a type must be meant.
-/

namespace ShaderLink

/-! ### Reading one declaration -/

namespace Assembly

variable {a : Assembly} {globals : List (String × IdentId)} {d : Decl}

/-- Reading an item goes on showing what is declared at module level. -/
theorem shows_item (exportsAll : Bool) (h : a.scopes.Shows globals [] []) {i : Item}
    (hbalanced : ∀ d ∈ i.decl?, Event.Balanced d.events) :
    (a.item exportsAll i).scopes.Shows globals [] [] ∧
      a.scopes.Extends (a.item exportsAll i).scopes := by
  cases hdecl : i.decl? with
  | none =>
    rw [(item_of_decl?_eq_none hdecl).1]
    exact ⟨h, .refl _⟩
  | some d =>
    obtain rfl := Item.eq_of_decl? hdecl
    obtain ⟨usages, last, hread, -⟩ := Environment.exists_read (hbalanced d hdecl)
      ⟨globals, [], [], a.scopes.idents.size⟩
    obtain ⟨hshows, -, hext, -⟩ := shows_decl h rfl d hread
    exact ⟨hshows, hext⟩

theorem shows_foldl (exportsAll : Bool) (h : a.scopes.Shows globals [] []) {items : List Item}
    (hbalanced : ∀ i ∈ items, ∀ d ∈ i.decl?, Event.Balanced d.events) :
    (items.foldl (item exportsAll) a).scopes.Shows globals [] [] ∧
      a.scopes.Extends (items.foldl (item exportsAll) a).scopes := by
  induction items generalizing a with
  | nil => exact ⟨h, .refl _⟩
  | cons i items ih =>
    obtain ⟨hi, hitems⟩ := List.forall_mem_cons.1 hbalanced
    obtain ⟨hshows, hext⟩ := shows_item exportsAll h hi
    obtain ⟨hall, hext'⟩ := ih hshows hitems
    exact ⟨hall, hext.trans hext'⟩

/-- A declaration has been read of an item, with an environment of its own that numbers identifiers
from some place on. -/
theorem exists_read_of_foldl {exportsAll : Bool} (h : a.scopes.Shows globals [] [])
    {items : List Item} (hbalanced : ∀ i ∈ items, ∀ d ∈ i.decl?, Event.Balanced d.events)
    (hd : .decl d ∈ (items.foldl (item exportsAll) a).elements) (hnew : .decl d ∉ a.elements) :
    ∃ i count usages last, .decl i ∈ items ∧ d.Of (items.foldl (item exportsAll) a).elements i ∧
      a.scopes.idents.size ≤ count ∧
      (⟨globals, [], [], count⟩ : Environment).read i.events = some (usages, last) ∧
      i.events.filterMap Event.site? <+:
        ((items.foldl (item exportsAll) a).scopes.idents.toList.map Ident.site).drop count ∧
      (d.referencesIn (items.foldl (item exportsAll) a).elements).map
        (items.foldl (item exportsAll) a).scopes.bindAll.usage? = usages.map some := by
  obtain ⟨front, i, back, rfl, hadded, hbefore⟩ := exists_split_of_foldl hd hnew
  obtain ⟨hfront, hbehind⟩ := List.forall_mem_append.1 hbalanced
  obtain ⟨hi, hback⟩ := List.forall_mem_cons.1 hbehind
  rw [List.foldl_append, List.foldl_cons, Assembly.item]
  obtain ⟨hshows, hext⟩ := shows_foldl exportsAll h hfront
  generalize front.foldl (item exportsAll) a = b at *
  obtain ⟨usages, last, hread, -⟩ := Environment.exists_read (hi i rfl)
    ⟨globals, [], [], b.scopes.idents.size⟩
  obtain ⟨hroot, -, -, husages⟩ := shows_decl hshows rfl i hread
  obtain ⟨-, hext'⟩ := shows_foldl exportsAll hroot hback
  obtain ⟨added, helements⟩ := elements_foldl exportsAll back (b.decl exportsAll i)
  refine ⟨i, b.scopes.idents.size, usages, last, List.mem_append_right _ List.mem_cons_self, ?_,
    hext.size, hread, ?_, ?_⟩
  · rw [helements]
    exact of_decl hadded hbefore added
  · -- identifiers are numbered in the order of the events that make them
    have hsites : (b.decl exportsAll i).scopes.idents.toList.map Ident.site =
        b.scopes.idents.toList.map Ident.site ++ i.events.filterMap Event.site? :=
      BodyAssembly.sites_foldl b.scopes.scopes.size i.events _
    rw [sites_foldl, hsites, List.append_assoc, List.drop_left' (by simp)]
    exact List.prefix_append _ _
  · obtain ⟨new, decl, hnew, hdecls, -, hchildren⟩ := filterMap_decl?_decl b exportsAll i
    rw [hnew] at hadded
    have hd : d = decl := List.mem_singleton.1
      (hdecls ▸ Element.mem_filterMap_decl?_iff.2 ((List.mem_append.1 hadded).resolve_left hbefore))
    rw [← husages _ hext', Decl.referencesIn, hd, helements, hchildren]

end Assembly

namespace Module

variable {options : ParseOptions} {file : String} {source : Text} {m : Module} {d : Decl}

/-- What is declared at module level, the last first. -/
def globals (m : Module) : List (String × IdentId) :=
  ((m.elements.filterMap Element.decl?).map fun d ↦ (d.name, d.ident)).reverse

/-- The declarations at module level have the first numbers. -/
theorem globals_ofItems {processed : Conditional.Processed} {items : List Item}
    (hm : m = ofItems file source processed items) :
    m.globals = Environment.globalsOf (Assembly.declNames items) ∧
      ∀ d, .decl d ∈ m.elements → d.ident < (items.filterMap Item.decl?).length := by
  have hsites : (m.elements.filterMap Element.decl?).map Decl.site =
      (items.filterMap Item.decl?).zipIdx.map fun d ↦ (d.2, d.1.name.text, d.1.name.span) := by
    rw [hm]
    exact Assembly.sites_decls_foldl _ items _
  constructor
  · have hnames := congrArg (List.map fun site ↦ (site.2.1, site.1)) hsites
    rw [List.map_map, List.map_map] at hnames
    rw [globals, Environment.globalsOf, Assembly.declNames, List.zipIdx_map]
    exact congrArg List.reverse hnames
  · intro d hd
    have hmem := List.mem_map_of_mem (f := Decl.site) (Element.mem_filterMap_decl?_iff.2 hd)
    rw [hsites] at hmem
    obtain ⟨⟨i, k⟩, hi, hsite⟩ := List.mem_map.1 hmem
    have hk := (List.mem_zipIdx hi).2.1
    have hident : k = d.ident := congrArg Prod.fst hsite
    omega

/-- A declaration has been read of its tokens, with an environment of its own that knows what is
declared at module level and numbers what is declared inside behind it. -/
theorem exists_environment (h : parse options file source = .ok m) (hd : .decl d ∈ m.elements) :
    ∃ name roles events base usages last, d.ReadAs m name roles events ∧ Event.Balanced events ∧
      (∀ d, .decl d ∈ m.elements → d.ident < base) ∧
      (⟨m.globals, [], [], base⟩ : Environment).read events = some (usages, last) ∧
      events.filterMap Event.site? <+: (m.scopes.idents.toList.map Ident.site).drop base ∧
      (m.references d).map m.scopes.usage? = usages.map some := by
  obtain ⟨items, c', e, hrun, rfl⟩ := exists_items h
  have hbalanced := Parser.balanced_of_items hrun
  obtain ⟨hshows, hsites⟩ := Assembly.shows_globalScope items
  obtain ⟨hglobals, hidents⟩ := globals_ofItems rfl
  obtain ⟨i, base, usages, last, hi, hof, hbase, hread, hprefix, husages⟩ :=
    Assembly.exists_read_of_foldl hshows
      (fun i hi d hd ↦ hbalanced d (List.mem_filterMap.2 ⟨i, hi, hd⟩)) hd List.not_mem_nil
  rw [← ScopeTree.sites_bindAll] at hprefix
  have hsize := congrArg List.length hsites
  rw [List.length_map, List.length_map, Array.length_toList] at hsize
  obtain ⟨roles, hreadAs⟩ := readAs_of_items hrun rfl hi hof
  exact ⟨i.name, roles, i.events, base, usages, last, hreadAs,
    hbalanced i (List.mem_filterMap.2 ⟨_, hi, rfl⟩),
    fun d hd ↦ (hidents d hd).trans_le (hsize ▸ hbase), hglobals ▸ hread, hprefix, husages⟩

/-! ### What references mean -/

/-- What a reference means if nothing is declared but at module level. -/
def globalMeaning? (m : Module) (r : Reference) : Option IdentId :=
  match r.path with
  | [name] => m.globals.lookup name
  | _ => none

/-- The reference is bound to what is declared at the span, and not at module level. -/
def BoundInside (m : Module) (r : Reference) (span : Span) : Prop :=
  ∃ id ident, m.binding? r = some id ∧ m.scopes.idents[id]? = some ident ∧ ident.kind = .decl ∧
    ident.span = span ∧ ∀ d, .decl d ∈ m.elements → d.ident ≠ id

/-- The reference is bound by what is declared in front of it in its declaration, which are these
events. -/
structure BoundBehind (m : Module) (r : Reference) (before : List Event) : Prop where
  /-- It means what it does at module level unless its name can be seen. -/
  outside : m.binding? r = m.globalMeaning? r ↔
    ∀ name span, r.path = [name] → (name, span) ∉ Event.visible before
  /-- If its name can be seen, it means the last declaration that can. -/
  inside : ∀ span, m.BoundInside r span ↔
    ∃ name, r.path = [name] ∧ (Event.visible before).lookup name = some span

theorem exists_of_lookup_globals {name : String} {id : IdentId}
    (h : m.globals.lookup name = some id) : ∃ d, .decl d ∈ m.elements ∧ d.ident = id := by
  obtain ⟨front, back, hsplit, -⟩ := List.lookup_eq_some_iff.1 h
  have hmem : (name, id) ∈ m.globals := hsplit ▸ List.mem_append_right _ List.mem_cons_self
  obtain ⟨d, hd, heq⟩ := List.mem_map.1 (List.mem_reverse.1 hmem)
  exact ⟨d, Element.mem_filterMap_decl?_iff.1 hd, congrArg Prod.snd heq⟩

theorem globalMeaning?_of_path {r : Reference} {name : String} (h : r.path = [name]) :
    m.globalMeaning? r = m.globals.lookup name := by
  rw [globalMeaning?, h]

theorem globalMeaning?_of_length {r : Reference} (h : r.path.length ≠ 1) :
    m.globalMeaning? r = none := by
  rw [globalMeaning?]
  split
  · rename_i hpath
    exact absurd (congrArg List.length hpath) h
  · rfl

/-- What a reference means if its name cannot be seen is declared at module level. -/
theorem exists_of_globalMeaning? {r : Reference} {id : IdentId}
    (h : m.globalMeaning? r = some id) : ∃ d, .decl d ∈ m.elements ∧ d.ident = id := by
  rw [globalMeaning?] at h
  split at h
  · exact exists_of_lookup_globals h
  · cases h

/-- A reference in a declaration means what it does at module level, and its name cannot be seen in
front of it, or it means what is declared at the span that its name can be seen with. -/
theorem exists_meaning {base : IdentId} {events : List Event} {usages : List Usage}
    {last : Environment}
    (hread : (⟨m.globals, [], [], base⟩ : Environment).read events = some (usages, last))
    (hsites : events.filterMap Event.site? <+: (m.scopes.idents.toList.map Ident.site).drop base)
    {r : Reference} (husage : m.scopes.usage? r ∈ usages.map some) :
    ∃ before kind after, events = before ++ .reference r.path r.span kind :: after ∧
      ((m.binding? r = m.globalMeaning? r ∧
          ∀ name, r.path = [name] → (Event.visible before).lookup name = none) ∨
        ∃ name id span ident, r.path = [name] ∧ (Event.visible before).lookup name = some span ∧
          m.binding? r = some id ∧ m.scopes.idents[id]? = some ident ∧ ident.kind = .decl ∧
          ident.span = span ∧ base ≤ id) := by
  obtain ⟨u, hu, heq⟩ := List.mem_map.1 husage
  obtain ⟨ident, hident, rfl⟩ := Option.map_eq_some_iff.1 heq.symm
  obtain ⟨before, kind, after, usages', next, rfl, hbefore, hmeaning⟩ :=
    Environment.exists_of_mem_usages hread hu
  refine ⟨before, kind, after, rfl, ?_⟩
  have hbinding : m.binding? r = next.pathMeaning? r.path := by
    rw [binding?, hident]
    exact hmeaning
  have hagrees : next.Agrees (m.scopes.idents.toList.map Ident.site) base
      (before.foldl Event.enter [[]]) := by
    rw [List.filterMap_append] at hsites
    exact .read (.cons .nil .nil) le_rfl ((List.prefix_append _ _).trans hsites) hbefore
  rw [hbinding, Environment.pathMeaning?]
  by_cases hlength : r.path.length = 1
  · obtain ⟨name, hpath⟩ := List.length_eq_one_iff.1 hlength
    rw [if_pos hlength, globalMeaning?_of_path hpath, hpath, List.getLastD_cons, List.getLastD_nil]
    rcases hagrees.meaning?_eq name with ⟨hunseen, hglobal⟩ | ⟨id, span, hseen, hid, hsite, hbase⟩
    · refine .inl ⟨?_, fun name' hname ↦ (List.cons.inj hname).1 ▸ hunseen⟩
      exact hglobal.trans (congrArg (List.lookup name) (Environment.globals_of_read hbefore))
    · rw [List.getElem?_map, Array.getElem?_toList] at hsite
      obtain ⟨declared, hdeclared, heq⟩ := Option.map_eq_some_iff.1 hsite
      exact .inr ⟨name, id, span, declared, rfl, hseen, hid, hdeclared, congrArg Prod.fst heq,
        congrArg (fun site ↦ site.2.2) heq, hbase⟩
  · rw [if_neg hlength, globalMeaning?_of_length hlength]
    exact .inl ⟨rfl, fun name hpath ↦ absurd (congrArg List.length hpath) hlength⟩

/-- References are bound by what can be seen in front of them. -/
theorem exists_boundBehind {base : IdentId} {events : List Event} {usages : List Usage}
    {last : Environment} (hidents : ∀ d, .decl d ∈ m.elements → d.ident < base)
    (hread : (⟨m.globals, [], [], base⟩ : Environment).read events = some (usages, last))
    (hsites : events.filterMap Event.site? <+: (m.scopes.idents.toList.map Ident.site).drop base)
    {r : Reference} (husage : m.scopes.usage? r ∈ usages.map some) :
    ∃ before kind after, events = before ++ .reference r.path r.span kind :: after ∧
      m.BoundBehind r before := by
  obtain ⟨before, kind, after, rfl, hmeaning⟩ := exists_meaning hread hsites husage
  refine ⟨before, kind, after, rfl, ?_⟩
  -- either a global is meant and nothing in front hides it, or the last thing declared in front
  rcases hmeaning with ⟨hglobal, hunseen⟩ |
    ⟨name, id, span, ident, hpath, hseen, hid, hident, hkind, hspan, hbase⟩
  · refine ⟨iff_of_true hglobal fun name span hpath hmem ↦ ?_, fun span ↦ iff_of_false ?_ ?_⟩
    · simpa using List.lookup_eq_none_iff.1 (hunseen name hpath) _ hmem
    · rintro ⟨id, ident, hid, -, -, -, hnot⟩
      obtain ⟨d, hd, rfl⟩ := exists_of_globalMeaning? (hglobal.symm.trans hid)
      exact hnot d hd rfl
    · rintro ⟨name, hpath, hseen⟩
      rw [hunseen name hpath] at hseen
      cases hseen
  · have hnot : ∀ d, .decl d ∈ m.elements → d.ident ≠ id := fun d hd ↦
      ((hidents d hd).trans_le hbase).ne
    refine ⟨iff_of_false (fun hglobal ↦ ?_) fun hunseen ↦ ?_, fun span' ↦ ⟨?_, ?_⟩⟩
    · obtain ⟨d, hd, hident⟩ := exists_of_globalMeaning? (hglobal.symm.trans hid)
      exact hnot d hd hident
    · obtain ⟨front, back, hsplit, -⟩ := List.lookup_eq_some_iff.1 hseen
      exact hunseen name span hpath (hsplit ▸ List.mem_append_right _ List.mem_cons_self)
    · rintro ⟨id', ident', hid', hident', -, rfl, -⟩
      obtain rfl := Option.some.inj (hid.symm.trans hid')
      obtain rfl := Option.some.inj (hident.symm.trans hident')
      exact ⟨name, hpath, hspan ▸ hseen⟩
    · rintro ⟨name', hpath', hseen'⟩
      obtain rfl := (List.cons.inj (hpath.symm.trans hpath')).1
      obtain rfl := Option.some.inj (hseen.symm.trans hseen')
      exact ⟨id, ident, hid, hident, hkind, hspan, hnot⟩

/-! ### Functions -/

/-- A function is read of its attributes, its parameters, its result and its body, and leaves these
events of them. -/
inductive IsFunction (m : Module) (d : Decl) (marks params result body : List Event) : Prop
  | mk {ms us vs ws : List Token} {word name paren : Token}
    {marked front found roles : List (Token × Reading.Role)}
    (htokens : m.tokensOf d = ms ++ word :: name :: paren :: (us ++ (vs ++ ws)))
    (hmarks : Reading.Attributes ms marked marks) (hword : word.IsReserved "fn")
    (hname : name.span = d.nameSpan) (hparen : paren.IsSymbol "(")
    (hparams : Reading.Body ")" .params "" [] us front params)
    (hresult : Reading.Body "\x7b" .code "" [] vs found result)
    (hbody : Reading.Body "\x7d" .code "" [] ws roles body)

/-- The references of a function are bound by what can be seen in front of them. Up to the first
block this is all that is declared so far, so in a signature the parameters in front. The body sees
all that can be seen behind the signature. -/
theorem function_bound_behind (h : parse options file source = .ok m) (hd : .decl d ∈ m.elements)
    (hkind : d.kind = .fn) : ∃ marks params result body,
      m.IsFunction d marks params result body ∧
      (∀ front, front <+: marks ++ (params ++ (result ++ body)) → .openBlock ∉ front →
        ∀ name span, (name, span) ∈ Event.visible front ↔ .declare name span ∈ front) ∧
      ∀ r ∈ m.references d, ∃ before kind after,
        marks ++ (params ++ (result ++ body)) = before ++ .reference r.path r.span kind :: after ∧
        m.BoundBehind r before ∧
        (marks ++ (params ++ result) <+: before →
          Event.visible (marks ++ (params ++ result)) <:+ Event.visible before) := by
  obtain ⟨name, roles, events, base, usages, last, hreadAs, hbalanced, hidents, hread, hsites,
    husages⟩ := exists_environment h hd
  have hmarked := hreadAs.marked
  generalize htokens : m.tokensOf d = ts at hmarked
  obtain ⟨hmarks, hdecl⟩ := hmarked
  rw [hkind] at hdecl
  cases hdecl with
  | value hword hvalue => simp [Reading.valueWords] at hvalue
  | template hword hvalue => simp [Reading.valueWords] at hvalue
  | @function word name paren us vs ws _ _ _ params result body hword _ hparen hparams hresult
      hbody =>
    refine ⟨_, params, result, body,
      ⟨htokens, hmarks, hword, hreadAs.span, hparen, hparams, hresult, hbody⟩, ?_, fun r hr ↦ ?_⟩
    · rintro front ⟨back, hsplit⟩
      exact (hsplit ▸ hbalanced).mem_visible_iff
    · -- what binds a reference is visible in the events in front of it
      obtain ⟨before, kind, after, hsplit, hbound⟩ :=
        exists_boundBehind hidents hread hsites (husages ▸ List.mem_map_of_mem hr)
      refine ⟨before, kind, after, hsplit, hbound, ?_⟩
      rintro ⟨front, rfl⟩
      simp only [List.append_assoc] at hsplit
      have hrest :=
        List.append_cancel_left (List.append_cancel_left (List.append_cancel_left hsplit))
      exact (hrest ▸ hbody.balanced .nil).visible_suffix _

/-- Here a type has the name of the parameter that it is the type of. -/
theorem function_bound_behind_parameter : ∃ m d r before,
    parse .default "main" "struct a \x7b x: i32 \x7d fn f(a: a) \x7b \x7d".toList = .ok m ∧
      .decl d ∈ m.elements ∧ d.kind = .fn ∧ r ∈ m.references d ∧ r.path = ["a"] ∧
      m.globalMeaning? r = some 0 ∧ m.BoundInside r ⟨25, 1⟩ ∧ m.BoundBehind r before ∧
      (Event.visible before).lookup "a" = some ⟨25, 1⟩ := by
  have heval : (parse .default "main"
      "struct a \x7b x: i32 \x7d fn f(a: a) \x7b \x7d".toList).toOption.map (fun m ↦
        ((m.elements.filterMap Element.decl?).map fun d ↦ (d, m.references d),
          m.globalMeaning? ⟨.type, ["a"], ⟨28, 1⟩, 4⟩, m.binding? ⟨.type, ["a"], ⟨28, 1⟩, 4⟩,
          m.scopes.idents[3]?)) =
    some ([(⟨.struct, "a", 0, ⟨7, 1⟩, ⟨0, 19⟩, 1, true, [], 1, 2⟩,
        [⟨.type, ["i32"], ⟨14, 3⟩, 2⟩]),
      (⟨.fn, "f", 1, ⟨23, 1⟩, ⟨20, 14⟩, 2, true, [], 4, 1⟩, [⟨.type, ["a"], ⟨28, 1⟩, 4⟩])],
      some 0, some 3, some ⟨.decl, "a", 1, ⟨25, 1⟩, 2, none⟩) := by
    decide +kernel
  obtain ⟨m, hm, heval⟩ := Option.map_eq_some_iff.1 heval
  obtain ⟨hdecls, heval⟩ := Prod.mk.inj heval
  obtain ⟨hglobal, heval⟩ := Prod.mk.inj heval
  obtain ⟨hbinding, hident⟩ := Prod.mk.inj heval
  obtain ⟨d, hdecl, heq⟩ := List.mem_map.1 (hdecls ▸ List.mem_cons_of_mem _ List.mem_cons_self)
  obtain ⟨rfl, hreferences⟩ := Prod.mk.inj heq
  have hm := Except.eq_ok_of_toOption hm
  have hd := Element.mem_filterMap_decl?_iff.1 hdecl
  have hidents : ∀ d, .decl d ∈ m.elements → d.ident ≠ 3 := by
    intro d hd
    have hmem := List.mem_map_of_mem (f := Decl.ident) (Element.mem_filterMap_decl?_iff.2 hd)
    have hall : (m.elements.filterMap Element.decl?).map Decl.ident = [0, 1] := by
      have h := congrArg (List.map fun p ↦ p.1.ident) hdecls
      rwa [List.map_map] at h
    rw [hall] at hmem
    have hne : ∀ id ∈ [0, 1], id ≠ 3 := by decide
    exact hne _ hmem
  obtain ⟨marks, params, result, body, -, -, hall⟩ := function_bound_behind hm hd rfl
  obtain ⟨before, kind, after, -, hbound, -⟩ := hall _ (hreferences ▸ List.mem_cons_self)
  have hinside : m.BoundInside _ ⟨25, 1⟩ := ⟨3, _, hbinding, hident, rfl, rfl, hidents⟩
  obtain ⟨name, hpath, hseen⟩ := (hbound.inside ⟨25, 1⟩).1 hinside
  obtain rfl := (List.cons.inj hpath).1
  exact ⟨m, _, _, before, hm, hd, rfl, hreferences ▸ List.mem_cons_self, rfl, hglobal, hinside,
    hbound, hseen⟩

end Module

end ShaderLink
