import ShaderLink.Scope.Tree

/-!
# What names are bound to

A name is looked up to a declaration of this name. In a tree whose references have been bound all at
once, the binding of a reference is what its name is looked up to (`ScopeTree.Bound`), because
binding does not change what is looked up. A declaration outside the module's scope that can be seen
from anywhere is among the local names of the tree.
-/

namespace ShaderLink

namespace ScopeTree

variable {t : ScopeTree} {name : String} {user found : IdentId} {id : ScopeId} {names : List String}

/-- The identifier declares the name. -/
def Declares (t : ScopeTree) (id : IdentId) (name : String) : Prop :=
  ∃ ident, t.idents[id]? = some ident ∧ ident.kind = .decl ∧ ident.name = name

/-- No reference has been bound. -/
def Unbound (t : ScopeTree) : Prop :=
  ∀ (id : IdentId) ident, t.idents[id]? = some ident → ident.binding = none

/-- Every binding is what the name is looked up to. -/
def Bound (t : ScopeTree) : Prop :=
  ∀ (id : IdentId) ident binding, t.idents[id]? = some ident → ident.binding = some binding →
    t.lookup ident.name id ident.scope = some binding

/-- The first identifiers have the names. -/
def Starts (t : ScopeTree) (names : List String) : Prop :=
  ∀ (id : IdentId) name, names[id]? = some name →
    ∃ ident, t.idents[id]? = some ident ∧ ident.name = name

/-! ### Looking names up -/

/-- A name that is found is declared. -/
theorem declares_of_findIn {scope : Scope} (h : t.findIn scope name user = some found) :
    t.Declares found name := by
  have hfound := List.find?_some h
  rw [Bool.and_eq_true, Option.any_eq_true] at hfound
  obtain ⟨ident, hident, hname⟩ := hfound.2
  simp only [Bool.and_eq_true, beq_iff_eq] at hname
  exact ⟨ident, hident, hname⟩

/-- What a name is looked up to declares it. -/
theorem declares_of_lookup (h : t.lookup name user id = some found) : t.Declares found name := by
  fun_induction t.lookup name user id with
  | case1 => cases h
  | case2 id scope hscope own hown =>
    obtain rfl := Option.some.inj h
    exact declares_of_findIn hown
  | case3 => cases h
  | case4 id scope hscope parent hown hparent hlt ih => exact ih h
  | case5 => cases h

/-- A declaration that is not in the module's scope is a local one. -/
theorem Declares.mem_localNames (h : t.Declares found name) (hlocal : t.isGlobal found = false) :
    name ∈ t.localNames := by
  obtain ⟨ident, hident, hkind, rfl⟩ := h
  rw [isGlobal, hident, Option.any_some] at hlocal
  refine List.mem_map.2 ⟨ident, List.mem_filter.2 ⟨?_, ?_⟩, rfl⟩
  · exact Array.mem_toList_iff.2 (Array.mem_of_getElem? hident)
  · rw [hkind, bne, hlocal]
    rfl

/-! ### Making identifiers -/

theorem starts_empty : empty.Starts [] :=
  fun _ _ h ↦ nomatch h

theorem unbound_empty : empty.Unbound :=
  fun _ _ h ↦ nomatch h

/-- An identifier stays what it is when others are made. -/
theorem getElem?_addIdent {ident : Ident} (h : t.idents[id]? = some ident) (scope : ScopeId)
    (kind : IdentKind) (name : String) (segments : Nat) (span : Span) :
    (t.addIdent scope kind name segments span).idents[id]? = some ident := by
  have hlt := (Array.getElem?_eq_some_iff.1 h).1
  rw [ScopeTree.addIdent, Array.getElem?_push, if_neg (Nat.ne_of_lt hlt), h]

/-- New identifiers leave the names of the first ones as they are. -/
theorem Starts.addIdent (h : t.Starts names) (scope : ScopeId) (kind : IdentKind) (name : String)
    (segments : Nat) (span : Span) : (t.addIdent scope kind name segments span).Starts names := by
  intro id name' hname
  obtain ⟨ident, hident, hname⟩ := h id name' hname
  exact ⟨ident, getElem?_addIdent hident scope kind name segments span, hname⟩

/-- If the first identifiers are all there are, the next one follows them. -/
theorem Starts.addIdent_self (h : t.Starts names) (hsize : t.idents.size = names.length)
    (scope : ScopeId) (kind : IdentKind) (name : String) (segments : Nat) (span : Span) :
    (t.addIdent scope kind name segments span).Starts (names ++ [name]) := by
  intro id name' hname
  by_cases hid : id < names.length
  · rw [List.getElem?_append_left hid] at hname
    exact h.addIdent scope kind name segments span id name' hname
  · rw [List.getElem?_append_right (Nat.le_of_not_lt hid)] at hname
    obtain ⟨hlt, rfl⟩ := List.getElem?_eq_some_iff.1 hname
    have hid' : id = t.idents.size := by
      simp only [List.length_singleton] at hlt
      exact hsize ▸ Nat.le_antisymm (Nat.le_of_sub_eq_zero (Nat.lt_one_iff.1 hlt))
        (Nat.le_of_not_lt hid)
    subst hid'
    exact ⟨_, Array.getElem?_push_size, by simp [hsize]⟩

/-- They are not bound yet. -/
theorem Unbound.addIdent (h : t.Unbound) (scope : ScopeId) (kind : IdentKind) (name : String)
    (segments : Nat) (span : Span) : (t.addIdent scope kind name segments span).Unbound := by
  intro id ident hident
  rw [ScopeTree.addIdent, Array.getElem?_push] at hident
  split at hident
  · rw [← Option.some.inj hident]
  · exact h id ident hident

theorem Starts.pushScope (h : t.Starts names) (parent : ScopeId) (kind : ScopeKind) :
    (t.pushScope parent kind).Starts names :=
  h

theorem Unbound.pushScope (h : t.Unbound) (parent : ScopeId) (kind : ScopeKind) :
    (t.pushScope parent kind).Unbound :=
  h

/-! ### Binding references -/

/-- Binding goes through the identifiers one by one. -/
theorem getElem?_bindAll (t : ScopeTree) (id : IdentId) :
    t.bindAll.idents[id]? = t.idents[id]?.map (t.bind id) :=
  Array.getElem?_mapIdx

/-- Binding changes the binding only. -/
theorem bind_eq (t : ScopeTree) (id : IdentId) (ident : Ident) :
    t.bind id ident = { ident with binding := (t.bind id ident).binding } := by
  rw [bind]
  split <;> rfl

theorem Starts.bindAll (h : t.Starts names) : t.bindAll.Starts names := by
  intro id name hname
  obtain ⟨ident, hident, rfl⟩ := h id name hname
  refine ⟨t.bind id ident, by rw [getElem?_bindAll, hident]; rfl, ?_⟩
  rw [bind_eq]

/-- It does not change what is found. -/
theorem findIn_bindAll (t : ScopeTree) (scope : Scope) (name : String) (user : IdentId) :
    t.bindAll.findIn scope name user = t.findIn scope name user := by
  rw [findIn, findIn]
  congr 1
  funext id
  rw [getElem?_bindAll, Option.any_map]
  congr 2
  funext ident
  rw [bind_eq]

/-- Trees of the same scopes that find the same in each of them go the same way outwards. -/
theorem lookup_congr {t t' : ScopeTree} (hscopes : t'.scopes = t.scopes)
    (hfind : ∀ scope name user, t'.findIn scope name user = t.findIn scope name user)
    (name : String) (user : IdentId) (id : ScopeId) :
    t'.lookup name user id = t.lookup name user id := by
  fun_induction t.lookup name user id with
  | case1 id hscope => rw [lookup, hscopes, hscope]
  | case2 id scope hscope own hown =>
    rw [lookup, hscopes, hscope]
    dsimp only
    rw [hfind, hown]
  | case3 id scope hscope hown hparent =>
    rw [lookup, hscopes, hscope]
    dsimp only
    rw [hfind, hown, hparent]
  | case4 id scope hscope parent hown hparent hlt ih =>
    rw [lookup, hscopes, hscope]
    dsimp only
    rw [hfind, hown, hparent]
    dsimp only
    rw [if_pos hlt, ih]
  | case5 id scope hscope parent hown hparent hlt =>
    rw [lookup, hscopes, hscope]
    dsimp only
    rw [hfind, hown, hparent]
    dsimp only
    rw [if_neg hlt]

/-- Binding does not change what names are looked up to. -/
theorem lookup_bindAll (t : ScopeTree) (name : String) (user : IdentId) (id : ScopeId) :
    t.bindAll.lookup name user id = t.lookup name user id :=
  lookup_congr (show t.bindAll.scopes = t.scopes from rfl) t.findIn_bindAll name user id

/-- Only references by a single name are bound. -/
theorem Unbound.segments_eq_one (h : t.Unbound) {ident : Ident} {binding : IdentId}
    (hident : t.bindAll.idents[id]? = some ident) (hbinding : ident.binding = some binding) :
    ident.segments = 1 := by
  rw [getElem?_bindAll] at hident
  obtain ⟨before, hbefore, rfl⟩ := Option.map_eq_some_iff.1 hident
  rw [bind] at hbinding ⊢
  split at hbinding
  · rename_i hcond
    rw [if_pos hcond]
    exact hcond.2.1
  · rw [h id before hbefore] at hbinding
    cases hbinding

/-- Once all references have been bound, every binding is what the name is looked up to. -/
theorem Unbound.bound_bindAll (h : t.Unbound) : t.bindAll.Bound := by
  intro id ident binding hident hbinding
  rw [getElem?_bindAll] at hident
  obtain ⟨before, hbefore, rfl⟩ := Option.map_eq_some_iff.1 hident
  have hnone := h id before hbefore
  rw [lookup_bindAll]
  rw [bind] at hbinding ⊢
  split at hbinding
  · rename_i hcond
    rw [if_pos hcond]
    exact hbinding
  · rw [hnone] at hbinding
    cases hbinding

end ScopeTree

end ShaderLink
