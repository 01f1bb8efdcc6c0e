import Mathlib.Data.List.Basic
import Mathlib.Order.Nat
import ShaderLink.Proofs.Scope.Tree

/-!
# Scope trees as environments

Reading events with an **environment** settles at once what a name means: the environment knows the
open blocks with what each of them declares so far, and the declarations at module level behind all
of them (`Environment.meaning?`). A scope tree knows none of that. It records where and in which
order identifiers are made, and names are looked up when everything has been read.

Both agree (`ScopeTree.Shows.lookup_eq`). At any time the scopes of the open blocks show the
environment: each declares what its block does, and the scope around it shows the next block. What
is made later does not change what an identifier is looked up to (`ScopeTree.Extends`), because
later identifiers have larger numbers, and nothing is added to the scope of the module.
-/

namespace ShaderLink

/-! ### Events -/

/-- Every block that is opened is closed, and no other. -/
inductive Event.Balanced : List Event → Prop
  | nil : Event.Balanced []
  | plain {e : Event} (hopen : e ≠ .openBlock) (hclose : e ≠ .closeBlock) : Event.Balanced [e]
  | append {events events' : List Event} (h : Event.Balanced events)
    (h' : Event.Balanced events') : Event.Balanced (events ++ events')
  | block {events : List Event} (h : Event.Balanced events) :
    Event.Balanced (.openBlock :: (events ++ [.closeBlock]))

/-- A use of a name, and the number of the declaration that it means. -/
structure Usage where
  path : List String
  span : Span
  meaning : Option IdentId
deriving DecidableEq, Repr

/-- What names mean at a place in the text. -/
structure Environment where
  /-- What is declared at module level, the last first. -/
  globals : List (String × IdentId)
  /-- What is declared in the innermost block, the last first. -/
  block : List (String × IdentId)
  /-- What is declared in the blocks around it, the inner ones first. -/
  outer : List (List (String × IdentId))
  /-- The number of names that have been declared or used. -/
  count : IdentId
deriving DecidableEq, Repr

namespace Environment

/-- Names that are declared at module level, with the numbers of their declarations. -/
def globalsOf (names : List String) : List (String × IdentId) :=
  names.zipIdx.reverse

/-- What a name means: the last declaration of it in the innermost block that has one, or else the
last at module level. -/
def meaning? (env : Environment) (name : String) : Option IdentId :=
  ((env.block :: env.outer).findSome? fun block ↦ block.lookup name).or (env.globals.lookup name)

/-- What a path means: nothing that is declared here, unless it is a single name. -/
def pathMeaning? (env : Environment) (path : List String) : Option IdentId :=
  if path.length = 1 then env.meaning? (path.getLastD "") else none

/-- The environment behind an event, unless a block is closed that has not been opened. -/
def event (env : Environment) : Event → Option Environment
  | .declare name _ => some { env with
      block := (name, env.count) :: env.block
      count := env.count + 1 }
  | .reference .. => some { env with count := env.count + 1 }
  | .openBlock => some { env with block := [], outer := env.block :: env.outer }
  | .closeBlock =>
    match env.outer with
    | [] => none
    | block :: outer => some { env with block, outer }
  | .member .. => some env

/-- The use that an event is, if it is one. -/
def usage? (env : Environment) : Event → Option Usage
  | .reference path span _ => some ⟨path, span, env.pathMeaning? path⟩
  | _ => none

/-- The uses among events, and the environment behind them. -/
def read (env : Environment) : List Event → Option (List Usage × Environment)
  | [] => some ([], env)
  | e :: events => do
    let next ← env.event e
    let (usages, last) ← next.read events
    return ((env.usage? e).toList ++ usages, last)

/-- The uses in several declarations, given by their events. Each is read in a block of its own, in
which it must come to an end. -/
def readAll (globals : List (String × IdentId)) (count : IdentId) :
    List (List Event) → Option (List (List Usage))
  | [] => some []
  | events :: rest => do
    let (usages, last) ← (⟨globals, [], [], count⟩ : Environment).read events
    if last.outer = [] then
      return usages :: (← readAll globals last.count rest)
    else
      none

variable {env last : Environment} {usages : List Usage} {events events' : List Event} {e : Event}

theorem read_append (env : Environment) (events events' : List Event) :
    env.read (events ++ events') = (do
      let (usages, next) ← env.read events
      let (usages', last) ← next.read events'
      return (usages ++ usages', last)) := by
  induction events generalizing env with
  | nil =>
    cases h : env.read events' <;> simp [read, h]
  | cons e events ih =>
    rw [List.cons_append, read, read]
    simp only [ih, Option.bind_eq_bind, Option.bind_assoc, Option.pure_def, Option.bind_some,
      List.append_assoc]

/-- What is declared at module level stays the same while events are read. -/
theorem globals_of_read (h : env.read events = some (usages, last)) :
    last.globals = env.globals := by
  induction events generalizing env usages with
  | nil =>
    obtain ⟨-, rfl⟩ := Prod.mk.inj (Option.some.inj h)
    rfl
  | cons e events ih =>
    simp only [read, Option.bind_eq_bind, Option.bind_eq_some_iff, Option.pure_def,
      Option.some.injEq, Prod.mk.injEq] at h
    obtain ⟨next, hnext, ⟨usages', last'⟩, hrest, -, rfl⟩ := h
    rw [ih hrest]
    cases e with
    | closeBlock =>
      cases houter : env.outer with
      | nil => simp [event, houter] at hnext
      | cons block outer =>
        simp only [event, houter, Option.some.injEq] at hnext
        rw [← hnext]
    | _ =>
      obtain rfl := Option.some.inj hnext
      rfl

/-- Balanced events are read to the end in the block that they begin in. -/
theorem exists_read (h : Event.Balanced events) (env : Environment) :
    ∃ usages last, env.read events = some (usages, last) ∧ last.outer = env.outer := by
  induction h generalizing env with
  | nil => exact ⟨_, _, rfl, rfl⟩
  | @plain e hopen hclose =>
    cases e with
    | openBlock => exact absurd rfl hopen
    | closeBlock => exact absurd rfl hclose
    | _ => exact ⟨_, _, rfl, rfl⟩
  | append _ _ ih ih' =>
    obtain ⟨usages, next, hread, houter⟩ := ih env
    obtain ⟨usages', last, hread', houter'⟩ := ih' next
    refine ⟨usages ++ usages', last, ?_, houter'.trans houter⟩
    rw [read_append, hread]
    simp [hread']
  | block _ ih =>
    obtain ⟨usages, next, hread, houter⟩ :=
      ih { env with block := [], outer := env.block :: env.outer }
    refine ⟨usages, { next with block := env.block, outer := env.outer }, ?_, rfl⟩
    have hclose : next.read [.closeBlock] =
        some ([], { next with block := env.block, outer := env.outer }) := by
      simp [read, event, usage?, houter]
    rw [read]
    simp [event, usage?, read_append, hread, hclose]

end Environment

/-! ### Scopes -/

namespace ScopeTree

variable {t t' t'' : ScopeTree} {id : ScopeId} {scope : Scope} {name : String} {user : IdentId}

/-- The declaration that an identifier is, if it is one. -/
def declaration? (t : ScopeTree) (id : IdentId) : Option (String × IdentId) :=
  match t.idents[id]? with
  | some ident => if ident.kind = .decl then some (ident.name, id) else none
  | none => none

/-- What a scope declares, the last first. -/
def declared (t : ScopeTree) (scope : Scope) : List (String × IdentId) :=
  scope.idents.reverse.filterMap t.declaration?

/-- What a scope declares is found in it, if everything in it can be seen. -/
theorem findIn_eq (hseen : scope.kind = .module ∨ ∀ i ∈ scope.idents, i < user) :
    t.findIn scope name user = (t.declared scope).lookup name := by
  have hall : ∀ i ∈ scope.idents.reverse, (scope.kind == .module || decide (i < user)) = true := by
    intro i hi
    rcases hseen with hkind | hlt
    · simp [hkind]
    · simp [hlt i (List.mem_reverse.1 hi)]
  rw [findIn, declared]
  generalize scope.idents.reverse = is at hall
  induction is with
  | nil => rfl
  | cons i is ih =>
    obtain ⟨hi, his⟩ := List.forall_mem_cons.1 hall
    rw [List.find?_cons, hi, Bool.true_and, ih his, List.filterMap_cons, declaration?]
    cases t.idents[i]? with
    | none => rfl
    | some ident =>
      dsimp only
      rw [Option.any_some]
      by_cases hkind : ident.kind = .decl
      · by_cases hname : ident.name = name
        · simp [hkind, hname]
        · simp [hkind, beq_eq_false_iff_ne.2 hname, beq_eq_false_iff_ne.2 (Ne.symm hname),
            List.lookup_cons]
      · simp [hkind, beq_eq_false_iff_ne.2 hkind]

/-- An identifier that is added to a scope is declared there, if it declares anything. -/
theorem declared_addIdent (hidents : ∀ i ∈ scope.idents, i < t.idents.size) (id : ScopeId)
    (kind : IdentKind) (name : String) (segments : Nat) (span : Span) :
    (t.addIdent id kind name segments span).declared
        { scope with idents := scope.idents ++ [t.idents.size] } =
      (if kind = .decl then [(name, t.idents.size)] else []) ++ t.declared scope := by
  have hnew : (t.addIdent id kind name segments span).declaration? t.idents.size =
      if kind = .decl then some (name, t.idents.size) else none := by
    simp [declaration?, ScopeTree.addIdent]
  have hold : scope.idents.reverse.filterMap
      (t.addIdent id kind name segments span).declaration? = t.declared scope := by
    refine List.filterMap_congr fun i hi ↦ ?_
    have hlt := hidents i (List.mem_reverse.1 hi)
    rw [declaration?, declaration?,
      getElem?_addIdent (Array.getElem?_eq_getElem hlt) id kind name segments span,
      Array.getElem?_eq_getElem hlt]
  rw [declared, List.reverse_append, List.reverse_singleton, List.singleton_append,
    List.filterMap_cons, hnew, hold]
  split_ifs <;> rfl

/-! ### Trees that grow -/

/-- The later tree has all that the earlier one has. What is added is numbered on, and nothing is
added to the scope of the module. -/
structure Extends (t t' : ScopeTree) : Prop where
  size : t.idents.size ≤ t'.idents.size
  idents : ∀ id < t.idents.size, t'.idents[id]? = t.idents[id]?
  scopes : ∀ (id : ScopeId) scope, t.scopes[id]? = some scope → ∃ scope' added,
    t'.scopes[id]? = some scope' ∧ scope'.kind = scope.kind ∧ scope'.parent = scope.parent ∧
    scope'.idents = scope.idents ++ added ∧ (∀ i ∈ added, t.idents.size ≤ i) ∧
    (scope.kind = .module → added = [])

theorem Extends.refl (t : ScopeTree) : t.Extends t :=
  ⟨Nat.le_refl _, fun _ _ ↦ rfl, fun _ scope hscope ↦
    ⟨scope, [], hscope, rfl, rfl, (List.append_nil _).symm, List.forall_mem_nil _, fun _ ↦ rfl⟩⟩

theorem Extends.trans (h : t.Extends t') (h' : t'.Extends t'') : t.Extends t'' where
  size := h.size.trans h'.size
  idents id hid := (h'.idents id (hid.trans_le h.size)).trans (h.idents id hid)
  scopes id scope hscope := by
    obtain ⟨scope', added, hscope', hkind, hparent, hidents, hadded, hmodule⟩ :=
      h.scopes id scope hscope
    obtain ⟨scope'', added', hscope'', hkind', hparent', hidents', hadded', hmodule'⟩ :=
      h'.scopes id scope' hscope'
    refine ⟨scope'', added ++ added', hscope'', hkind'.trans hkind, hparent'.trans hparent, ?_,
      List.forall_mem_append.2 ⟨hadded, fun i hi ↦ h.size.trans (hadded' i hi)⟩, fun h ↦ ?_⟩
    · rw [hidents', hidents, List.append_assoc]
    · rw [hmodule h, hmodule' (hkind.trans h)]
      rfl

theorem getElem?_scopes_addIdent (t : ScopeTree) (scope : ScopeId) (kind : IdentKind)
    (name : String) (segments : Nat) (span : Span) (id : ScopeId) :
    (t.addIdent scope kind name segments span).scopes[id]? = t.scopes[id]?.map fun s ↦
      if scope = id then { s with idents := s.idents ++ [t.idents.size] } else s := by
  rw [ScopeTree.addIdent]
  dsimp only
  rw [Array.getElem?_modify]
  split <;> simp

theorem getElem?_scopes_addIdent_self (hscope : t.scopes[id]? = some scope) (kind : IdentKind)
    (name : String) (segments : Nat) (span : Span) :
    (t.addIdent id kind name segments span).scopes[id]? =
      some { scope with idents := scope.idents ++ [t.idents.size] } := by
  rw [getElem?_scopes_addIdent, hscope, Option.map_some, if_pos rfl]

theorem lt_size_addIdent {kind : IdentKind} {segments : Nat} {span : Span}
    (hidents : ∀ i ∈ scope.idents, i < t.idents.size) :
    ∀ i ∈ scope.idents ++ [t.idents.size],
      i < (t.addIdent id kind name segments span).idents.size := by
  rw [ScopeTree.addIdent, Array.size_push]
  exact List.forall_mem_append.2 ⟨fun i hi ↦ (hidents i hi).trans (Nat.lt_succ_self _),
    List.forall_mem_singleton.2 (Nat.lt_succ_self _)⟩

theorem getElem?_scopes_pushScope (t : ScopeTree) (parent : ScopeId) (kind : ScopeKind)
    (hlt : parent < t.scopes.size) (id : ScopeId) :
    (t.pushScope parent kind).scopes[id]? =
      if id = t.scopes.size then some ⟨kind, some parent, [], []⟩
      else t.scopes[id]?.map fun s ↦
        if parent = id then { s with children := s.children ++ [t.scopes.size] } else s := by
  rw [ScopeTree.pushScope]
  dsimp only
  rw [Array.getElem?_modify, Array.getElem?_push]
  by_cases hid : id = t.scopes.size
  · simp [hid, hlt.ne]
  · by_cases hparent : parent = id
    · simp [hid, hparent]
    · simp [hid, hparent]

/-- An identifier may be added to any scope but that of the module. -/
theorem extends_addIdent {id : ScopeId} (hscope : ∀ scope, t.scopes[id]? = some scope →
      scope.kind ≠ .module) (kind : IdentKind) (name : String) (segments : Nat) (span : Span) :
    t.Extends (t.addIdent id kind name segments span) where
  size := by simp [ScopeTree.addIdent]
  idents i hi := by
    obtain ⟨ident, hident⟩ : ∃ ident, t.idents[i]? = some ident :=
      ⟨t.idents[i], Array.getElem?_eq_getElem hi⟩
    rw [getElem?_addIdent hident, hident]
  scopes i scope hi := by
    rw [getElem?_scopes_addIdent, hi, Option.map_some]
    by_cases hid : id = i
    · rw [if_pos hid]
      refine ⟨_, [t.idents.size], rfl, rfl, rfl, rfl,
        List.forall_mem_singleton.2 (Nat.le_refl _), fun hkind ↦ ?_⟩
      exact absurd hkind (hscope scope (hid ▸ hi))
    · rw [if_neg hid]
      exact ⟨scope, [], rfl, rfl, rfl, (List.append_nil _).symm, List.forall_mem_nil _,
        fun _ ↦ rfl⟩

theorem extends_pushScope {parent : ScopeId} (hlt : parent < t.scopes.size) (kind : ScopeKind) :
    t.Extends (t.pushScope parent kind) where
  size := Nat.le_refl _
  idents _ _ := rfl
  scopes i scope hi := by
    have hne : i ≠ t.scopes.size := (Array.getElem?_eq_some_iff.1 hi).1.ne
    rw [getElem?_scopes_pushScope t parent kind hlt, if_neg hne, hi, Option.map_some]
    split
    all_goals exact ⟨_, [], rfl, rfl, rfl, (List.append_nil _).symm, List.forall_mem_nil _,
      fun _ ↦ rfl⟩

/-- What a scope declares stays what it is when other identifiers are made. -/
theorem Extends.declared_eq (h : t.Extends t') (hidents : ∀ i ∈ scope.idents, i < t.idents.size) :
    t'.declared scope = t.declared scope := by
  rw [declared, declared]
  refine List.filterMap_congr fun i hi ↦ ?_
  rw [declaration?, declaration?, h.idents i (hidents i (List.mem_reverse.1 hi))]

/-! ### Scopes that show an environment -/

/-- The scopes, the innermost first, declare what the blocks do, each below the next, and the scope
of the module behind them declares what is declared at module level. -/
inductive Shows (t : ScopeTree) (globals : List (String × IdentId)) :
    List ScopeId → List (List (String × IdentId)) → Prop
  | root {scope : Scope} (hscope : t.scopes[root]? = some scope) (hkind : scope.kind = .module)
    (hparent : scope.parent = none) (hidents : ∀ i ∈ scope.idents, i < t.idents.size)
    (hdeclared : t.declared scope = globals) : Shows t globals [] []
  | block {id : ScopeId} {path : List ScopeId} {block : List (String × IdentId)}
    {blocks : List (List (String × IdentId))} {scope : Scope}
    (hscope : t.scopes[id]? = some scope) (hkind : scope.kind ≠ .module)
    (hparent : scope.parent = some (path.headD root)) (hlt : path.headD root < id)
    (hidents : ∀ i ∈ scope.idents, i < t.idents.size) (hdeclared : t.declared scope = block)
    (hrest : Shows t globals path blocks) : Shows t globals (id :: path) (block :: blocks)

namespace Shows

variable {globals : List (String × IdentId)} {path : List ScopeId}
  {block : List (String × IdentId)} {blocks : List (List (String × IdentId))}

/-- Inner scopes have larger numbers. -/
theorem lt_of_mem (h : t.Shows globals (id :: path) blocks) : ∀ i ∈ path, i < id := by
  generalize hall : id :: path = all at h
  induction h generalizing id path with
  | root => cases hall
  | @block id' path' _ _ _ _ _ _ hlt _ _ hrest ih =>
    obtain ⟨rfl, rfl⟩ := List.cons.inj hall
    cases path with
    | nil => exact List.forall_mem_nil _
    | cons i path =>
      have hi : i < id := hlt
      exact List.forall_mem_cons.2 ⟨hi, fun j hj ↦ (ih rfl j hj).trans hi⟩

/-- When other identifiers are made, the scopes go on showing what they do. -/
theorem of_extends (h : t.Shows globals path blocks) (hext : t.Extends t')
    (hsame : ∀ (i : ScopeId) scope scope', i ∈ path → t.scopes[i]? = some scope →
      t'.scopes[i]? = some scope' → scope'.idents = scope.idents) :
    t'.Shows globals path blocks := by
  induction h with
  | root hscope hkind hparent hidents hdeclared =>
    obtain ⟨scope', added, hscope', hkind', hparent', hidents', -, hmodule⟩ :=
      hext.scopes _ _ hscope
    rw [hmodule hkind, List.append_nil] at hidents'
    refine .root hscope' (hkind'.trans hkind) (hparent'.trans hparent) (fun i hi ↦ ?_) ?_
    · rw [hidents'] at hi
      exact (hidents i hi).trans_le hext.size
    · rw [← hdeclared, ← hext.declared_eq hidents, declared, declared, hidents']
  | block hscope hkind hparent hlt hidents hdeclared _ ih =>
    obtain ⟨scope', added, hscope', hkind', hparent', -⟩ := hext.scopes _ _ hscope
    have hidents' := hsame _ _ _ List.mem_cons_self hscope hscope'
    refine .block hscope' (hkind' ▸ hkind) (hparent'.trans hparent) hlt (fun i hi ↦ ?_) ?_
      (ih fun i scope scope' hi ↦ hsame i scope scope' (List.mem_cons_of_mem _ hi))
    · rw [hidents'] at hi
      exact (hidents i hi).trans_le hext.size
    · rw [← hdeclared, ← hext.declared_eq hidents, declared, declared, hidents']

theorem tail (h : t.Shows globals (id :: path) (block :: blocks)) :
    t.Shows globals path blocks := by
  cases h with
  | block _ _ _ _ _ _ hrest => exact hrest

/-- Behind all blocks stands the scope of the module. -/
theorem toRoot (h : t.Shows globals path blocks) : t.Shows globals [] [] := by
  induction h with
  | root hscope hkind hparent hidents hdeclared =>
      exact .root hscope hkind hparent hidents hdeclared
  | block _ _ _ _ _ _ _ ih => exact ih

theorem headD_lt (h : t.Shows globals path blocks) : path.headD ScopeTree.root < t.scopes.size := by
  cases h with
  | root hscope => exact (Array.getElem?_eq_some_iff.1 hscope).1
  | block hscope => exact (Array.getElem?_eq_some_iff.1 hscope).1

/-- Only the scope behind all blocks is that of the module. -/
theorem kind_ne (h : t.Shows globals (id :: path) blocks) :
    ∀ scope, t.scopes[id]? = some scope → scope.kind ≠ .module := by
  cases h with
  | block hscope hkind =>
    intro scope hscope'
    rwa [Option.some.inj (hscope'.symm.trans hscope)]

/-- An identifier that is made in the innermost scope is declared there, if it declares anything. -/
theorem addIdent (h : t.Shows globals (id :: path) (block :: blocks)) (kind : IdentKind)
    (name : String) (segments : Nat) (span : Span) :
    (t.addIdent id kind name segments span).Shows globals (id :: path)
      (((if kind = .decl then [(name, t.idents.size)] else []) ++ block) :: blocks) := by
  have hext := extends_addIdent h.kind_ne kind name segments span
  have hbelow := h.lt_of_mem
  cases h with
  | @block _ _ _ _ scope hscope hkind hparent hlt hidents hdeclared hrest =>
    refine .block (getElem?_scopes_addIdent_self hscope kind name segments span) hkind hparent hlt
      (lt_size_addIdent hidents) ?_ (hrest.of_extends hext ?_)
    · rw [← hdeclared]
      exact declared_addIdent hidents id kind name segments span
    · intro i scope₁ scope₂ hi hscope₁ hscope₂
      rw [getElem?_scopes_addIdent, hscope₁, Option.map_some, if_neg (hbelow i hi).ne'] at hscope₂
      rw [← Option.some.inj hscope₂]

/-- The last declaration at module level is the first to be found. -/
theorem addIdent_root (h : t.Shows globals [] []) (name : String) (segments : Nat) (span : Span) :
    (t.addIdent ScopeTree.root .decl name segments span).Shows ((name, t.idents.size) :: globals)
      [] [] := by
  cases h with
  | root hscope hkind hparent hidents hdeclared =>
    refine .root (getElem?_scopes_addIdent_self hscope _ name segments span) hkind hparent
      (lt_size_addIdent hidents) ?_
    rw [declared_addIdent hidents ScopeTree.root .decl name segments span, hdeclared]
    rfl

/-- A new scope below the innermost one declares nothing. -/
theorem pushScope (h : t.Shows globals path blocks) {kind : ScopeKind} (hkind : kind ≠ .module) :
    (t.pushScope (path.headD ScopeTree.root) kind).Shows globals (t.scopes.size :: path)
      ([] :: blocks) := by
  have hlt := h.headD_lt
  refine .block (by rw [getElem?_scopes_pushScope t _ kind hlt, if_pos rfl]) hkind rfl hlt
    (List.forall_mem_nil _) rfl (h.of_extends (extends_pushScope hlt kind) ?_)
  intro i scope scope' hi hscope hscope'
  have hne : i ≠ t.scopes.size := (Array.getElem?_eq_some_iff.1 hscope).1.ne
  rw [getElem?_scopes_pushScope t _ kind hlt, if_neg hne, hscope, Option.map_some] at hscope'
  rw [← Option.some.inj hscope']
  split_ifs <;> rfl

end Shows

/-- What is added to a scope later is not seen from the identifier that was next. -/
theorem findIn_append {scope' : Scope} {added : List IdentId} (hkind : scope.kind ≠ .module)
    (hkind' : scope'.kind = scope.kind) (hidents : scope'.idents = scope.idents ++ added)
    (hadded : ∀ i ∈ added, user ≤ i) :
    t.findIn scope' name user = t.findIn scope name user := by
  have hnone : (added.reverse.find? fun id ↦ (scope'.kind == .module || decide (id < user)) &&
      t.idents[id]?.any fun ident ↦ ident.kind == .decl && ident.name == name) = none := by
    refine List.find?_eq_none.2 fun i hi ↦ ?_
    have hle := hadded i (List.mem_reverse.1 hi)
    simp [hkind', hkind, hle.not_gt]
  rw [findIn, findIn, hidents, List.reverse_append, List.find?_append, hnone, hkind']
  rfl

/-- What a name means in an environment that the scopes show is what the next identifier is looked
up to, also when others have been made. -/
theorem Shows.lookup_eq {globals : List (String × IdentId)} {path : List ScopeId}
    {blocks : List (List (String × IdentId))} (h : t.Shows globals path blocks)
    (hext : t.Extends t') (name : String) :
    t'.lookup name t.idents.size (path.headD ScopeTree.root) =
      (blocks.findSome? fun block ↦ block.lookup name).or (globals.lookup name) := by
  induction h with
  | @root scope hscope hkind hparent hidents hdeclared =>
    obtain ⟨scope', added, hscope', hkind', hparent', hidents', -, hmodule⟩ :=
      hext.scopes _ _ hscope
    rw [hmodule hkind, List.append_nil] at hidents'
    have hfind : t'.findIn scope' name t.idents.size = globals.lookup name := by
      rw [findIn_eq (.inl (hkind'.trans hkind)), ← hdeclared, ← hext.declared_eq hidents, declared,
        declared, hidents']
    rw [List.headD_nil, lookup, hscope']
    dsimp only
    rw [hfind, hparent', hparent]
    cases globals.lookup name <;> rfl
  | @block id path block blocks scope hscope hkind hparent hlt hidents hdeclared _ ih =>
    obtain ⟨scope', added, hscope', hkind', hparent', hidents', hadded, -⟩ :=
      hext.scopes _ _ hscope
    have hfind : t'.findIn scope' name t.idents.size = block.lookup name := by
      rw [findIn_append hkind hkind' hidents' hadded, findIn_eq (.inr hidents), ← hdeclared,
        hext.declared_eq hidents]
    rw [List.headD_cons, lookup, hscope']
    dsimp only
    rw [hfind, hparent', hparent, List.findSome?_cons]
    cases block.lookup name with
    | some found => rfl
    | none =>
      dsimp only
      rw [if_pos hlt, ih]

end ScopeTree

end ShaderLink
