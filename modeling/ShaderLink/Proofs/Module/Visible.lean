import Mathlib.Data.List.Forall2
import ShaderLink.Proofs.Module.Binding

/-!
# Names that can be seen

An environment knows what names mean by the numbers of their declarations. Here the same is told
from the events alone, by the spans of the declarations: behind some events, a name can be seen that
has been declared in a block that is still open (`Event.visible`). Both agree as long as events are
read (`Environment.Agrees.read`), so that a name that is looked up is the last one that can be seen,
or else is declared at module level (`Environment.Agrees.meaning?_eq`).
-/

namespace ShaderLink

namespace Event

/-- What is declared in the open blocks behind an event, with its spans. The innermost block and the
last declaration come first. -/
def enter : List (List (String × Span)) → Event → List (List (String × Span))
  | block :: outer, .declare name span => ((name, span) :: block) :: outer
  | blocks, .openBlock => [] :: blocks
  | blocks, .closeBlock => blocks.tail
  | blocks, _ => blocks

/-- The names that can be seen behind the events of a declaration, the last first. -/
def visible (events : List Event) : List (String × Span) :=
  (events.foldl enter [[]]).flatten

namespace Balanced

variable {events front back : List Event}

/-- Balanced events add to the block that they begin in. -/
theorem exists_foldl_enter (h : Balanced events) (block : List (String × Span))
    (outer : List (List (String × Span))) :
    ∃ added, events.foldl enter (block :: outer) = (added ++ block) :: outer := by
  induction h generalizing block outer with
  | nil => exact ⟨[], rfl⟩
  | @plain e hopen hclose =>
    cases e with
    | declare name span => exact ⟨[(name, span)], rfl⟩
    | openBlock => exact absurd rfl hopen
    | closeBlock => exact absurd rfl hclose
    | _ => exact ⟨[], rfl⟩
  | append _ _ ih ih' =>
    obtain ⟨added, hfirst⟩ := ih block outer
    obtain ⟨added', hrest⟩ := ih' (added ++ block) outer
    exact ⟨added' ++ added, by rw [List.foldl_append, hfirst, hrest, List.append_assoc]⟩
  | block _ ih =>
    obtain ⟨added, hinside⟩ := ih [] (block :: outer)
    exact ⟨[], by rw [List.foldl_cons, List.foldl_append, enter, hinside]; rfl⟩

/-- Inside balanced events, what has been declared in front of them is still there. -/
theorem exists_foldl_enter_of_append (h : Balanced (front ++ back)) (block : List (String × Span))
    (outer : List (List (String × Span))) :
    ∃ inner added, front.foldl enter (block :: outer) = inner ++ (added ++ block) :: outer := by
  generalize hall : front ++ back = events at h
  have hnil (block : List (String × Span)) (outer : List (List (String × Span))) :
      ∃ inner added, [].foldl enter (block :: outer) = inner ++ (added ++ block) :: outer :=
    ⟨[], [], rfl⟩
  have hself {events : List Event} (h : Balanced events) (block : List (String × Span))
      (outer : List (List (String × Span))) :
      ∃ inner added, events.foldl enter (block :: outer) = inner ++ (added ++ block) :: outer :=
    ⟨[], h.exists_foldl_enter block outer⟩
  induction h generalizing front back block outer with
  | nil =>
    rw [(List.append_eq_nil_iff.1 hall).1]
    exact hnil block outer
  | plain hopen hclose =>
    rcases List.append_eq_singleton_iff.1 hall with ⟨rfl, -⟩ | ⟨rfl, -⟩
    · exact hnil block outer
    · exact hself (.plain hopen hclose) block outer
  | append h _ ih ih' =>
    rcases List.append_eq_append_iff.1 hall with ⟨middle, hfirst, -⟩ | ⟨middle, rfl, hrest⟩
    · exact ih block outer hfirst.symm
    · obtain ⟨added, hfirst⟩ := h.exists_foldl_enter block outer
      obtain ⟨inner, added', hmiddle⟩ := ih' (added ++ block) outer hrest.symm
      exact ⟨inner, added' ++ added, by
        rw [List.foldl_append, hfirst, hmiddle, List.append_assoc]⟩
  | block h ih =>
    rcases List.append_eq_cons_iff.1 hall with ⟨rfl, -⟩ | ⟨front, rfl, hrest⟩
    · exact hnil block outer
    · rcases List.eq_nil_or_concat' back with rfl | ⟨middle, last, rfl⟩
      · rw [List.append_nil] at hrest
        exact hrest ▸ hself (.block h) block outer
      · -- the cut is inside the block, which hides what is around it until it closes
        rw [← List.append_assoc] at hrest
        obtain ⟨inner, added, hfront⟩ :=
          ih [] (block :: outer) (List.append_inj_left' hrest rfl).symm
        exact ⟨inner ++ [added], [], by rw [List.foldl_cons, enter, hfront]; simp⟩

/-- What can be seen in front of balanced events can be seen in all of them, behind what is declared
there. -/
theorem visible_suffix (h : Balanced (front ++ back)) (events : List Event) :
    visible events <:+ visible (events ++ front) := by
  rw [visible, visible, List.foldl_append]
  cases events.foldl enter [[]] with
  | nil => exact List.nil_suffix
  | cons block outer =>
    obtain ⟨inner, added, hfront⟩ := h.exists_foldl_enter_of_append block outer
    refine ⟨inner.flatten ++ added, ?_⟩
    rw [hfront, List.flatten_append, List.flatten_cons, List.flatten_cons]
    simp only [List.append_assoc]

end Balanced

end Event

/-! ### Environments -/

namespace Environment

variable {env next last : Environment} {sites : List (IdentKind × String × Span)} {base : IdentId}
  {blocks : List (List (String × Span))} {events : List Event} {usages : List Usage} {e : Event}

/-- Among all identifiers, the number is that of the declaration of the name at the span. It is none
of the first, which are those of the module. -/
def Numbers (sites : List (IdentKind × String × Span)) (base : IdentId) (p : String × IdentId)
    (q : String × Span) : Prop :=
  p.1 = q.1 ∧ sites[p.2]? = some (.decl, q) ∧ base ≤ p.2

/-- The blocks of the environment declare the same as others that know spans and no numbers. -/
def Agrees (sites : List (IdentKind × String × Span)) (base : IdentId) (env : Environment)
    (blocks : List (List (String × Span))) : Prop :=
  List.Forall₂ (List.Forall₂ (Numbers sites base)) (env.block :: env.outer) blocks

/-- The blocks go on agreeing behind an event that makes the next identifier, if it makes one. -/
theorem Agrees.event (h : env.Agrees sites base blocks) (hbase : base ≤ env.count)
    (hsite : ∀ site ∈ e.site?, sites[env.count]? = some site) (hnext : env.event e = some next) :
    next.Agrees sites base (e.enter blocks) ∧ next.count = env.count + e.site?.toList.length := by
  obtain ⟨block, outer, hblock, houter, rfl⟩ := List.forall₂_cons_left_iff.1 h
  cases e with
  | declare name span =>
    obtain rfl := Option.some.inj hnext
    exact ⟨.cons (.cons ⟨rfl, hsite _ rfl, hbase⟩ hblock) houter, rfl⟩
  | reference path span kind =>
    obtain rfl := Option.some.inj hnext
    exact ⟨h, rfl⟩
  | openBlock =>
    obtain rfl := Option.some.inj hnext
    exact ⟨.cons .nil h, rfl⟩
  | closeBlock =>
    obtain ⟨globals, block', outer', count⟩ := env
    cases outer' with
    | nil => cases hnext
    | cons =>
      obtain rfl := Option.some.inj hnext
      exact ⟨houter, rfl⟩
  | member name span =>
    obtain rfl := Option.some.inj hnext
    exact ⟨h, rfl⟩

/-- The blocks go on agreeing while events are read that make the next identifiers. -/
theorem Agrees.read (h : env.Agrees sites base blocks) (hbase : base ≤ env.count)
    (hsites : events.filterMap Event.site? <+: sites.drop env.count)
    (hread : env.read events = some (usages, last)) :
    last.Agrees sites base (events.foldl Event.enter blocks) := by
  induction events generalizing env blocks usages with
  | nil =>
    obtain ⟨-, rfl⟩ := Prod.mk.inj (Option.some.inj hread)
    exact h
  | cons e events ih =>
    simp only [Environment.read, Option.bind_eq_bind, Option.bind_eq_some_iff, Option.pure_def,
      Option.some.injEq, Prod.mk.injEq] at hread
    obtain ⟨next, hnext, ⟨usages', last'⟩, hrest, -, rfl⟩ := hread
    obtain ⟨made, hmade⟩ := hsites
    have hsplit : e.site?.toList ++ (events.filterMap Event.site? ++ made) =
        sites.drop env.count := by
      rw [← hmade]
      cases hsite : e.site? <;> simp [hsite]
    have hsite : ∀ site ∈ e.site?, sites[env.count]? = some site := by
      intro site hsite
      have hfirst := congrArg (fun l ↦ l[0]?) hsplit
      rw [Option.mem_def.1 hsite] at hfirst
      simpa using hfirst.symm
    obtain ⟨hagrees, hcount⟩ := h.event hbase hsite hnext
    refine ih hagrees (hcount ▸ hbase.trans (Nat.le_add_right _ _)) ⟨made, ?_⟩ hrest
    rw [hcount, ← List.drop_drop, ← hsplit, List.drop_left' rfl]

/-- Names are looked up alike by numbers and by spans. -/
theorem lookup_of_forall₂ {ps : List (String × IdentId)} {qs : List (String × Span)}
    (h : List.Forall₂ (Numbers sites base) ps qs) (name : String) :
    (ps.lookup name = none ∧ qs.lookup name = none) ∨
      ∃ id span, ps.lookup name = some id ∧ qs.lookup name = some span ∧
        sites[id]? = some (.decl, name, span) ∧ base ≤ id := by
  induction h with
  | nil => exact .inl ⟨rfl, rfl⟩
  | @cons p q _ _ hnumbers _ ih =>
    obtain ⟨declared, id⟩ := p
    obtain ⟨_, span⟩ := q
    obtain ⟨rfl, hsite, hbase⟩ := hnumbers
    rw [List.lookup_cons, List.lookup_cons]
    by_cases hname : name = declared
    · subst hname
      exact .inr ⟨id, span, by simp, by simp, hsite, hbase⟩
    · rw [beq_eq_false_iff_ne.2 hname]
      exact ih

/-- To look a name up in one block after the other is to look it up in all of them. -/
theorem findSome?_lookup (blocks : List (List (String × IdentId))) (name : String) :
    (blocks.findSome? fun block ↦ block.lookup name) = blocks.flatten.lookup name := by
  induction blocks with
  | nil => rfl
  | cons block blocks ih =>
    rw [List.findSome?_cons, List.flatten_cons, List.lookup_append, ih]
    cases block.lookup name <;> rfl

/-- A name means the declaration at the span that it can be seen with, or what is declared at module
level if it cannot be seen. -/
theorem Agrees.meaning?_eq (h : env.Agrees sites base blocks) (name : String) :
    (blocks.flatten.lookup name = none ∧ env.meaning? name = env.globals.lookup name) ∨
      ∃ id span, blocks.flatten.lookup name = some span ∧ env.meaning? name = some id ∧
        sites[id]? = some (.decl, name, span) ∧ base ≤ id := by
  rw [Environment.meaning?, findSome?_lookup]
  rcases lookup_of_forall₂ (List.rel_flatten h) name with
    ⟨hnone, hunseen⟩ | ⟨id, span, hid, hseen, h⟩
  · exact .inl ⟨hunseen, by rw [hnone, Option.none_or]⟩
  · exact .inr ⟨id, span, hseen, by rw [hid, Option.some_or], h⟩

/-- A use among events means what its name does in front of it. -/
theorem exists_of_mem_usages (hread : env.read events = some (usages, last)) {u : Usage}
    (hu : u ∈ usages) : ∃ before kind after usages' next,
      events = before ++ .reference u.path u.span kind :: after ∧
      env.read before = some (usages', next) ∧ u.meaning = next.pathMeaning? u.path := by
  induction events generalizing env usages with
  | nil =>
    obtain ⟨rfl, -⟩ := Prod.mk.inj (Option.some.inj hread)
    exact absurd hu List.not_mem_nil
  | cons e events ih =>
    simp only [Environment.read, Option.bind_eq_bind, Option.bind_eq_some_iff, Option.pure_def,
      Option.some.injEq, Prod.mk.injEq] at hread
    obtain ⟨next, hnext, ⟨usages', last'⟩, hrest, rfl, rfl⟩ := hread
    rcases List.mem_append.1 hu with hfirst | hu
    · cases e with
      | reference path span kind =>
        obtain rfl := List.mem_singleton.1 hfirst
        exact ⟨[], kind, events, [], env, rfl, rfl, rfl⟩
      | _ => exact absurd hfirst List.not_mem_nil
    · obtain ⟨before, kind, after, usages'', next', rfl, hbefore, hmeaning⟩ := ih hrest hu
      refine ⟨e :: before, kind, after, (env.usage? e).toList ++ usages'', next', rfl, ?_, hmeaning⟩
      simp [Environment.read, hnext, hbefore]

/-- Where no block is opened, all that is declared can be seen. -/
theorem exists_foldl_enter_of_read (hread : env.read events = some (usages, last))
    (houter : env.outer = []) (hopen : .openBlock ∉ events) (block : List (String × Span)) :
    ∃ added, events.foldl Event.enter [block] = [added ++ block] ∧
      ∀ name span, (name, span) ∈ added ↔ .declare name span ∈ events := by
  induction events generalizing env usages block with
  | nil => exact ⟨[], rfl, by simp⟩
  | cons e events ih =>
    simp only [Environment.read, Option.bind_eq_bind, Option.bind_eq_some_iff, Option.pure_def,
      Option.some.injEq, Prod.mk.injEq] at hread
    obtain ⟨next, hnext, ⟨usages', last'⟩, hrest, -, rfl⟩ := hread
    obtain ⟨hfirst, hrestopen⟩ := not_or.1 (mt List.mem_cons.2 hopen)
    cases e with
    | declare name span =>
      obtain rfl := Option.some.inj hnext
      obtain ⟨added, hadded, hmem⟩ := ih hrest houter hrestopen ((name, span) :: block)
      refine ⟨added ++ [(name, span)], by simp [Event.enter, hadded], fun name' span' ↦ ?_⟩
      simp [hmem, or_comm]
    | openBlock => exact absurd rfl hfirst
    | closeBlock => simp [Environment.event, houter] at hnext
    | _ =>
      obtain rfl := Option.some.inj hnext
      obtain ⟨added, hadded, hmem⟩ := ih hrest houter hrestopen block
      exact ⟨added, hadded, by simp [hmem]⟩

end Environment

/-- Up to the first block, all that has been declared can be seen. -/
theorem Event.Balanced.mem_visible_iff {front back : List Event}
    (h : Event.Balanced (front ++ back)) (hopen : .openBlock ∉ front) (name : String)
    (span : Span) : (name, span) ∈ Event.visible front ↔ .declare name span ∈ front := by
  obtain ⟨usages, last, hread, -⟩ := Environment.exists_read h ⟨[], [], [], 0⟩
  rw [Environment.read_append, Option.bind_eq_bind, Option.bind_eq_some_iff] at hread
  obtain ⟨⟨usages', next⟩, hfront, -⟩ := hread
  obtain ⟨added, hadded, hmem⟩ := Environment.exists_foldl_enter_of_read hfront rfl hopen []
  rw [Event.visible, hadded, List.append_nil, List.flatten_singleton]
  exact hmem name span

end ShaderLink
