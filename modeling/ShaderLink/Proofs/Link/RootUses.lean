import ShaderLink.Proofs.Link.RootText
import ShaderLink.Proofs.Module.Uses

/-!
# Uses of imported names in the root

What stays of the root in the linked text uses names in two kinds of places: in declarations
(`Module.DeclUse`) and in `const_assert` statements at module level (`Module.AssertUse`). A use of
an imported name should be linked, which means that its target has an instance in the linked text
and that the name of the instance stands in the place of the use (`LinkJob.LinksUse`).

Uses in declarations always are. A `const_assert` statement is copied, and nobody looks for
references in it. So a use there is linked only if by chance the target is linked for another reason
and under the very name that is written (`LinkJob.links_use_iff`).
-/

namespace ShaderLink

/-- A `const_assert` statement, read like one inside a function. -/
def Parser.assertion : Parser (List Event) := do
  let _ ← sign "const_assert"
  bodyUntil ";" .code

/-- The events in a `const_assert` statement. No other text has any. -/
def Parser.assertionEvents (steps : Nat) (t : Text) : List Event :=
  match assertion.run steps t with
  | (.accepted events _, _) => events
  | _ => []

/-- The text is a `const_assert` statement that uses the path at the span. -/
def Text.Asserts (t : Text) (path : List String) (span : Span) : Prop :=
  ∃ steps kind, .reference path span kind ∈ Parser.assertionEvents steps t

namespace Text

variable {t inside : Text} {path : List String} {s place : Span}

theorem IsBoundary.shift {n : Nat} (h : t.slice? place = some inside) (hn : inside.IsBoundary n) :
    t.IsBoundary (n + place.start) := by
  obtain ⟨front, back, rfl, hfront, -⟩ := slice?_eq_some_iff.1 h
  obtain ⟨before, after, rfl, rfl⟩ := hn
  exact ⟨front ++ before, after ++ back, by simp, by rw [size_append, hfront, Nat.add_comm]⟩

/-- What fits a slice of a text fits the text there. -/
theorem Fits.shift (h : t.slice? place = some inside) (hs : inside.Fits s) :
    t.Fits (s.shift place.start) ∧ place.start ≤ (s.shift place.start).start ∧
      (s.shift place.start).stop ≤ place.stop := by
  have hle := hs.stop.le_size
  rw [size_of_slice? h] at hle
  refine ⟨⟨hs.start.shift h, ?_, hs.size_pos⟩, ?_, ?_⟩
  · rw [Span.stop_shift]
    exact hs.stop.shift h
  · rw [Span.start_shift]
    omega
  · rw [Span.stop_shift]
    simp only [Span.stop] at hle ⊢
    omega

/-- What a statement uses stands in it. -/
theorem Asserts.fits (h : t.Asserts path s) : t.Fits s := by
  obtain ⟨steps, kind, hmem⟩ := h
  rw [Parser.assertionEvents] at hmem
  split at hmem
  · rename_i events c e hrun
    obtain ⟨word, c₁, hword, hevents⟩ := (Parser.Yields.of_run hrun).bind
    obtain ⟨-, hascending⟩ :=
      (hword.reads_sign.skip.trans hevents.reads_bodyUntil) (Cursor.In.start t)
    exact hascending.fits s (List.mem_filterMap.2 ⟨_, hmem, rfl⟩)
  · exact absurd hmem List.not_mem_nil

end Text

namespace Module

variable (m : Module)

/-- A declaration of the module uses the path at the span, as its tokens are read, and it means
nothing declared in the module. -/
def DeclUse (path : List String) (span : Span) : Prop :=
  ∃ index d, m.decl? index = some d ∧ d.Uses m path span ∧
    ∀ r ∈ m.references d, r.span = span → m.binding? r = none

/-- A `const_assert` statement at module level uses the path at the span, and it is not the name of
a declaration of the module. -/
def AssertUse (path : List String) (span : Span) : Prop :=
  ∃ place t s, .text place ∈ m.elements ∧ m.text.slice? place = some t ∧ t.Asserts path s ∧
    s.shift place.start = span ∧ ∀ d ∈ m.decls, path ≠ [d.2.name]

end Module

namespace LinkJob

variable (job : LinkJob)

/-- The linked text has the instance: as a declaration of the root with its name, or as a piece. -/
def Emits (l : Linkage) (linked : Linked) (key : InstanceKey) (i : Instance) : Prop :=
  (∃ index d, key = ⟨.decl job.root.path index, []⟩ ∧ job.root.decl? index = some d ∧
    (job.rootSpliced l).Shows job.root.parsed d.nameSpan i.name.toList) ∨
  ∃ place piece, l.instances.toList[place]? = some (key, i) ∧
    job.piece ((key, i), place) = .ok (some piece) ∧ piece.map.text <:+: linked.map.text

/-- In the place of the use stands the name of an instance of the target, and the linked text has
the instance. -/
def LinksUse (l : Linkage) (linked : Linked) (span : Span) (target : Target) : Prop :=
  ∃ key i, (key, i) ∈ l.instances.toList ∧ key.target = target ∧ job.Emits l linked key i ∧
    (job.rootSpliced l).Shows job.root.parsed span i.name.toList

variable {job} {l : Linkage} {linked : Linked} {key : InstanceKey} {i : Instance}
  {path : ModulePath} {bound : Nat} {used exportPath : List String} {given : Option (List String)}
  {span : Span} {target : Target}

/-- The declarations of the root are instances. -/
theorem Closed.exists_own (h : job.Closed l) {index : Nat} {d : Decl}
    (hd : job.root.decl? index = some d) :
    ∃ i, (⟨.decl job.root.path index, []⟩, i) ∈ l.instances.toList := by
  have hstart : ⟨.decl job.root.path index, []⟩ ∈ job.start.instances.keys :=
    mem_keys_start_iff.2 ⟨(index, d), Module.mem_decls_iff.2 hd, rfl⟩
  obtain ⟨e, he, hkey⟩ := List.mem_map.1 (h.grows.keys.subset hstart)
  exact ⟨e.2, hkey ▸ he⟩

/-- The linked text has every instance. -/
theorem Closed.emits (h : job.Closed l) (hjob : job.Sound) (houtput : job.output l = .ok linked)
    (hmem : (key, i) ∈ l.instances.toList) (hhas : job.registry.Has key.target) :
    job.Emits l linked key i := by
  cases hown : job.isOwn key with
  | true =>
    obtain ⟨index, rfl⟩ := exists_index_of_isOwn hown
    obtain ⟨m, d, hm, hd⟩ := hhas
    obtain rfl := Option.some.inj (hjob.root.symm.trans hm)
    exact .inl ⟨index, d, rfl, hd, h.shows_name_root hjob hmem hd List.mem_cons_self⟩
  | false =>
    obtain ⟨conditions, hconditions⟩ := hjob.built.exists_parsedUnder
    obtain ⟨place, hplace⟩ := List.getElem?_of_mem hmem
    obtain ⟨piece?, hpiece, hleads⟩ :=
      h.exists_piece hjob hconditions (e := ((key, i), place)) hmem
    have hsome := isSome_pieceTraced? conditions (e := ((key, i), place)) hhas
    cases piece? with
    | none =>
      rw [hleads.1, hown] at hsome
      cases hsome
    | some piece =>
      exact .inr ⟨place, piece, hplace, hpiece, (h.infix_output hjob houtput).2 _
        (List.mem_zipIdx_iff_getElem?.2 hplace) piece hpiece⟩

/-- Uses in declarations are linked. -/
theorem Closed.links_declUse (h : job.Closed l) (hjob : job.Sound)
    (houtput : job.output l = .ok linked) (huse : job.root.DeclUse used span)
    (hfound : job.resolution job.root used = .found target exportPath given) :
    job.LinksUse l linked span target := by
  obtain ⟨index, d, hd, huses, hunbound⟩ := huse
  obtain ⟨options, file, source, hparse⟩ := hjob.built.parsed hjob.root
  obtain ⟨r, hr, rfl, rfl⟩ := (Module.decl_uses_iff hparse
    (List.mem_of_getElem? (Module.mem_elements_of_decl? hd))).1 huses
  obtain ⟨own, hown⟩ := h.exists_own hd
  have hkey : job.referenceKey? l job.root [] r =
      some (job.importedKey l job.root [] target (given.getD [])) := by
    rw [referenceKey?, hunbound r hr rfl, hfound]
    rfl
  have hreached := (h.settled _ own hown).reached _ _ _ _ rfl (decl?_of_module? hjob.root hd) r hr
    _ hkey
  obtain ⟨⟨key, i⟩, hmem, heq⟩ := List.mem_map.1 hreached
  obtain rfl : key = _ := heq
  have hhas : job.registry.Has target := has_of_resolution hjob.built hfound
  refine ⟨_, i, hmem, rfl, h.emits hjob houtput hmem hhas, ?_⟩
  refine h.shows_name_root hjob hown hd (p := (r.span, i.name))
    (List.mem_cons_of_mem _ (List.mem_filterMap.2 ⟨r, hr, ?_⟩))
  rw [hkey, Option.bind_some, Linkage.name?_of_mem hmem]
  rfl

/-- Uses in `const_assert` statements are left as they are written. -/
theorem Closed.shows_assertUse (h : job.Closed l) (hjob : job.Sound)
    (huse : job.root.AssertUse used span) :
    ∃ written, job.root.text.slice? span = some written ∧
      (job.rootSpliced l).Shows job.root.parsed span written := by
  obtain ⟨place, t, s, htext, hslice, hasserts, rfl, -⟩ := huse
  obtain ⟨hfits, hinside⟩ := hasserts.fits.shift hslice
  obtain ⟨written, hwritten⟩ := hfits.exists_slice?
  exact ⟨written, hwritten, h.shows_text_root hjob htext hfits hinside hwritten⟩

/-- A use of an imported name in what stays of the root is linked exactly if it is in a declaration,
or what is written happens to be the name of an instance of the target. -/
theorem links_use_iff (hr : job.registry.Built) (hroot : job.registry.root path = .ok job.root)
    (hlink : job.registry.link job.options path bound = .ok linked) :
    ∃ l, job.close bound = .ok l ∧ (job.rootSpliced l).text <:+: linked.map.text ∧
      ∀ used span target exportPath given,
        job.root.DeclUse used span ∨ job.root.AssertUse used span →
        job.resolution job.root used = .found target exportPath given →
        (job.LinksUse l linked span target ↔ job.root.DeclUse used span ∨
          ∃ key i, (key, i) ∈ l.instances.toList ∧ key.target = target ∧
            job.root.text.slice? span = some i.name.toList) := by
  have hjob := sound_of_root hr hroot
  obtain ⟨root, l, hroot', hclose, houtput⟩ := Registry.exists_of_link hlink
  obtain rfl : job.root = root := Except.ok.inj (hroot.symm.trans hroot')
  have h : job.Closed l := closed_of_close hjob hclose
  refine ⟨l, hclose, (h.infix_output hjob houtput).1,
    fun used span target exportPath given huse hfound ↦ ?_⟩
  -- uses in declarations are renamed, and uses in assertions are shown as they are written
  by_cases hdecl : job.root.DeclUse used span
  · exact ⟨fun _ ↦ .inl hdecl, fun _ ↦ h.links_declUse hjob houtput hdecl hfound⟩
  · obtain ⟨written, hwritten, hshows⟩ := h.shows_assertUse hjob (huse.resolve_left hdecl)
    constructor
    · rintro ⟨key, i, hmem, htarget, -, hname⟩
      exact .inr ⟨key, i, hmem, htarget, hname.unique hshows ▸ hwritten⟩
    · rintro (huse | ⟨key, i, hmem, rfl, hname⟩)
      · exact absurd huse hdecl
      · obtain rfl := Option.some.inj (hwritten.symm.trans hname)
        exact ⟨key, i, hmem, rfl,
          h.emits hjob houtput hmem (has_of_resolution hjob.built hfound), hshows⟩

end LinkJob

namespace Registry

/-- A root that uses an imported constant in nothing but a `const_assert` statement. -/
def asserting : Registry :=
  ofSources .default
    [("main", "import lib/N;\nconst_assert N > 1;\n".toList), ("lib", "const N = 4;\n".toList)] []

theorem asserts_asserting : Text.Asserts "const_assert N > 1;".toList ["N"] ⟨13, 1⟩ :=
  ⟨100, .value, by decide +kernel⟩

/-- The constant is imported, and nothing of it is in the linked text. -/
theorem links_use_iff_asserting : ∃ root l linked, asserting.root ["main"] = .ok root ∧
    (⟨asserting, ⟨.empty, false⟩, root⟩ : LinkJob).close 5 = .ok l ∧
    asserting.link ⟨.empty, false⟩ ["main"] 5 = .ok linked ∧
    linked.map.text = "const_assert N > 1;\n".toList ∧ root.AssertUse ["N"] ⟨27, 1⟩ ∧
    (⟨asserting, ⟨.empty, false⟩, root⟩ : LinkJob).resolution root ["N"] =
      .found (.decl ["lib"] 0) ["lib", "N"] none ∧
    ¬(⟨asserting, ⟨.empty, false⟩, root⟩ : LinkJob).LinksUse l linked ⟨27, 1⟩
      (.decl ["lib"] 0) := by
  have heval : (do
      let root ← (asserting.root ["main"]).toOption
      let job : LinkJob := ⟨asserting, ⟨.empty, false⟩, root⟩
      let l ← (job.close 5).toOption
      let linked ← (asserting.link ⟨.empty, false⟩ ["main"] 5).toOption
      let e ← root.elements[1]?
      let t ← root.text.slice? ⟨14, 19⟩
      return ((e.outer?, e.isLinkage, e.decl?.isSome),
        [root.decls.length, l.instances.keys.length], job.resolution root ["N"],
        [linked.map.text, t])) =
      some ((some ⟨14, 19⟩, false, false), [0, 0], .found (.decl ["lib"] 0) ["lib", "N"] none,
        ["const_assert N > 1;\n".toList, "const_assert N > 1;".toList]) := by
    decide +kernel
  obtain ⟨root, hroot, heval⟩ := Option.bind_eq_some_iff.1 heval
  obtain ⟨l, hclose, heval⟩ := Option.bind_eq_some_iff.1 heval
  obtain ⟨linked, hlink, heval⟩ := Option.bind_eq_some_iff.1 heval
  obtain ⟨e, he, heval⟩ := Option.bind_eq_some_iff.1 heval
  obtain ⟨t, hslice, heval⟩ := Option.bind_eq_some_iff.1 heval
  obtain ⟨helement, heval⟩ := Prod.mk.inj (Option.some.inj heval)
  obtain ⟨hcounts, heval⟩ := Prod.mk.inj heval
  obtain ⟨hfound, htext⟩ := Prod.mk.inj heval
  obtain ⟨hdecls, hcounts⟩ := List.cons.inj hcounts
  have hkeys := (List.cons.inj hcounts).1
  obtain ⟨htext, ht⟩ := List.cons.inj htext
  rw [(List.cons.inj ht).1] at hslice
  have hdecls := List.length_eq_zero_iff.1 hdecls
  have hkeys := List.length_eq_zero_iff.1 hkeys
  have hroot := Except.eq_ok_of_toOption hroot
  have hclose := Except.eq_ok_of_toOption hclose
  have hlink := Except.eq_ok_of_toOption hlink
  have hbuilt : asserting.Built := (built_ofSources _ _ _).1
  have huse : root.AssertUse ["N"] ⟨27, 1⟩ := by
    refine ⟨⟨14, 19⟩, _, ⟨13, 1⟩, ?_, hslice, asserts_asserting, rfl, by simp [hdecls]⟩
    obtain ⟨hspan, hother⟩ := Prod.mk.inj helement
    obtain ⟨hlinkage, hdecl⟩ := Prod.mk.inj hother
    cases e with
    | text span =>
      obtain rfl := Option.some.inj hspan
      exact List.mem_of_getElem? he
    | decl d => cases hdecl
    | member name span => cases hspan
    | reference reference => cases hspan
    | _ => cases hlinkage
  -- nothing below depends on what the registry is
  generalize asserting = r at hroot hclose hlink hfound hbuilt ⊢
  obtain ⟨l', hclose', -, hiff⟩ := @LinkJob.links_use_iff ⟨r, ⟨.empty, false⟩, root⟩ linked ["main"]
    5 hbuilt hroot hlink
  obtain rfl := Except.ok.inj (hclose.symm.trans hclose')
  refine ⟨root, l, linked, hroot, hclose, hlink, htext, huse, hfound, fun hlinks ↦ ?_⟩
  rcases (hiff _ _ _ _ _ (.inr huse) hfound).1 hlinks with
    ⟨index, d, hd, -⟩ | ⟨key, i, hmem, -⟩
  · have hmem := Module.mem_decls_iff.2 hd
    rw [hdecls] at hmem
    exact absurd hmem List.not_mem_nil
  · have hkey : key ∈ l.instances.keys := List.mem_map_of_mem hmem
    rw [hkeys] at hkey
    exact absurd hkey List.not_mem_nil

end Registry

end ShaderLink
