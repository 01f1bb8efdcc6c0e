import ShaderLink.Proofs.Link.RoundTrip
import ShaderLink.Proofs.Link.Spelling
import ShaderLink.Proofs.Module.Parts

/-!
# Linking what has been linked

A linked text without generated parts and without values of parameters is nothing but declarations
and statements: what is left of the text of the root, and what is taken out of other modules, which
the linker puts line breaks between (`LinkJob.Closed.isListing_traced`). If none of its lines is a
directive for conditional lines, it is parsed as it is and is self-contained
(`Text.IsListing.exists_parse`). So by itself it is linked to itself (`LinkJob.relink`).
-/

namespace ShaderLink

/-! ### Listings one behind the other -/

namespace Traced

variable {tr root : Traced} {directives pieces : List Traced}

/-- A listing that is ended with a blank line does not end with a comment. -/
theorem lists_endLine (h : tr.text.IsListing) : tr.endLine.text.Lists := by
  have hlists {rest : Text} (hrest : tr.text.reverse = '\n' :: rest) : tr.text.Lists := by
    refine h.lists fun c hc ↦ ?_
    rw [List.getLast?_eq_head?_reverse, hrest] at hc
    obtain rfl := Option.some.inj hc
    rfl
  rw [endLine]
  split
  · rename_i hnil
    refine h.lists fun c hc ↦ ?_
    rw [List.reverse_eq_nil_iff.1 hnil] at hc
    cases hc
  · rename_i hrest
    exact hlists hrest
  · rename_i hrest
    exact (hlists hrest).append (Text.lists_breaks 1)
  · exact h.append_breaks 1

theorem isListing_assemble (hdirectives : ∀ d ∈ directives, d.text.Lists)
    (hroot : root.text.IsListing) (hpieces : ∀ p ∈ pieces, p.text.Lists) :
    (assemble directives root pieces).text.IsListing := by
  have hfront (tr : Traced) (h : tr.text.Lists) :
      (directives.foldl (fun tr d ↦ tr ++ d ++ separator 1) tr).text.Lists := by
    induction directives generalizing tr with
    | nil => exact h
    | cons d directives ih =>
      obtain ⟨hd, hdirectives⟩ := List.forall_mem_cons.1 hdirectives
      exact ih hdirectives _ ((h.append hd).append (Text.lists_breaks 1))
  have hall (tr : Traced) (h : tr.text.IsListing) :
      (pieces.foldl (fun tr piece ↦ tr.endLine ++ piece) tr).text.IsListing := by
    induction pieces generalizing tr with
    | nil => exact h
    | cons p pieces ih =>
      obtain ⟨hp, hpieces⟩ := List.forall_mem_cons.1 hpieces
      exact ih hpieces _ ((lists_endLine h).append hp).isListing
  exact hall _ ((hfront empty Text.lists_nil).append_isListing hroot)

end Traced

/-! ### Parsing a listing -/

theorem Item.IsPlain.cuts_eq {i : Item} (h : i.IsPlain) : i.cuts = [] := by
  cases i with
  | decl d =>
    have hnone : d.exportSpan = none := h
    rw [cuts, hnone]
    rfl
  | text span => rfl
  | _ => cases h

/-- A listing without directives for conditional lines is parsed as it is, under whatever
conditions, and makes a self-contained module. -/
theorem Text.IsListing.exists_parse {t : Text} (h : t.IsListing)
    (hlines : ∀ line ∈ t.lines, Conditional.directive? line = none) :
    ∃ steps, ∀ conditions maxSteps file, steps ≤ maxSteps →
      ∃ m, Module.parse ⟨conditions, maxSteps⟩ file t = .ok m ∧ m.SelfContained ∧ m.text = t := by
  obtain ⟨items, c', steps, hplain, hrun⟩ := h.exists_run_items
  refine ⟨steps, fun conditions maxSteps file hle ↦ ?_⟩
  obtain ⟨e, hrun⟩ := hrun maxSteps hle
  have htext := Conditional.text_process hlines conditions ⟨file⟩
  refine ⟨Module.ofItems file t (Conditional.process conditions ⟨file⟩ t) items,
    Module.parse_of_run (by rw [htext]; exact hrun),
    fun e he ↦ Bool.eq_false_iff.2 fun hlinkage ↦ ?_, htext⟩
  · -- what directs the linking is what would be cut out of the items
    have hspans := Module.spans_ofItems file t (Conditional.process conditions ⟨file⟩ t) items
    rw [List.flatMap_eq_nil_iff.2 fun i hi ↦ (hplain i hi).cuts_eq, List.map_eq_nil_iff] at hspans
    exact List.filter_eq_nil_iff.1 hspans e he hlinkage

/-! ### The linked text is a listing -/

/-- All instances are declarations without values of parameters. -/
def Linkage.Plain (l : Linkage) : Prop :=
  ∀ key ∈ l.instances.keys, key.args = [] ∧ ∃ module index, key.target = .decl module index

namespace LinkJob

variable {job : LinkJob} {conditions : ModulePath → String → Bool} {l : Linkage} {bound : Nat}
  {path : ModulePath} {key : InstanceKey} {i : Instance} {m : Module} {d : Decl}

/-- What is put in the text of a declaration are names. -/
theorem Closed.isName_of_mem_renames (h : job.Closed l) (hjob : job.Sound) (hplain : l.Plain)
    (hmem : (key, i) ∈ l.instances.toList) {module : ModulePath} {index : Nat}
    (htarget : key.target = .decl module index) (hdecl : job.decl? module index = some (m, d)) :
    ∀ s ∈ i.renames, s.text.IsName := by
  rw [(h.settled key i hmem).renames_decl htarget hdecl, declRenames]
  refine List.forall_mem_append.2 ⟨fun s hs ↦ ?_, fun s hs ↦ ?_⟩
  · split at hs
    · cases hs
    · obtain rfl := List.mem_singleton.1 hs
      exact h.valid.isName_decl hjob htarget hdecl (Linkage.name?_of_mem hmem)
  · obtain ⟨reference, -, hs⟩ := List.mem_filterMap.1 hs
    obtain ⟨name, hname, hs⟩ := Option.bind_eq_some_iff.1 hs
    obtain ⟨key', hkey', hname⟩ := Option.bind_eq_some_iff.1 hname
    split at hs
    · cases hs
    · obtain rfl := Option.some.inj hs
      have hm := hjob.module?_path (decl?_eq_some hdecl).1
      rcases target_of_referenceKey? hjob hm hkey' with
        ⟨module', index', m', d', htarget', hdecl'⟩ | ⟨module', base, htarget'⟩
      · exact h.valid.isName_decl hjob htarget' hdecl' hname
      · obtain ⟨-, module'', index', hdecl'⟩ :=
          hplain key' (Linkage.mem_keys_iff_name?.2 ⟨name, hname⟩)
        rw [htarget'] at hdecl'
        cases hdecl'

theorem Closed.isListing_rootTraced (h : job.Closed l) (hjob : job.Sound)
    (hconditions : job.registry.ParsedUnder conditions) (hplain : l.Plain)
    (hwarnings : job.root.warnings = []) (hapart : job.root.NumbersApart) :
    (job.rootTraced conditions l).text.IsListing := by
  obtain ⟨options, file, source, hparse⟩ := hjob.built.parsed hjob.root
  refine Module.isListing_splice hparse hwarnings hapart
    (moduleSound hjob hconditions hjob.root).text_eq (h.suit_root hjob) fun s hs ↦ ?_
  obtain ⟨r, hr, hs⟩ := List.mem_flatMap.1 hs
  obtain ⟨d, hd, hrenames⟩ := (h.renamesAt hjob).2 r hr (List.ne_nil_of_mem hs)
  refine ⟨?_, d, List.mem_of_getElem? (Module.mem_elements_of_decl? hd),
    hrenames.subset (List.mem_map_of_mem hs)⟩
  obtain ⟨⟨key, i⟩, hmem, rfl⟩ := List.mem_map.1 hr
  have hmem := (List.mem_filter.1 hmem).1
  obtain ⟨module, index, m, d, htarget, hdecl⟩ :=
    (h.settled key i hmem).exists_decl (List.ne_nil_of_mem hs)
  exact h.isName_of_mem_renames hjob hplain hmem htarget hdecl s hs

/-- The text of an instance is a declaration. -/
theorem Closed.lists_pieceTraced (h : job.Closed l) (hjob : job.Sound)
    (hconditions : job.registry.ParsedUnder conditions) (hplain : l.Plain)
    (hapart : ∀ m ∈ job.contributors l, m.NumbersApart) {e : (InstanceKey × Instance) × Nat}
    (hmem : e.1 ∈ l.instances.toList) {piece : Traced}
    (hpiece : job.pieceTraced? conditions e = some piece) : piece.text.Lists := by
  obtain ⟨⟨⟨target, args⟩, i⟩, place⟩ := e
  obtain ⟨rfl, module, index, rfl⟩ := hplain _ (List.mem_map_of_mem hmem)
  rw [pieceTraced?] at hpiece
  split at hpiece
  · cases hpiece
  · obtain ⟨⟨m, d⟩, hdecl, rfl⟩ := Option.map_eq_some_iff.1 hpiece
    obtain ⟨hm, hd⟩ := decl?_eq_some hdecl
    have hd := List.mem_of_getElem? (Module.mem_elements_of_decl? hd)
    obtain ⟨options, file, source, hparse⟩ := hjob.built.parsed hm
    obtain ⟨front, gs, back, hchain⟩ := Module.exists_chain hparse hd
    have hrenames : d.Renames m i.renames := by
      rw [(h.settled _ i hmem).renames_decl rfl hdecl]
      exact renames_declRenames l m d [] i.name
    exact hchain.lists_splice (hapart m (h.mem_contributors hmem rfl hm) _ hd rfl _ rfl) hrenames
      (h.suit_renames hjob hmem rfl hdecl) (h.isName_of_mem_renames hjob hplain hmem rfl hdecl)
      (moduleSound hjob hconditions hm).text_eq

theorem lists_directive (hjob : job.Sound) (hconditions : job.registry.ParsedUnder conditions)
    (hapart : ∀ m ∈ job.contributors l, m.NumbersApart) {e : Module × Span}
    (he : e ∈ job.foreignDirectives l) :
    ((moduleTraced conditions e.1).excerpt e.2 [] []).text.Lists := by
  obtain ⟨hmem, helement⟩ := exists_of_mem_foreignDirectives he
  obtain ⟨path, hm⟩ := exists_path_of_mem_contributors hmem
  obtain ⟨options, file, source, hparse⟩ := hjob.built.parsed hm
  have hsound := moduleSound hjob hconditions hm
  obtain ⟨t, ht⟩ := (hsound.inOrder.fits_outer helement rfl).exists_slice?
  have hslice : ((moduleTraced conditions e.1).slice e.2).text = t :=
    (Traced.slice_of_slice? (by rw [← hsound.text_eq]; exact ht)).1
  have hspan : Span.between e.2.start e.2.stop = e.2 := by
    rw [Span.between, Span.stop, Nat.add_sub_cancel_left]
  show ((moduleTraced conditions e.1).slice (Span.between e.2.start e.2.stop)).text.Lists
  rw [hspan, hslice]
  exact Module.lists_slice hparse (hapart e.1 hmem) helement ht

/-- The text that a plain linkage means is nothing but declarations and statements. -/
theorem Closed.isListing_traced (h : job.Closed l) (hjob : job.Sound)
    (hconditions : job.registry.ParsedUnder conditions) (hplain : l.Plain)
    (hwarnings : job.root.warnings = []) (hapart : ∀ m ∈ job.contributors l, m.NumbersApart) :
    (job.traced conditions l).text.IsListing := by
  refine Traced.isListing_assemble (fun tr htr ↦ ?_) ?_ fun tr htr ↦ ?_
  · obtain ⟨e, he, rfl⟩ := List.mem_map.1 htr
    exact lists_directive hjob hconditions hapart he
  · exact h.isListing_rootTraced hjob hconditions hplain hwarnings
      (hapart job.root (h.root_mem_contributors hjob))
  · obtain ⟨e, he, htr⟩ := List.mem_filterMap.1 htr
    exact h.lists_pieceTraced hjob hconditions hplain hapart (List.fst_mem_of_mem_zipIdx he) htr

/-! ### Linking again -/

/-- A linked text without generated parts and without values of parameters, of modules that are
parsed without a warning and in which no number stands directly in front of an identifier, is parsed
as a self-contained module, given enough steps, if none of its lines is a directive for conditional
lines. Alone in a registry this module is linked to exactly the same text. -/
theorem relink (hr : job.registry.Built) (hroot : job.registry.root path = .ok job.root)
    (hclose : job.close bound = .ok l) {linked : Linked}
    (hlink : job.registry.link job.options path bound = .ok linked) (hplain : l.Plain)
    (hmodules : ∀ m ∈ job.contributors l, m.warnings = [] ∧ m.NumbersApart)
    (hlines : ∀ line ∈ linked.map.text.lines, Conditional.directive? line = none) :
    ∃ steps, ∀ conditions maxSteps file, steps ≤ maxSteps →
      ∃ m, Module.parse ⟨conditions, maxSteps⟩ file linked.map.text = .ok m ∧
        m.SelfContained ∧ m.text = linked.map.text ∧
        ∀ options bound', m.decls.length ≤ bound' → ∃ relinked,
          ((Registry.empty ⟨conditions, maxSteps⟩).addSource file linked.map.text).2.link options
            m.path bound' = .ok relinked ∧ relinked.map.text = linked.map.text := by
  have hjob := sound_of_root hr hroot
  have hclosed := closed_of_close hjob hclose
  obtain ⟨conditions, hconditions⟩ := hr.exists_parsedUnder
  obtain ⟨linked', houtput, -, htraces, -⟩ := hclosed.exists_output hjob hconditions
  rw [link_of_close hroot hclose, houtput] at hlink
  obtain rfl := Except.ok.inj hlink
  -- nothing but declarations is in the linked text, so it can be read again
  have hlisting := hclosed.isListing_traced hjob hconditions hplain
    (hmodules job.root (hclosed.root_mem_contributors hjob)).1 fun m hm ↦ (hmodules m hm).2
  rw [← htraces.text] at hlisting
  obtain ⟨steps, hparse⟩ := hlisting.exists_parse hlines
  refine ⟨steps, fun conditions maxSteps file hle ↦ ?_⟩
  obtain ⟨m, hparse, hself, htext⟩ := hparse conditions maxSteps file hle
  refine ⟨m, hparse, hself, htext, fun options bound' hbound ↦ ?_⟩
  have hfound : ((Registry.empty ⟨conditions, maxSteps⟩).addSource file linked'.map.text).2.root
      m.path = .ok m := by
    have hmodule := (Registry.Coherent.empty ⟨conditions, maxSteps⟩).module?_addSource hparse
    rw [Registry.root, hmodule]
  have hbuilt : ((Registry.empty ⟨conditions, maxSteps⟩).addSource file linked'.map.text).2.Built :=
    .addSource (.empty _) _ _
  obtain ⟨conditions', hconditions'⟩ := hbuilt.exists_parsedUnder
  -- what is read needs no other module, and linking such a module changes nothing
  obtain ⟨l', relinked, -, -, hrelinked, -, -, hsame, -⟩ :=
    @exists_link ⟨_, options, m⟩ conditions' bound' m.path hbuilt hfound hself hconditions' hbound
  exact ⟨relinked, hrelinked, hsame.trans htext⟩

end LinkJob

namespace Registry

/-- A root that ends with a comment, and two functions of the name `f` for it from modules in which
other text stands around them. -/
def scattered : Registry :=
  ofSources .default
    [("main", ("import lib/f; import other/f as g;\nenable f16; // ours\n#export fn main() \x7b " ++
        "f(2); g(0x1u); var f0 = 1; \x7d // the end").toList),
      ("lib", ("enable f16;\nenable f64;\nfn h() \x7b\x7d\n" ++
        "#export\nfn f(x: i32) \x7b h(); \x7d\n" ++
        "const a = 1u;\n").toList),
      ("other", ("#export\nfn f(x: u32) \x7b f(x); h(); \x7d\n" ++
        "/* a */ fn h() \x7b\x7d\n").toList)]
    []

/-- The linked text of the root that ends with a comment stays the same when it is linked again. -/
theorem relink_scattered : ∃ root l linked, scattered.root ["main"] = .ok root ∧
    (⟨scattered, ⟨.empty, false⟩, root⟩ : LinkJob).close 10 = .ok l ∧
    scattered.link ⟨.empty, false⟩ ["main"] 10 = .ok linked ∧
    linked.map.text = ("enable f64;\n enable f16; // ours\n fn main() \x7b " ++
      "f(2); f1(0x1u); var f0 = 1; \x7d // the end\n\nfn f(x: i32) \x7b h(); \x7d\n\n" ++
      "fn f1(x: u32) \x7b f1(x); h0(); \x7d\n\nfn h() \x7b\x7d\n\nfn h0() \x7b\x7d").toList ∧
    l.Plain ∧
    (∀ m ∈ (⟨scattered, ⟨.empty, false⟩, root⟩ : LinkJob).contributors l,
      m.warnings = [] ∧ m.NumbersApart) ∧
    (∀ line ∈ linked.map.text.lines, Conditional.directive? line = none) ∧
    ∃ steps, ∀ conditions maxSteps file, steps ≤ maxSteps →
      ∃ m, Module.parse ⟨conditions, maxSteps⟩ file linked.map.text = .ok m ∧
        m.SelfContained ∧ m.text = linked.map.text ∧
        ∀ options bound', m.decls.length ≤ bound' → ∃ relinked,
          ((empty ⟨conditions, maxSteps⟩).addSource file linked.map.text).2.link options
            m.path bound' = .ok relinked ∧ relinked.map.text = linked.map.text := by
  have heval : (do
      let root ← (scattered.root ["main"]).toOption
      let job : LinkJob := ⟨scattered, ⟨.empty, false⟩, root⟩
      let l ← (job.close 10).toOption
      let linked ← (scattered.link ⟨.empty, false⟩ ["main"] 10).toOption
      return (l.instances.keys, linked.map.text,
        decide (∀ m ∈ job.contributors l, m.warnings = [] ∧ m.NumbersApart),
        decide (∀ line ∈ linked.map.text.lines, Conditional.directive? line = none))) =
      some ([⟨.decl ["main"] 4, []⟩, ⟨.decl ["lib"] 4, []⟩, ⟨.decl ["other"] 1, []⟩,
          ⟨.decl ["lib"] 2, []⟩, ⟨.decl ["other"] 6, []⟩],
        ("enable f64;\n enable f16; // ours\n fn main() \x7b " ++
          "f(2); f1(0x1u); var f0 = 1; \x7d // the end\n\nfn f(x: i32) \x7b h(); \x7d\n\n" ++
          "fn f1(x: u32) \x7b f1(x); h0(); \x7d\n\nfn h() \x7b\x7d\n\nfn h0() \x7b\x7d").toList,
        true, true) := by
    decide +kernel
  obtain ⟨root, hroot, heval⟩ := Option.bind_eq_some_iff.1 heval
  obtain ⟨l, hclose, heval⟩ := Option.bind_eq_some_iff.1 heval
  obtain ⟨linked, hlink, heval⟩ := Option.bind_eq_some_iff.1 heval
  obtain ⟨hkeys, heval⟩ := Prod.mk.inj (Option.some.inj heval)
  obtain ⟨htext, heval⟩ := Prod.mk.inj heval
  obtain ⟨hmodules, hlines⟩ := Prod.mk.inj heval
  have hmodules := of_decide_eq_true hmodules
  have hlines := of_decide_eq_true hlines
  have hroot := Except.eq_ok_of_toOption hroot
  have hclose := Except.eq_ok_of_toOption hclose
  have hlink := Except.eq_ok_of_toOption hlink
  have hbuilt : scattered.Built := (built_ofSources _ _ _).1
  have hplain : l.Plain := fun key hkey ↦ by
    rw [hkeys] at hkey
    simp only [List.mem_cons, List.not_mem_nil, or_false] at hkey
    rcases hkey with rfl | rfl | rfl | rfl | rfl <;> exact ⟨rfl, _, _, rfl⟩
  -- nothing below depends on what the registry is
  generalize scattered = r at hroot hclose hlink hmodules hbuilt ⊢
  exact ⟨root, l, linked, hroot, hclose, hlink, htext, hplain, hmodules, hlines,
    @LinkJob.relink ⟨r, ⟨.empty, false⟩, root⟩ l 10 ["main"] hbuilt hroot hclose linked hlink
      hplain hmodules hlines⟩

end Registry

end ShaderLink
