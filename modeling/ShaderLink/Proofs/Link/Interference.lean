import ShaderLink.Proofs.Link.Provenance
import ShaderLink.Proofs.Link.Spelling

/-!
# Values of parameters and names of instances

An instance with values of parameters is first renamed and then has its words replaced by the
values. The second step does not know what the first has put in. So the name of an instance stands
where it should exactly if the name is not that of a parameter with another value
(`LinkJob.shows_name_iff`). Names are chosen without regard to parameters, and nothing prevents that
an instance comes to be called like one.
-/

namespace ShaderLink

open Lexeme

namespace Traced

variable {tr tr' : Traced}

theorem text_slice (tr : Traced) (s : Span) : (tr.slice s).text = (tr.text.slice? s).getD [] := by
  rw [slice]
  split
  · rename_i hnone
    rw [hnone]
    rfl
  · rename_i inside hsome
    exact (congrArg (Option.getD · []) hsome).symm

/-- What is spliced depends on the text only. -/
theorem text_spliced_congr (h : tr.text = tr'.text) (start stop : Nat) (splices : List Splice) :
    (tr.spliced start stop splices).text = (tr'.spliced start stop splices).text := by
  induction splices generalizing start with
  | nil => rw [spliced, spliced, text_slice, text_slice, h]
  | cons s ss ih =>
    rw [spliced, spliced, text_append, text_append, text_append, text_append, ih, text_slice,
      text_slice, h]
    rfl

theorem text_excerpt_congr (h : tr.text = tr'.text) (bounds : Span) (splices : List Splice)
    (args : Args) :
    (tr.excerpt bounds splices args).text = (tr'.excerpt bounds splices args).text := by
  have hcut : (tr.splice bounds splices).text = (tr'.splice bounds splices).text :=
    text_spliced_congr h _ _ _
  rw [excerpt, excerpt]
  split
  · exact hcut
  · rw [hcut]
    exact text_spliced_congr hcut _ _ _

end Traced

namespace Module

variable (m : Module)

/-- The parsed text as a source of its own. -/
def parsed : SourceText :=
  ⟨m.map.id, m.text⟩

/-- An excerpt whose bytes know which bytes of the parsed text they have come from. -/
def excerpted (span : Span) (splices : List Splice) (args : Args) : Traced :=
  (Traced.copy m.parsed 0 m.text).excerpt span splices args

end Module

namespace LinkJob

variable (job : LinkJob)

/-- The places in a declaration that an instance has a name in: its own name in that of the
declaration, and the names of those that it refers to in the references. -/
def namesIn (l : Linkage) (m : Module) (d : Decl) (args : Args) (name : String) :
    List (Span × String) :=
  (d.nameSpan, name) :: (m.references d).filterMap fun r ↦
    ((job.referenceKey? l m args r).bind l.name?).map fun n ↦ (r.span, n)

variable {job} {l : Linkage} {m : Module} {d : Decl} {args : Args} {name : String}
  {key : InstanceKey} {i : Instance} {p : Span × String} {front back : Text} {gs : List Group}

theorem mem_spans_of_mem_namesIn (h : p ∈ job.namesIn l m d args name) :
    p.1 ∈ d.nameSpan :: (m.references d).map Reference.span := by
  rcases List.mem_cons.1 h with rfl | h
  · exact List.mem_cons_self
  · obtain ⟨r, hr, hname⟩ := List.mem_filterMap.1 h
    obtain ⟨n, -, rfl⟩ := Option.map_eq_some_iff.1 hname
    exact List.mem_cons_of_mem _ (List.mem_map_of_mem hr)

/-- All splices of an instance are for the names in it. -/
theorem mem_namesIn_of_mem_declRenames {s : Splice} (h : s ∈ job.declRenames l m d args name) :
    ∃ p ∈ job.namesIn l m d args name, s = ⟨p.1, p.2.toList⟩ := by
  rcases List.mem_append.1 h with h | h
  · split at h
    · exact absurd h List.not_mem_nil
    · exact ⟨_, List.mem_cons_self, List.mem_singleton.1 h⟩
  · obtain ⟨r, hr, hrename⟩ := List.mem_filterMap.1 h
    obtain ⟨n, hn, hsplice⟩ := Option.bind_eq_some_iff.1 hrename
    split at hsplice
    · cases hsplice
    · refine ⟨(r.span, n), List.mem_cons_of_mem _ (List.mem_filterMap.2 ⟨r, hr, ?_⟩),
        (Option.some.inj hsplice).symm⟩
      rw [hn]
      rfl

/-- There is one name for each place. -/
theorem eq_of_mem_namesIn (hnodup : (d.nameSpan :: (m.references d).map Reference.span).Nodup)
    {p' : Span × String} (h : p ∈ job.namesIn l m d args name)
    (h' : p' ∈ job.namesIn l m d args name) (heq : p.1 = p'.1) : p = p' := by
  obtain ⟨hown, hreferences⟩ := List.nodup_cons.1 hnodup
  have hother {p : Span × String} (h : p ∈ (m.references d).filterMap fun r ↦
      ((job.referenceKey? l m args r).bind l.name?).map fun n ↦ (r.span, n)) :
      ∃ r ∈ m.references d, p.1 = r.span ∧
        (job.referenceKey? l m args r).bind l.name? = some p.2 := by
    obtain ⟨r, hr, hname⟩ := List.mem_filterMap.1 h
    obtain ⟨n, hn, rfl⟩ := Option.map_eq_some_iff.1 hname
    exact ⟨r, hr, rfl, hn⟩
  rcases List.mem_cons.1 h with rfl | h <;> rcases List.mem_cons.1 h' with rfl | h'
  · rfl
  · obtain ⟨r, hr, hspan, -⟩ := hother h'
    exact absurd (List.mem_map.2 ⟨r, hr, (heq.trans hspan).symm⟩) hown
  · obtain ⟨r, hr, hspan, -⟩ := hother h
    exact absurd (List.mem_map.2 ⟨r, hr, (hspan.symm.trans heq)⟩) hown
  · obtain ⟨r, hr, hspan, hn⟩ := hother h
    obtain ⟨r', hr', hspan', hn'⟩ := hother h'
    obtain rfl := List.inj_on_of_nodup_map hreferences hr hr'
      (hspan.symm.trans (heq.trans hspan'))
    exact Prod.ext heq (Option.some.inj (hn.symm.trans hn'))

/-- A splice for the place of a name puts the name there. -/
theorem eq_of_mem_declRenames (hnodup : (d.nameSpan :: (m.references d).map Reference.span).Nodup)
    (h : p ∈ job.namesIn l m d args name) {w : Text}
    (hw : ⟨p.1, w⟩ ∈ job.declRenames l m d args name) : w = p.2.toList := by
  obtain ⟨p', hp', heq⟩ := mem_namesIn_of_mem_declRenames hw
  obtain ⟨hspan, rfl⟩ := Splice.mk.inj heq
  rw [eq_of_mem_namesIn hnodup h hp' hspan]

/-- A name is put in its place unless it stands there already. -/
theorem mem_declRenames_or (hspelled : m.text.slice? d.nameSpan = some d.name.toList)
    (h : p ∈ job.namesIn l m d args name) :
    ⟨p.1, p.2.toList⟩ ∈ job.declRenames l m d args name ∨
      m.text.slice? p.1 = some p.2.toList := by
  rcases List.mem_cons.1 h with rfl | h
  · by_cases hname : name = d.name
    · exact .inr (by rw [hname]; exact hspelled)
    · refine .inl (List.mem_append_left _ ?_)
      rw [if_neg hname]
      exact List.mem_singleton_self _
  · obtain ⟨r, hr, hname⟩ := List.mem_filterMap.1 h
    obtain ⟨n, hn, rfl⟩ := Option.map_eq_some_iff.1 hname
    by_cases hslice : m.text.slice? r.span = some n.toList
    · exact .inr hslice
    · refine .inl (List.mem_append_right _ (List.mem_filterMap.2 ⟨r, hr, ?_⟩))
      rw [renameIn?, hn, Option.bind_some, if_neg hslice]

/-- The splices of an instance leave in each place the name for it. -/
theorem named_of_mem_namesIn (hchain : d.Chain m front gs back)
    (hnodup : (d.nameSpan :: (m.references d).map Reference.span).Nodup)
    (hidentifier : Text.IsIdentifier p.2.toList) (h : p ∈ job.namesIn l m d args name) :
    Traced.Named m.text (job.declRenames l m d args name) p.1 p.2.toList where
  isIdentifier := hidentifier
  eq_of_mem _ hw := eq_of_mem_declRenames hnodup h hw
  mem_or := mem_declRenames_or hchain.spelled h

/-- The names in an instance are identifiers if those of the generators that it refers to are. -/
theorem Valid.isIdentifier_of_mem_namesIn (h : job.Valid l) (hjob : job.Sound)
    {module : ModulePath} {index : Nat} (hdecl : job.decl? module index = some (m, d))
    (hname : l.name? ⟨.decl module index, args⟩ = some name)
    (hgenerators : ∀ r ∈ m.references d, ∀ module base args',
      job.referenceKey? l m args r = some ⟨.generator module base, args'⟩ →
        Text.IsIdentifier base.toList)
    (hp : p ∈ job.namesIn l m d args name) : Text.IsIdentifier p.2.toList := by
  rcases List.mem_cons.1 hp with rfl | hp
  · exact h.isIdentifier_decl hjob rfl hdecl hname
  · obtain ⟨r, hr, hname⟩ := List.mem_filterMap.1 hp
    obtain ⟨n, hn, rfl⟩ := Option.map_eq_some_iff.1 hname
    obtain ⟨⟨target, args'⟩, hkey, hn⟩ := Option.bind_eq_some_iff.1 hn
    have hm := hjob.module?_path (decl?_eq_some hdecl).1
    rcases target_of_referenceKey? hjob hm hkey with
      ⟨module', index', m', d', rfl, hdecl'⟩ | ⟨module', base, rfl⟩
    · exact h.isIdentifier_decl hjob rfl hdecl' hn
    · exact h.isIdentifier_generator hjob rfl (hgenerators r hr module' base args' hkey) hn

/-- In the emitted text of an instance, its own name and the names of those it refers to stand where
they should, except exactly for a name that is also that of a parameter with another value. Behind a
dot such a name stands as well, and it does if the renamed text cannot be read as tokens. -/
theorem shows_name_iff (hr : job.registry.Built) {path : ModulePath}
    (hroot : job.registry.root path = .ok job.root) {bound : Nat} (hclose : job.close bound = .ok l)
    {module : ModulePath} {index : Nat}
    (hmem : (⟨.decl module index, args⟩, i) ∈ l.instances.toList)
    (hown : job.isOwn ⟨.decl module index, args⟩ = false)
    (hdecl : job.decl? module index = some (m, d)) (hapart : m.text.NumbersApart d.span)
    (hgenerators : ∀ r ∈ m.references d, ∀ module base args',
      job.referenceKey? l m args r = some ⟨.generator module base, args'⟩ →
        Text.IsIdentifier base.toList) :
    ∃ cut map : SourceMap, m.excerpt d.span i.renames [] = .ok cut ∧
      (∀ place, job.piece ((⟨.decl module index, args⟩, i), place) = .ok (some ⟨map, none⟩)) ∧
      map.text = (m.excerpted d.span i.renames args).text ∧
      ∀ p ∈ job.namesIn l m d args i.name,
        (m.excerpted d.span i.renames args).Shows m.parsed p.1 p.2.toList ↔
          ∀ tokens value, tokenize cut.text = .ok tokens →
            m.text.behindDot d.span.start p.1.start = false →
            (OrderedMap.ofList args).get? p.2 = some value → value = p.2 := by
  have hjob := sound_of_root hr hroot
  have h := closed_of_close hjob hclose
  obtain ⟨conditions, hconditions⟩ := hr.exists_parsedUnder
  obtain ⟨hm, hd⟩ := decl?_eq_some hdecl
  have hsound := moduleSound hjob hconditions hm
  have hsuit := h.suit_renames hjob hmem rfl hdecl
  obtain ⟨cut, hcut, -, hcutTraces⟩ := hsound.exists_excerpt hsuit []
  obtain ⟨map, hmap, -, hmapTraces⟩ := hsound.exists_excerpt hsuit args
  have htext := hsound.text_eq
  refine ⟨cut, map, hcut, fun place ↦ ?_, ?_, fun p hp ↦ ?_⟩
  · simp [piece, hown, hdecl, hmap, Bind.bind, Except.bind]
    rfl
  · rw [hmapTraces.text]
    exact Traced.text_excerpt_congr htext.symm _ _ _
  · -- without arguments the excerpt is the renamed text
    have hcutText : cut.text = ((Traced.copy m.parsed 0 m.text).splice d.span i.renames).text := by
      rw [hcutTraces.text]
      exact Traced.text_excerpt_congr
        (htext.symm.trans (show m.text = (Traced.copy m.parsed 0 m.text).text from rfl)) _ _ []
    have hrenames := (h.settled _ i hmem).renames_decl rfl hdecl
    dsimp only at hrenames
    obtain ⟨options, file, source, hparse⟩ := hr.parsed hm
    have hdecl' : .decl d ∈ m.elements := List.mem_of_getElem? (Module.mem_elements_of_decl? hd)
    obtain ⟨front, gs, back, hchain⟩ := Module.exists_chain hparse hdecl'
    have hidentifier {p : Span × String} (hp : p ∈ job.namesIn l m d args i.name) :=
      h.valid.isIdentifier_of_mem_namesIn hjob hdecl (Linkage.name?_of_mem hmem) hgenerators hp
    have htexts : ∀ s ∈ i.renames, s.text.IsIdentifier := by
      intro s hs
      rw [hrenames] at hs
      obtain ⟨p', hp', rfl⟩ := mem_namesIn_of_mem_declRenames hs
      exact hidentifier hp'
    have hrenaming := hchain.renames_chain hapart
      (hrenames ▸ renames_declRenames l m d args i.name) hsuit htexts m.map.id
    have hnamed := named_of_mem_namesIn hchain (hsound.inOrder.nodup_names hdecl')
      (hidentifier hp) hp
    rw [← hrenames] at hnamed
    obtain ⟨span, name⟩ := p
    obtain ⟨front', g, behind, rfl, hg, rfl⟩ :=
      exists_of_mem_namedSpans (hchain.mem_namedSpans (mem_spans_of_mem_namesIn hp))
    -- each place that is renamed is decided by the tokens read there in the renamed text
    have hiff := hrenaming.shows_excerpt_iff hg hnamed args hchain.span
    have halong := hchain.along
    rw [List.flatMap_append] at halong
    have hdot := dotBehind_eq halong front
    rw [← List.flatMap_append, ← List.append_assoc, ← hchain.text] at hdot
    have hstart : d.span.start = front.size := by rw [hchain.span]
    rw [hcutText, hstart]
    dsimp only at hiff ⊢
    rw [hdot, String.ofList_toList] at hiff
    exact hiff.trans ⟨fun hall tokens value htokens hbehind hvalue ↦
      String.toList_inj.1 (hall tokens value htokens hbehind hvalue),
      fun hall tokens value htokens hbehind hvalue ↦
        congrArg String.toList (hall tokens value htokens hbehind hvalue)⟩

end LinkJob

namespace Registry

/-- A generic function that calls another function by another name than its own, which is that of
the parameter. -/
def homonymous : Registry :=
  ofSources .default
    [("main", "import lib/f(i32);\nfn main() \x7b f(); \x7d\n".toList),
      ("lib", "import other/T as U;\n#export(T)\nfn f(a: T) \x7b U(a); \x7d\n".toList),
      ("other", "fn T(x: i32) \x7b\x7d\n".toList)] []

/-- The call is emitted as the value of the parameter. -/
theorem shows_name_iff_homonymous : ∃ root l m d i map,
    homonymous.root ["main"] = .ok root ∧
    (⟨homonymous, ⟨.empty, false⟩, root⟩ : LinkJob).close 5 = .ok l ∧
    (⟨.decl ["lib"] 2, [("T", "i32")]⟩, i) ∈ l.instances.toList ∧
    homonymous.module? ["lib"] = some m ∧ m.decl? 2 = some d ∧
    (⟨⟨45, 1⟩, "T"⟩ : Span × String) ∈
      (⟨homonymous, ⟨.empty, false⟩, root⟩ : LinkJob).namesIn l m d [("T", "i32")] i.name ∧
    (∀ place, (⟨homonymous, ⟨.empty, false⟩, root⟩ : LinkJob).piece
      ((⟨.decl ["lib"] 2, [("T", "i32")]⟩, i), place) = .ok (some ⟨map, none⟩)) ∧
    map.text = "fn f(a: i32) \x7b i32(a); \x7d".toList ∧
    ¬(m.excerpted d.span i.renames [("T", "i32")]).Shows m.parsed ⟨45, 1⟩ "T".toList := by
  have heval : (do
      let root ← (homonymous.root ["main"]).toOption
      let job : LinkJob := ⟨homonymous, ⟨.empty, false⟩, root⟩
      let l ← (job.close 5).toOption
      let e ← l.instances.toList[1]?
      let found ← job.decl? ["lib"] 2
      let cut ← (found.1.excerpt found.2.span e.2.renames []).toOption
      let map ← (found.1.excerpt found.2.span e.2.renames e.1.args).toOption
      let tokens ← (tokenize cut.text).toOption
      return (e.1,
        [job.isOwn e.1, found.1.text.behindDot found.2.span.start 45,
          !decide (found.1.text.NumbersApart found.2.span),
          !decide ((⟨⟨45, 1⟩, "T"⟩ : Span × String) ∈
            job.namesIn l found.1 found.2 e.1.args e.2.name),
          map.text != "fn f(a: i32) \x7b i32(a); \x7d".toList],
        ((found.1.references found.2).map (job.referenceKey? l found.1 e.1.args)).map
          (Option.map InstanceKey.target))) =
      some (⟨.decl ["lib"] 2, [("T", "i32")]⟩, List.replicate 5 false,
        [none, some (.decl ["other"] 0), none]) := by
    decide +kernel
  obtain ⟨root, hroot, heval⟩ := Option.bind_eq_some_iff.1 heval
  obtain ⟨l, hclose, heval⟩ := Option.bind_eq_some_iff.1 heval
  obtain ⟨⟨key, i⟩, hget, heval⟩ := Option.bind_eq_some_iff.1 heval
  obtain ⟨⟨m, d⟩, hdecl, heval⟩ := Option.bind_eq_some_iff.1 heval
  obtain ⟨cut, hcut, heval⟩ := Option.bind_eq_some_iff.1 heval
  obtain ⟨map, hmap, heval⟩ := Option.bind_eq_some_iff.1 heval
  obtain ⟨tokens, htokens, heval⟩ := Option.bind_eq_some_iff.1 heval
  obtain ⟨rfl, heval⟩ := Prod.mk.inj (Option.some.inj heval)
  obtain ⟨hflags, htargets⟩ := Prod.mk.inj heval
  obtain ⟨hown, hflags⟩ := List.cons.inj hflags
  obtain ⟨hbehind, hflags⟩ := List.cons.inj hflags
  obtain ⟨hapart, hflags⟩ := List.cons.inj hflags
  obtain ⟨hplace, hflags⟩ := List.cons.inj hflags
  have htext := (List.cons.inj hflags).1
  rw [Bool.not_eq_false', decide_eq_true_iff] at hapart hplace
  rw [bne_eq_false_iff_eq] at htext
  have hroot := Except.eq_ok_of_toOption hroot
  have hclose := Except.eq_ok_of_toOption hclose
  have hcut := Except.eq_ok_of_toOption hcut
  have hmap := Except.eq_ok_of_toOption hmap
  have htokens := Except.eq_ok_of_toOption htokens
  have hbuilt : homonymous.Built := (built_ofSources _ _ _).1
  -- nothing below depends on what the registry is
  generalize homonymous = r at hroot hclose hdecl hown htargets hplace hbuilt ⊢
  obtain ⟨hm, hd⟩ := LinkJob.decl?_eq_some hdecl
  have hmem := List.mem_of_getElem? hget
  obtain ⟨cut', map', hcut', hpiece, -, hshows⟩ := @LinkJob.shows_name_iff
    ⟨r, ⟨.empty, false⟩, root⟩ l m d [("T", "i32")] i hbuilt ["main"] hroot 5 hclose ["lib"] 2 hmem
    hown hdecl hapart fun reference hreference module base args' hkey ↦ by
      have htarget : ((⟨r, ⟨.empty, false⟩, root⟩ : LinkJob).referenceKey? l m [("T", "i32")]
          reference).map InstanceKey.target ∈ _ :=
        List.mem_map_of_mem (List.mem_map_of_mem hreference)
      rw [htargets, hkey] at htarget
      simp at htarget
  obtain rfl := Except.ok.inj (hcut.symm.trans hcut')
  refine ⟨root, l, m, d, i, map', hroot, hclose, hmem, hm, hd, hplace, hpiece, ?_, fun hshown ↦ ?_⟩
  · have hpiece' := hpiece 0
    simp only [LinkJob.piece, hown, hdecl, hmap, Bind.bind, Except.bind] at hpiece'
    obtain rfl := (Piece.mk.inj (Option.some.inj (Except.ok.inj hpiece'))).1
    exact htext
  · have hvalue := (hshows _ hplace).1 hshown tokens "i32" htokens hbehind rfl
    exact absurd hvalue (by decide)

end Registry

end ShaderLink
