import ShaderLink.Proofs.Link.Coherence

/-!
# Locating bytes of a linked text

The location of a byte of a linked text is what its origin says: a byte that was copied is located
where it stands in the source, a byte that replaces others is located among them, and a byte that
was put in is not located. This takes the sources of modules to be told apart by their ids;
generated texts are told apart by the places of their instances.
-/

namespace ShaderLink

/-- A byte of a linked text is located as its origin says. -/
def Linked.Located (linked : Linked) (p : Nat) : Origin → Prop
  | .copied file n => linked.locate? p = some ⟨file.id, n, file.text.position n⟩ ∧
    ∃ b, linked.map.text.bytes[p]? = some b ∧ file.text.bytes[n]? = some b
  | .replaced file range => ∃ n, range.start ≤ n ∧ n < range.stop ∧
    linked.locate? p = some ⟨file.id, n, file.text.position n⟩
  | .inserted _ => linked.locate? p = none

namespace LinkJob

variable {job : LinkJob} {conditions : ModulePath → String → Bool} {l : Linkage}
  {file file' : SourceText} {m : Module}

/-- The modules that contribute have ids of their own, none of them that of the linker or of a
generated text. -/
structure DistinctSources (job : LinkJob) (l : Linkage) : Prop where
  modules : ∀ m ∈ job.contributors l, ∀ m' ∈ job.contributors l, m.sourceId = m'.sourceId → m = m'
  linker : ∀ m ∈ job.contributors l, m.sourceId ≠ separatorId
  generated : ∀ m ∈ job.contributors l, ∀ file ∈ job.generatedTexts l, m.sourceId ≠ file.id

/-- Ids that are all different tell modules apart. -/
theorem DistinctSources.of_nodup (ids : List SourceId)
    (hids : (job.contributors l).map Module.sourceId = ids) (hnodup : ids.Nodup)
    (hlinker : separatorId ∉ ids) (hgenerated : ∀ file ∈ job.generatedTexts l, file.id ∉ ids) :
    job.DistinctSources l := by
  subst hids
  exact ⟨fun m hm m' hm' heq ↦ List.inj_on_of_nodup_map hnodup hm hm' heq,
    fun m hm heq ↦ hlinker (heq ▸ List.mem_map_of_mem hm),
    fun m hm file hfile heq ↦ hgenerated file hfile (heq ▸ List.mem_map_of_mem hm)⟩

/-! ### The ids of generated texts -/

/-- What stands behind the last mark tells texts apart. -/
theorem number_inj {s s' : String} {n n' : Nat}
    (h : s ++ "#" ++ toString n = s' ++ "#" ++ toString n') : n = n' := by
  have hdigits (n : Nat) : '#' ∉ (toString n).toList := by
    rw [Nat.toString_eq_repr, Nat.toList_repr]
    intro hmem
    exact absurd (Nat.isDigit_of_mem_toDigits (by decide) (by decide) hmem) (by decide)
  have hreversed (s : String) (n : Nat) :
      (s ++ "#" ++ toString n).toList.reverse.takeWhile (· != '#') =
        (toString n).toList.reverse := by
    rw [String.toList_append, String.toList_append, List.reverse_append, List.reverse_append,
      List.takeWhile_append_of_pos]
    · simp
    · intro c hc
      rw [bne_iff_ne]
      rintro rfl
      exact hdigits n (List.mem_reverse.1 hc)
  have hlists := congrArg (fun s ↦ s.toList.reverse.takeWhile (· != '#')) h
  rw [hreversed, hreversed, List.reverse_inj, String.toList_inj] at hlists
  have hempty : "" ++ toString n = "" ++ toString n' := by rw [hlists]
  exact numbered_inj hempty

/-- A generated text belongs to the instance at a place, which is in its id. -/
theorem exists_place (h : file ∈ job.generatedTexts l) :
    ∃ e front, l.instances.toList[e.2]? = some e.1 ∧ job.generated? e = some file ∧
      file.id.name = "generator:" ++ front ++ "#" ++ toString e.2 := by
  obtain ⟨⟨⟨⟨target, args⟩, i⟩, place⟩, he, hfile⟩ := List.mem_filterMap.1 h
  have hplace := List.mem_zipIdx_iff_getElem?.1 he
  cases target with
  | decl module index => cases hfile
  | generator module name =>
    refine ⟨_, module.render ++ "/" ++ name, hplace, hfile, ?_⟩
    obtain ⟨g, -, rfl⟩ := Option.map_eq_some_iff.1 hfile
    simp only [String.append_assoc]

/-- Generated texts have ids of their own. -/
theorem eq_of_generated_id (h : file ∈ job.generatedTexts l) (h' : file' ∈ job.generatedTexts l)
    (hid : file.id = file'.id) : file = file' := by
  obtain ⟨⟨e, place⟩, front, hplace, hfile, hname⟩ := exists_place h
  obtain ⟨⟨e', place'⟩, front', hplace', hfile', hname'⟩ := exists_place h'
  obtain rfl : place = place' := number_inj (hname.symm.trans ((congrArg _ hid).trans hname'))
  obtain rfl := Option.some.inj (hplace.symm.trans hplace')
  exact Option.some.inj (hfile.symm.trans hfile')

/-- The linker's own id is none of a generated text. -/
theorem generated_id_ne (h : file ∈ job.generatedTexts l) : file.id ≠ separatorId := by
  obtain ⟨e, front, -, -, hname⟩ := exists_place h
  intro hid
  rw [hid] at hname
  have hfirst := congrArg (fun s : String ↦ s.toList.head?) hname
  simp [separatorId, String.toList_append] at hfirst

/-! ### The sources of a linked text -/

/-- Looking up the id of a text finds the text. -/
theorem DistinctSources.get?_files (h : job.DistinctSources l) (hfile : file ∈ job.files l) :
    (OrderedMap.ofList ((job.files l).map fun file ↦ (file.id, file.text))).get? file.id =
      some file.text := by
  refine OrderedMap.get?_ofList_of_unique (List.mem_map_of_mem hfile) fun t ht ↦ ?_
  obtain ⟨file', hfile', heq⟩ := List.mem_map.1 ht
  obtain ⟨hid, rfl⟩ := Prod.mk.inj heq
  suffices file' = file by rw [this]
  -- both texts are of modules, both are generated, or there is one of each
  rcases List.mem_append.1 hfile with hmodule | hg
  · obtain ⟨m, hm, rfl⟩ := List.mem_map.1 hmodule
    rcases List.mem_append.1 hfile' with hmodule' | hg'
    · obtain ⟨m', hm', rfl⟩ := List.mem_map.1 hmodule'
      rw [h.modules m' hm' m hm hid]
    · exact absurd hid.symm (h.generated m hm file' hg')
  · rcases List.mem_append.1 hfile' with hmodule' | hg'
    · obtain ⟨m', hm', rfl⟩ := List.mem_map.1 hmodule'
      exact absurd hid (h.generated m' hm' file hg)
    · exact eq_of_generated_id hg' hg hid

/-- The linker is no source. -/
theorem DistinctSources.get?_separatorId (h : job.DistinctSources l) :
    (OrderedMap.ofList ((job.files l).map fun file ↦ (file.id, file.text))).get? separatorId =
      none := by
  refine OrderedMap.get?_ofList_eq_none fun hmem ↦ ?_
  rw [List.map_map] at hmem
  obtain ⟨file, hfile, hid⟩ := List.mem_map.1 hmem
  rcases List.mem_append.1 hfile with hmodule | hg
  · obtain ⟨m, hm, rfl⟩ := List.mem_map.1 hmodule
    exact h.linker m hm hid
  · exact generated_id_ne hg hid

theorem file_mem_files (h : m ∈ job.contributors l) : m.file ∈ job.files l :=
  List.mem_append_left _ (List.mem_map_of_mem h)

/-- The module of an instance contributes. -/
theorem Closed.mem_contributors (h : job.Closed l) {key : InstanceKey} {i : Instance}
    (hmem : (key, i) ∈ l.instances.toList) {module : ModulePath} {index : Nat}
    (htarget : key.target = .decl module index) (hm : job.registry.module? module = some m) :
    m ∈ job.contributors l :=
  List.mem_filterMap.2 ⟨module, h.valid.covered key
    (OrderedMap.mem_keys_of_get? (OrderedMap.get?_eq_some_iff.2 hmem)) module index htarget, hm⟩

theorem Closed.root_mem_contributors (h : job.Closed l) (hjob : job.Sound) :
    job.root ∈ job.contributors l :=
  List.mem_filterMap.2 ⟨job.root.path, h.grows.modules (List.mem_singleton_self _), hjob.root⟩

/-- Every byte of the linked text comes from one of the sources or was put in. -/
theorem Closed.sourced_traced (h : job.Closed l) (hjob : job.Sound)
    (hconditions : job.registry.ParsedUnder conditions) :
    (job.traced conditions l).Sourced (job.files l) := by
  have hexcerpt {path : ModulePath} {m : Module} (hm : job.registry.module? path = some m)
      (hmem : m ∈ job.contributors l) {span : Span} {splices : List Splice}
      (hsuit : Splice.Suit m.text span splices) (args : Args) :
      ((moduleTraced conditions m).excerpt span splices args).Sourced (job.files l) := by
    have hsound := moduleSound hjob hconditions hm
    rw [hsound.text_eq] at hsuit
    exact (hsound.inFile.excerpt hsuit args).sourced
      (hsound.faithful.excerpt hsound.inFile hsuit args) (file_mem_files hmem)
  -- directives, the text of the root, and the pieces of the other instances
  refine Traced.sourced_assemble (fun tr htr ↦ ?_) ?_ fun tr htr ↦ ?_
  · obtain ⟨d, hd, rfl⟩ := List.mem_map.1 htr
    have hmem := (exists_of_mem_foreignDirectives hd).1
    obtain ⟨path, hm⟩ := exists_path_of_mem_contributors hmem
    exact hexcerpt hm hmem (suit_directive hjob hd) []
  · have hroot := hexcerpt hjob.root (h.root_mem_contributors hjob) (h.suit_root hjob) []
    simpa [Traced.excerpt, rootTraced] using hroot
  · obtain ⟨⟨⟨⟨target, args⟩, i⟩, place⟩, he, htr⟩ := List.mem_filterMap.1 htr
    have hmem := List.fst_mem_of_mem_zipIdx he
    rw [pieceTraced?] at htr
    split at htr
    · cases htr
    · cases target with
      | decl module index =>
        obtain ⟨⟨m, d⟩, hdecl, rfl⟩ := Option.map_eq_some_iff.1 htr
        have hm := (decl?_eq_some hdecl).1
        exact hexcerpt hm (h.mem_contributors hmem rfl hm)
          (h.suit_renames hjob hmem rfl hdecl) args
      | generator module name =>
        obtain ⟨file, hfile, rfl⟩ := Option.map_eq_some_iff.1 htr
        exact (Traced.inFile_copy file 0 file.text).sourced
          (Traced.faithful_copy file.text.slice?_span)
          (List.mem_append_right _ (List.mem_filterMap.2 ⟨_, he, hfile⟩))

end LinkJob

/-! ### Locating -/

theorem Linked.locate?_eq_some {linked : Linked} {p n : Nat} {id : SourceId} {t : Text}
    (horigin : linked.map.origin? p = some ⟨id, n⟩) (hsource : linked.sources.get? id = some t) :
    linked.locate? p = some ⟨id, n, t.position n⟩ := by
  rw [locate?, horigin, Option.bind_eq_bind, Option.bind_some]
  simp only [hsource, Option.bind_eq_bind, Option.bind_some]
  rfl

/-- Where a map leads and the sources hold the text it leads to, bytes are located as their origins
say. -/
theorem Linked.located_of_traces {linked : Linked} {tr : Traced} {files : List SourceText}
    (hexact : linked.map.Exact) (htraces : linked.map.Traces tr) (hsourced : tr.Sourced files)
    (hfiles : ∀ file ∈ files, linked.sources.get? file.id = some file.text)
    (hlinker : linked.sources.get? separatorId = none) {p : Nat} {o : Origin}
    (ho : tr.origins[p]? = some o) : linked.Located p o := by
  obtain ⟨e, hagrees, horigin⟩ := htraces.exists_origin? hexact.tiled ho
  -- a place in a file is found by its source, and lines and columns are counted in its text
  have hlocate {file : SourceText} (hfile : file ∈ files) (hsource : e.source = file.id) :
      linked.locate? p = some ⟨file.id, e.firstAt p, file.text.position (e.firstAt p)⟩ := by
    rw [hsource] at horigin
    exact locate?_eq_some horigin (hfiles file hfile)
  have hknown := hsourced.known o (List.mem_of_getElem? ho)
  cases o with
  | copied file n =>
    obtain ⟨file', hfile, s, hs⟩ : ∃ file' ∈ files, ∃ s,
        (Origin.copied file n).range? = some (file', s) := by simpa using hknown
    obtain ⟨rfl, -⟩ := Prod.mk.inj (Option.some.inj hs)
    obtain ⟨hsource, -, rfl⟩ := hagrees
    refine ⟨hlocate hfile hsource, ?_⟩
    rw [htraces.text]
    exact hsourced.faithful p file _ ho
  | replaced file range =>
    obtain ⟨file', hfile, s, hs⟩ : ∃ file' ∈ files, ∃ s,
        (Origin.replaced file range).range? = some (file', s) := by simpa using hknown
    obtain ⟨rfl, -⟩ := Prod.mk.inj (Option.some.inj hs)
    obtain ⟨hsource, hstart, hstop, -⟩ := hagrees
    exact ⟨e.firstAt p, hstart, hstop, hlocate hfile hsource⟩
  | inserted source =>
    obtain rfl : source = separatorId := by simpa [Origin.range?] using hknown
    have hsource : e.source = separatorId := hagrees
    rw [Linked.Located, locate?, horigin, Option.bind_eq_bind, Option.bind_some]
    simp only [hsource, hlinker, Option.bind_eq_bind, Option.bind_none]

namespace LinkJob

variable {job : LinkJob} {path : ModulePath} {bound : Nat} {l : Linkage}

/-- A linked text is the text that its closed linkage means, and every byte of it is located as its
origin says: exactly if it was copied, inside the range replaced if it replaces others, and nowhere
if the linker put it in. -/
theorem located_of_link (hr : job.registry.Built) {conditions : ModulePath → String → Bool}
    (hconditions : job.registry.ParsedUnder conditions)
    (hroot : job.registry.root path = .ok job.root) (hclose : job.close bound = .ok l)
    (hdistinct : job.DistinctSources l) {linked : Linked}
    (hlink : job.registry.link job.options path bound = .ok linked) :
    linked.map.text = (job.traced conditions l).text ∧
      ∀ p < linked.map.text.size, ∃ o,
        (job.traced conditions l).origins[p]? = some o ∧ linked.Located p o := by
  have hjob := sound_of_root hr hroot
  have hclosed := closed_of_close hjob hclose
  obtain ⟨linked', hlinked', hexact, htraces, hsources⟩ := hclosed.exists_output hjob hconditions
  rw [link_of_close hroot hclose, hlinked'] at hlink
  obtain rfl := Except.ok.inj hlink
  refine ⟨htraces.text, fun p hp ↦ ?_⟩
  have hlt : p < (job.traced conditions l).origins.length := by
    rwa [Traced.length_origins, ← htraces.text]
  refine ⟨_, List.getElem?_eq_getElem hlt, ?_⟩
  refine Linked.located_of_traces hexact htraces (hclosed.sourced_traced hjob hconditions)
    (fun file hfile ↦ ?_) ?_ (List.getElem?_eq_getElem hlt)
  · rw [hsources]
    exact hdistinct.get?_files hfile
  · rw [hsources]
    exact hdistinct.get?_separatorId

end LinkJob

namespace Registry

theorem located_of_link_clashing : ∃ root l linked, clashing.root ["main"] = .ok root ∧
    (⟨clashing, ⟨.empty, false⟩, root⟩ : LinkJob).close 10 = .ok l ∧
    (⟨clashing, ⟨.empty, false⟩, root⟩ : LinkJob).DistinctSources l ∧
    clashing.link ⟨.empty, false⟩ ["main"] 10 = .ok linked ∧ 12 < linked.map.text.size ∧
    ∃ o, ((⟨clashing, ⟨.empty, false⟩, root⟩ : LinkJob).traced (fun _ _ ↦ false) l).origins[12]? =
      some o ∧ linked.Located 12 o := by
  obtain ⟨linked, hlink, htext⟩ := clashing_link
  obtain ⟨root, l, hroot, hclose, -⟩ := exists_of_link hlink
  have heval : (do
      let root ← (clashing.root ["main"]).toOption
      let job : LinkJob := ⟨clashing, ⟨.empty, false⟩, root⟩
      let l ← (job.close 10).toOption
      return ((job.contributors l).map fun m ↦ m.sourceId.name,
        (job.generatedTexts l).map fun file ↦ file.id.name)) =
      some (["main", "a", "b"], ["generator:gen/foo#3"]) := by
    decide +kernel
  rw [hroot] at heval
  simp only [Except.toOption, Option.bind_eq_bind, Option.bind_some, hclose] at heval
  obtain ⟨hids, hgenerated⟩ := Prod.mk.inj (Option.some.inj heval)
  have hdistinct : (⟨clashing, ⟨.empty, false⟩, root⟩ : LinkJob).DistinctSources l := by
    refine .of_nodup [⟨"main"⟩, ⟨"a"⟩, ⟨"b"⟩] ?_ (by decide) (by decide)
      fun file hfile hmem ↦ ?_
    · have hmapped := congrArg (List.map SourceId.mk) hids
      rwa [List.map_map] at hmapped
    · have hname : file.id.name ∈ ["generator:gen/foo#3"] := by
        rw [← hgenerated]
        exact List.mem_map.2 ⟨file, hfile, rfl⟩
      have hname' : file.id.name ∈ ["main", "a", "b"] := List.mem_map.2 ⟨file.id, hmem, rfl⟩
      rw [List.mem_singleton.1 hname] at hname'
      exact absurd hname' (by decide)
  have hsize : 12 < linked.map.text.size := by rw [htext]; decide +kernel
  have hbuilt : clashing.Built := (built_ofSources _ _ _).1
  have hconditions : clashing.ParsedUnder fun _ _ ↦ false := parsedUnder_ofSources _ _ _
  obtain ⟨-, hall⟩ := @LinkJob.located_of_link ⟨clashing, ⟨.empty, false⟩, root⟩ ["main"] 10 l
    hbuilt _ hconditions hroot hclose hdistinct linked hlink
  exact ⟨root, l, linked, hroot, hclose, hdistinct, hlink, hsize, hall 12 hsize⟩

end Registry

end ShaderLink
