import ShaderLink.Proofs.Provenance.Splice

/-!
# Splicing by segments

Cut into **segments**, some of which another text takes the place of, a text is spliced by putting
the segments together again (`Traced.splice_of_segments`). This tells what stands in the place of a
single span in the end (`Traced.Shows`): the bytes in front of it come from what was in front of the
span, its own bytes from the span, and those behind it from what was behind.
-/

namespace ShaderLink

/-- A stretch of a text, and what takes its place if anything does. -/
structure Segment where
  old : Text
  new? : Option Text

namespace Segment

/-- What stands in the place of the segment in the end. -/
def shown (s : Segment) : Text :=
  s.new?.getD s.old

/-- The text that is cut into the segments. -/
def join (ss : List Segment) : Text :=
  ss.flatMap old

@[simp] theorem join_nil : join [] = [] := rfl

@[simp] theorem join_cons (s : Segment) (ss : List Segment) :
    join (s :: ss) = s.old ++ join ss := rfl

@[simp] theorem join_append (ss ss' : List Segment) : join (ss ++ ss') = join ss ++ join ss' :=
  List.flatMap_append

/-- The splices that segments mean in a text that has them from an offset on. -/
def splices (offset : Nat) : List Segment → List Splice
  | [] => []
  | s :: ss =>
    match s.new? with
    | some new => ⟨⟨offset, s.old.size⟩, new⟩ :: splices (offset + s.old.size) ss
    | none => splices (offset + s.old.size) ss

/-- The splices of segments lie where the segments do. -/
theorem bounds_of_mem_splices {offset : Nat} {ss : List Segment} {sp : Splice}
    (h : sp ∈ splices offset ss) :
    offset ≤ sp.span.start ∧ sp.span.stop ≤ offset + (join ss).size := by
  induction ss generalizing offset with
  | nil => exact absurd h List.not_mem_nil
  | cons s ss ih =>
    have hrest (h : sp ∈ splices (offset + s.old.size) ss) :
        offset ≤ sp.span.start ∧ sp.span.stop ≤ offset + (join (s :: ss)).size := by
      have hbounds := ih h
      rw [join_cons, Text.size_append]
      omega
    rw [splices] at h
    split at h
    · rcases List.mem_cons.1 h with rfl | h
      · rw [join_cons, Text.size_append]
        simp only [Span.stop]
        omega
      · exact hrest h
    · exact hrest h

/-- The splices of segments behind others are moved behind these. -/
theorem splices_append (offset : Nat) (ss ss' : List Segment) :
    splices offset (ss ++ ss') =
      splices offset ss ++ splices (offset + (join ss).size) ss' := by
  induction ss generalizing offset with
  | nil => rfl
  | cons s ss ih =>
    rw [List.cons_append, splices, splices, ih, join_cons, Text.size_append, Nat.add_assoc]
    cases s.new? <;> rfl

/-- The splices of segments are in order. -/
theorem sortBy_splices (offset : Nat) (ss : List Segment) :
    sortBy Splice.before (splices offset ss) = splices offset ss := by
  refine sortBy_of_pairwise ?_
  induction ss generalizing offset with
  | nil => exact .nil
  | cons s ss ih =>
    rw [splices]
    split
    · refine List.pairwise_cons.2 ⟨fun sp hsp ↦ Splice.before_iff.2 ?_, ih _⟩
      have hbounds := bounds_of_mem_splices hsp
      simp only [Span.stop] at *
      omega
    · exact ih _

/-- A segment that something is put in the place of is not left as it is. -/
theorem new?_of_mem_splices {offset : Nat} {ss ss' : List Segment} {s : Segment} {new : Text}
    (h : ⟨⟨offset + (join ss).size, s.old.size⟩, new⟩ ∈ splices offset (ss ++ s :: ss'))
    (hne : s.old ≠ []) : s.new? = some new := by
  have hpos : 0 < s.old.size := Nat.pos_of_ne_zero fun hzero ↦ hne (Text.size_eq_zero_iff.1 hzero)
  have hbehind : ⟨⟨offset + (join ss).size, s.old.size⟩, new⟩ ∉
      splices (offset + (join ss).size + s.old.size) ss' := fun hmem ↦ by
    have hbounds := bounds_of_mem_splices hmem
    dsimp only at hbounds
    omega
  rw [splices_append, List.mem_append, splices] at h
  rcases h with hfront | h
  · have hbounds := bounds_of_mem_splices hfront
    simp only [Span.stop] at hbounds
    omega
  · cases hnew : s.new? with
    | none =>
      rw [hnew] at h
      exact absurd h hbehind
    | some new' =>
      rw [hnew] at h
      rcases List.mem_cons.1 h with heq | h
      · rw [(Splice.mk.inj heq).2]
      · exact absurd h hbehind

end Segment

namespace Origin

/-- The byte comes from a stretch in the range of the file. -/
def Inside (file : SourceText) (range : Span) (o : Origin) : Prop :=
  ∃ s, o.range? = some (file, s) ∧ 0 < s.size ∧ range.start ≤ s.start ∧ s.stop ≤ range.stop

variable {file : SourceText} {range : Span}

theorem Inside.mono {range' : Span} {o : Origin} (h : o.Inside file range)
    (hstart : range'.start ≤ range.start) (hstop : range.stop ≤ range'.stop) :
    o.Inside file range' := by
  obtain ⟨s, hs, hpos, hlo, hhi⟩ := h
  exact ⟨s, hs, hpos, hstart.trans hlo, hhi.trans hstop⟩

/-- No byte comes from two ranges one behind the other. -/
theorem Inside.not_inside {range' : Span} {o : Origin} (h : o.Inside file range)
    (hapart : range.stop ≤ range'.start) : ¬o.Inside file range' := by
  rintro ⟨s', hs', hpos', hlo', hhi'⟩
  obtain ⟨s, hs, hpos, hlo, hhi⟩ := h
  obtain ⟨-, rfl⟩ := Prod.mk.inj (Option.some.inj (hs.symm.trans hs'))
  simp only [Span.stop] at *
  omega

/-- What replaces bytes from a range comes from the range. -/
theorem inside_hull {os : List Origin} (hne : os ≠ []) (h : ∀ o ∈ os, o.Inside file range) :
    (hull os).Inside file range := by
  cases os with
  | nil => exact absurd rfl hne
  | cons first os =>
    obtain ⟨⟨s, hs, hfirst⟩, hrest⟩ := List.forall_mem_cons.1 h
    rw [hull, List.filterMap_cons, hs]
    refine ⟨_, rfl, ?_⟩
    -- covering more and more spans stays inside the range
    clear hs hne h first
    induction os generalizing s with
    | nil => exact hfirst
    | cons o os ih =>
      obtain ⟨⟨s', hs', -, hlo', hhi'⟩, hos⟩ := List.forall_mem_cons.1 hrest
      obtain ⟨hpos, hlo, hhi⟩ := hfirst
      rw [List.filterMap_cons, hs']
      refine ih hos (cover s s') ?_
      rw [stop_cover, start_cover]
      refine ⟨?_, Nat.le_min.2 ⟨hlo, hlo'⟩, Nat.max_le.2 ⟨hhi, hhi'⟩⟩
      rw [cover, Span.size_between]
      simp only [Span.stop]
      omega

end Origin

namespace Traced

/-- All bytes come from stretches in the range of the file. -/
def From (file : SourceText) (range : Span) (tr : Traced) : Prop :=
  ∀ o ∈ tr.origins, o.Inside file range

/-- A segment that the text has at an offset. -/
def segment (tr : Traced) (offset : Nat) (s : Segment) : Traced :=
  match s.new? with
  | some new => tr.replacement ⟨⟨offset, s.old.size⟩, new⟩
  | none => tr.slice ⟨offset, s.old.size⟩

/-- The segments that the text has from an offset on. -/
def patched (tr : Traced) (offset : Nat) : List Segment → Traced
  | [] => empty
  | s :: ss => tr.segment offset s ++ tr.patched (offset + s.old.size) ss

/-- In the place of the span of the file stands the text `shown`, between two others. -/
def ShowsBetween (file : SourceText) (span : Span) (before shown behind : Text) (tr : Traced) :
    Prop :=
  ∃ a b c : Traced, tr = a ++ b ++ c ∧ a.text = before ∧ b.text = shown ∧ c.text = behind ∧
    a.From file ⟨0, span.start⟩ ∧ b.From file span ∧
    c.From file (Span.between span.stop file.text.size)

/-- In the place of the span of the file stands the text `shown`. -/
def Shows (file : SourceText) (span : Span) (shown : Text) (tr : Traced) : Prop :=
  ∃ before behind, tr.ShowsBetween file span before shown behind

variable {tr tr' : Traced} {file : SourceText} {range : Span} {front x y back : Text}
  {s : Segment} {ss ss' : List Segment}

@[simp] theorem append_empty (tr : Traced) : tr ++ empty = tr :=
  Traced.ext (List.append_nil _) (List.append_nil _)

@[simp] theorem empty_append (tr : Traced) : empty ++ tr = tr := rfl

/-! ### Slices -/

/-- A slice of a traced text has the text that stands there and its origins. -/
theorem slice_eq (h : tr.text = front ++ x ++ back) :
    (tr.slice ⟨front.size, x.size⟩).text = x ∧
      (tr.slice ⟨front.size, x.size⟩).origins = (tr.origins.drop front.size).take x.size :=
  slice_of_slice? (s := ⟨front.size, x.size⟩)
    (Text.slice?_eq_some_iff.2 ⟨front, back, h, rfl, rfl⟩)

/-- Slices one behind the other are one slice. -/
theorem slice_append (h : tr.text = front ++ (x ++ y) ++ back) :
    tr.slice ⟨front.size, (x ++ y).size⟩ =
      tr.slice ⟨front.size, x.size⟩ ++ tr.slice ⟨front.size + x.size, y.size⟩ := by
  obtain ⟨hall, hallOrigins⟩ := slice_eq h
  have hfirst : tr.text = front ++ x ++ (y ++ back) := by simp [h]
  have hsecond : tr.text = front ++ x ++ y ++ back := by simp [h]
  obtain ⟨hx, hxOrigins⟩ := slice_eq hfirst
  obtain ⟨hy, hyOrigins⟩ := slice_eq hsecond
  rw [Text.size_append] at hy hyOrigins
  refine Traced.ext ?_ ?_
  · rw [text_append, hall, hx, hy]
  · rw [origins_append, hallOrigins, hxOrigins, hyOrigins, Text.size_append, List.take_add,
      List.drop_drop]

theorem slice_nil (h : tr.text = front ++ back) : tr.slice ⟨front.size, 0⟩ = empty := by
  have hnil : tr.text = front ++ [] ++ back := by simp [h]
  obtain ⟨htext, horigins⟩ := slice_eq hnil
  refine Traced.ext htext (horigins.trans ?_)
  rw [Text.size_nil, List.take_zero]
  rfl

/-- A part between two others is cut out. -/
theorem slice_middle (before here behind : Traced) :
    (before ++ here ++ behind).slice ⟨before.text.size, here.text.size⟩ = here := by
  have hparts : (before ++ here ++ behind).text = before.text ++ here.text ++ behind.text := rfl
  obtain ⟨htext, horigins⟩ := slice_eq hparts
  refine Traced.ext htext (horigins.trans ?_)
  rw [origins_append, origins_append, List.append_assoc, ← before.length_origins,
    List.drop_left, ← here.length_origins, List.take_left]

/-! ### Putting segments together -/

/-- A segment shows what is put in its place, or what stands there. -/
theorem text_segment (h : tr.text = front ++ s.old ++ back) :
    (tr.segment front.size s).text = s.shown := by
  rw [segment, Segment.shown]
  cases s.new? with
  | none => exact (slice_eq h).1
  | some new => rfl

theorem text_patched (h : tr.text = front ++ Segment.join ss ++ back) :
    (tr.patched front.size ss).text = ss.flatMap Segment.shown := by
  induction ss generalizing front with
  | nil => rfl
  | cons s ss ih =>
    have hs : tr.text = front ++ s.old ++ (Segment.join ss ++ back) := by simp [h]
    have hss : tr.text = (front ++ s.old) ++ Segment.join ss ++ back := by simp [h]
    have hrest := ih hss
    rw [Text.size_append] at hrest
    rw [patched, text_append, hrest, List.flatMap_cons, text_segment hs]

/-- Segments are patched one after the other. -/
theorem patched_append (offset : Nat) (ss ss' : List Segment) :
    tr.patched offset (ss ++ ss') =
      tr.patched offset ss ++ tr.patched (offset + (Segment.join ss).size) ss' := by
  induction ss generalizing offset with
  | nil => rfl
  | cons s ss ih =>
    rw [List.cons_append, patched, patched, ih, append_assoc, Segment.join_cons, Text.size_append,
      Nat.add_assoc]

/-- Splicing puts the segments together behind what was kept in front of them. -/
theorem spliced_splices {kept : Text} (h : tr.text = front ++ kept ++ Segment.join ss ++ back) :
    tr.spliced front.size (front.size + kept.size + (Segment.join ss).size)
        (Segment.splices (front.size + kept.size) ss) =
      tr.slice ⟨front.size, kept.size⟩ ++ tr.patched (front.size + kept.size) ss := by
  induction ss generalizing front kept with
  | nil =>
    rw [Segment.splices, spliced, patched, append_empty, Segment.join_nil, Text.size_nil,
      Nat.add_zero, Span.between, Nat.add_sub_cancel_left]
  | cons s ss ih =>
    rw [Segment.splices, patched, segment, Segment.join_cons, Text.size_append, ← Nat.add_assoc]
    cases hnew : s.new? with
    | none =>
      have hkept : tr.text = front ++ (kept ++ s.old) ++ Segment.join ss ++ back := by simp [h]
      have hs : tr.text = front ++ (kept ++ s.old) ++ (Segment.join ss ++ back) := by simp [h]
      have hrest := ih hkept
      rw [Text.size_append, ← Nat.add_assoc] at hrest
      dsimp only
      rw [hrest, ← append_assoc, ← slice_append hs, Text.size_append]
    | some new =>
      have hkept : tr.text = (front ++ kept ++ s.old) ++ [] ++ Segment.join ss ++ back := by
        simp [h]
      have hs : tr.text = (front ++ kept ++ s.old) ++ (Segment.join ss ++ back) := by simp [h]
      have hrest := ih hkept
      rw [Text.size_nil, Nat.add_zero, Text.size_append, Text.size_append] at hrest
      have hnil := slice_nil hs
      rw [Text.size_append, Text.size_append] at hnil
      rw [hnil, empty_append] at hrest
      dsimp only
      rw [spliced]
      show _ ++ (_ ++ tr.spliced (front.size + kept.size + s.old.size) _ _) = _
      rw [hrest, Span.between, Nat.add_sub_cancel_left]

/-- Splices that are those of segments put the segments together. -/
theorem splice_of_segments {splices : List Splice}
    (h : tr.text = front ++ Segment.join ss ++ back)
    (hsplices : sortBy Splice.before splices = Segment.splices front.size ss) :
    tr.splice ⟨front.size, (Segment.join ss).size⟩ splices = tr.patched front.size ss := by
  have hkept : tr.text = front ++ [] ++ Segment.join ss ++ back := by simp [h]
  have hnil : tr.text = front ++ (Segment.join ss ++ back) := by simp [h]
  have hall := spliced_splices hkept
  rw [Text.size_nil, Nat.add_zero, slice_nil hnil, empty_append] at hall
  rw [splice, hsplices]
  exact hall

/-! ### Where the bytes come from -/

theorem From.append (h : tr.From file range) (h' : tr'.From file range) :
    (tr ++ tr').From file range :=
  List.forall_mem_append.2 ⟨h, h'⟩

theorem From.mono {range' : Span} (h : tr.From file range) (hstart : range'.start ≤ range.start)
    (hstop : range.stop ≤ range'.stop) : tr.From file range' :=
  fun o ho ↦ (h o ho).mono hstart hstop

theorem from_append : (tr ++ tr').From file range ↔ tr.From file range ∧ tr'.From file range :=
  List.forall_mem_append

/-- What is copied from a file comes from where it stands there. -/
theorem from_slice_copy (file : SourceText) (s : Span) :
    ((copy file 0 file.text).slice s).From file s := by
  intro o ho
  cases hinside : file.text.slice? s with
  | none =>
    have hempty : (copy file 0 file.text).slice s = empty := by
      rw [slice]
      split
      · rfl
      · rename_i inside hsome
        rw [show file.text.slice? s = some inside from hsome] at hinside
        cases hinside
    rw [hempty] at ho
    exact absurd ho List.not_mem_nil
  | some inside =>
    have horigins : ((copy file 0 file.text).slice s).origins = _ := (slice_of_slice? hinside).2
    rw [horigins] at ho
    obtain ⟨n, hn, hget⟩ := List.getElem_of_mem ho
    rw [List.length_take] at hn
    rw [List.getElem_take, List.getElem_drop] at hget
    simp only [copy, List.getElem_map, List.getElem_range'] at hget
    rw [← hget]
    refine ⟨_, rfl, Nat.one_pos, ?_, ?_⟩
    · dsimp only
      omega
    · simp only [Span.stop]
      omega

/-- A segment comes from where its old text does. -/
theorem From.segment (h : tr.text = front ++ s.old ++ back) (hne : s.new?.isSome → s.old ≠ [])
    (hfrom : (tr.slice ⟨front.size, s.old.size⟩).From file range) :
    (tr.segment front.size s).From file range := by
  rw [Traced.segment]
  cases hnew : s.new? with
  | none => exact hfrom
  | some new =>
    intro o ho
    obtain rfl := List.eq_of_mem_replicate ho
    refine Origin.inside_hull (fun hnil ↦ ?_) hfrom
    have hlength := (tr.slice ⟨front.size, s.old.size⟩).length_origins
    rw [hnil, (slice_eq h).1] at hlength
    exact hne (by rw [hnew]; rfl) (Text.size_eq_zero_iff.1 hlength.symm)

/-- So do all of them together. -/
theorem From.patched (h : tr.text = front ++ Segment.join ss ++ back)
    (hne : ∀ s ∈ ss, s.new?.isSome → s.old ≠ [])
    (hfrom : (tr.slice ⟨front.size, (Segment.join ss).size⟩).From file range) :
    (tr.patched front.size ss).From file range := by
  induction ss generalizing front with
  | nil => exact List.forall_mem_nil _
  | cons s ss ih =>
    obtain ⟨hs, hss⟩ := List.forall_mem_cons.1 hne
    rw [Segment.join_cons] at h hfrom
    rw [slice_append h] at hfrom
    obtain ⟨hfirst, hrest⟩ := from_append.1 hfrom
    have hsplit : tr.text = front ++ s.old ++ (Segment.join ss ++ back) := by simp [h]
    have hrestText : tr.text = (front ++ s.old) ++ Segment.join ss ++ back := by simp [h]
    have hbehind := ih hrestText hss (by rwa [Text.size_append])
    rw [Text.size_append] at hbehind
    exact (From.segment hsplit hs hfirst).append hbehind

/-- Where the bytes of segments come from in front of a span, from the span and from behind it, the
segment in the middle is what stands in the place of the span. -/
theorem showsBetween_patched {span : Span}
    (h : tr.text = front ++ Segment.join (ss ++ s :: ss') ++ back)
    (hne : ∀ s' ∈ ss ++ s :: ss', s'.new?.isSome → s'.old ≠ [])
    (hbefore : (tr.slice ⟨front.size, (Segment.join ss).size⟩).From file ⟨0, span.start⟩)
    (hhere : (tr.slice ⟨front.size + (Segment.join ss).size, s.old.size⟩).From file span)
    (hbehind : (tr.slice ⟨front.size + (Segment.join ss).size + s.old.size,
      (Segment.join ss').size⟩).From file (Span.between span.stop file.text.size)) :
    (tr.patched front.size (ss ++ s :: ss')).ShowsBetween file span (ss.flatMap Segment.shown)
      s.shown (ss'.flatMap Segment.shown) := by
  rw [Segment.join_append, Segment.join_cons] at h
  obtain ⟨hne, hs, hne'⟩ : _ ∧ _ ∧ _ := by
    rw [List.forall_mem_append, List.forall_mem_cons] at hne
    exact hne
  have hbeforeText : tr.text = front ++ Segment.join ss ++
      (s.old ++ (Segment.join ss' ++ back)) := by simp [h]
  have hhereText : tr.text = (front ++ Segment.join ss) ++ s.old ++ (Segment.join ss' ++ back) := by
    simp [h]
  have hbehindText : tr.text = (front ++ Segment.join ss ++ s.old) ++ Segment.join ss' ++ back := by
    simp [h]
  have hshown := text_segment hhereText
  have hshown' := text_patched hbehindText
  have hhere := From.segment hhereText hs (by rwa [Text.size_append])
  have hbehind := From.patched hbehindText hne' (by rwa [Text.size_append, Text.size_append])
  rw [Text.size_append] at hshown hhere
  rw [Text.size_append, Text.size_append] at hshown' hbehind
  refine ⟨_, _, _, ?_, text_patched hbeforeText, hshown, hshown',
    From.patched hbeforeText hne hbefore, hhere, hbehind⟩
  rw [patched_append, patched, append_assoc]

/-- Segments of a text that shows something show what takes the place of it. -/
theorem ShowsBetween.patched {span : Span} {before shown behind : Text}
    (h : tr.ShowsBetween file span before shown behind) (hss : Segment.join ss = before)
    (hs : s.old = shown) (hss' : Segment.join ss' = behind)
    (hne : ∀ s' ∈ ss ++ s :: ss', s'.new?.isSome → s'.old ≠ []) :
    (tr.patched 0 (ss ++ s :: ss')).Shows file span s.shown := by
  obtain ⟨a, b, c, rfl, rfl, rfl, rfl, ha, hb, hc⟩ := h
  have htext : (a ++ b ++ c).text = [] ++ Segment.join (ss ++ s :: ss') ++ [] := by
    simp [hss, hs, hss']
  refine ⟨_, _, showsBetween_patched htext hne ?_ ?_ ?_⟩
  · have hslice := slice_middle empty a (b ++ c)
    rw [empty_append, ← append_assoc] at hslice
    rw [hss]
    show ((a ++ b ++ c).slice ⟨empty.text.size, a.text.size⟩).From _ _
    rwa [hslice]
  · have hslice := slice_middle a b c
    rw [hss, hs, Text.size_nil, Nat.zero_add, hslice]
    exact hb
  · have hslice := slice_middle (a ++ b) c empty
    rw [append_empty, text_append, Text.size_append] at hslice
    rw [hss, hs, hss', Text.size_nil, Nat.zero_add, hslice]
    exact hc

/-! ### There is only one such text -/

/-- Where one range ends and another begins, bytes can be told apart. -/
theorem eq_of_append_eq {a b a' b' : Traced} {range' : Span} (h : a ++ b = a' ++ b')
    (hapart : range.stop ≤ range'.start) (ha : a.From file range) (hb : b.From file range')
    (ha' : a'.From file range) (hb' : b'.From file range') : a = a' ∧ b = b' := by
  have horigins : a.origins ++ b.origins = a'.origins ++ b'.origins := congrArg Traced.origins h
  have htext : a.text ++ b.text = a'.text ++ b'.text := congrArg Traced.text h
  have heq : a.origins = a'.origins ∧ b.origins = b'.origins := by
    rcases List.append_eq_append_iff.1 horigins with ⟨os, hleft, hright⟩ | ⟨os, hleft, hright⟩
    · cases os with
      | nil => exact ⟨by simp [hleft], by simp [hright]⟩
      | cons o os =>
        exact absurd (hb o (by simp [hright])) ((ha' o (by simp [hleft])).not_inside hapart)
    · cases os with
      | nil => exact ⟨by simp [hleft], by simp [hright]⟩
      | cons o os =>
        exact absurd (hb' o (by simp [hright])) ((ha o (by simp [hleft])).not_inside hapart)
  have hsize : a.text.size = a'.text.size := by
    rw [← a.length_origins, ← a'.length_origins, heq.1]
  have hparts : a.text = a'.text ∧ b.text = b'.text := by
    rcases List.append_eq_append_iff.1 htext with ⟨t, hleft, hright⟩ | ⟨t, hleft, hright⟩
    · rw [hleft, Text.size_append] at hsize
      obtain rfl := Text.size_eq_zero_iff.1 (show Text.size t = 0 by omega)
      exact ⟨by simp [hleft], by simp [hright]⟩
    · rw [hleft, Text.size_append] at hsize
      obtain rfl := Text.size_eq_zero_iff.1 (show Text.size t = 0 by omega)
      exact ⟨by simp [hleft], by simp [hright]⟩
  exact ⟨Traced.ext hparts.1 heq.1, Traced.ext hparts.2 heq.2⟩

/-- Only one text stands in the place of a span. -/
theorem Shows.unique {span : Span} {t t' : Text} (h : tr.Shows file span t)
    (h' : tr.Shows file span t') : t = t' := by
  obtain ⟨-, -, a, b, c, rfl, -, rfl, -, hbefore, hhere, hbehind⟩ := h
  obtain ⟨-, -, a', b', c', heq, -, rfl, -, hbefore', hhere', hbehind'⟩ := h'
  rw [append_assoc, append_assoc] at heq
  have hrest {b c : Traced} (hb : b.From file span)
      (hc : c.From file (Span.between span.stop file.text.size)) :
      (b ++ c).From file ⟨span.start, span.size + file.text.size⟩ := by
    refine .append (From.mono hb (Nat.le_refl _) ?_) (From.mono hc ?_ ?_)
    · simp only [Span.stop]
      omega
    · simp only [Span.stop, Span.start_between]
      omega
    · simp only [Span.stop, Span.between]
      omega
  obtain ⟨-, heq⟩ := eq_of_append_eq heq (Nat.le_of_eq (Nat.zero_add _)) hbefore
    (hrest hhere hbehind) hbefore' (hrest hhere' hbehind')
  obtain ⟨heq, -⟩ := eq_of_append_eq heq (Nat.le_refl _) hhere hbehind hhere' hbehind'
  rw [heq]

end Traced

end ShaderLink
