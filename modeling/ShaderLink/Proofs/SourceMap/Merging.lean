import ShaderLink.Proofs.SourceMap.Compaction
import ShaderLink.Proofs.SourceMap.Pieces

/-!
# Merging keeps the partition

If two maps pass the check of their coverage and every entry of the outer one that leads into the
text of the inner one stays in it, merging them succeeds and gives a map that passes the check
(`SourceMap.merge_partition`). It comes down to one entry: what it is traced to tiles its place
(`SourceMap.exists_trace`).

Where the inner map has one source, a replacement cannot begin in one source and end in another, and
what leads into the inner text comes to lead into that source. Only an empty inner text has no place
to lead on from.
-/

namespace ShaderLink

namespace SourceMap

variable {m inner outer : SourceMap} {e : Entry} {n : Nat} {source : SourceId}

/-! ### One entry -/

/-- The empty text has no entries for something. -/
theorem Exact.entries_eq_nil (hm : m.Exact) (htext : m.text = []) : m.entries = [] := by
  refine List.eq_nil_iff_forall_not_mem.2 fun e he ↦ ?_
  have hpos := hm.size_pos e he
  have hbound := (Tiles.bounds hm.tiled he).2
  rw [htext] at hbound
  simp only [Span.stop, Text.size] at hbound
  omega

theorem mem_of_entryAt? (h : m.entryAt? n = some e) : e ∈ m.entries := by
  rw [entryAt?, Option.filter_eq_some_iff] at h
  exact List.mem_of_getElem? h.1

/-- Every offset of a text but the first has a place to end a span at. -/
theorem exists_traceEnd_source (hm : m.Exact) (hsource : ∀ i ∈ m.entries, i.source = source)
    (hpos : 0 < n) (hn : n ≤ m.text.size) :
    ∃ place, m.traceEnd n = .ok place ∧ place.source = source := by
  obtain ⟨i, hi, -, -, htrace⟩ := exists_traceEnd hm.tiled hpos hn
  exact ⟨_, htrace, hsource i hi⟩

/-- Every offset of a text has a place to start a span from, the end of the text included. -/
theorem exists_traceStart_source (hm : m.Exact) (hsource : ∀ i ∈ m.entries, i.source = source)
    (hn : n ≤ m.text.size) :
    ∃ place, m.traceStart n = .ok place ∧ (m.text ≠ [] → place.source = source) := by
  cases hat : m.entryAt? n with
  | some i => exact ⟨_, by rw [traceStart, hat], fun _ ↦ hsource i (mem_of_entryAt? hat)⟩
  | none =>
    have hend : m.traceStart n = m.traceEnd n := by rw [traceStart, hat]
    by_cases htext : m.text = []
    · refine ⟨⟨m.id, 0⟩, ?_, fun hne ↦ absurd htext hne⟩
      rw [hend, traceEnd, htext, hm.entries_eq_nil htext]
      rfl
    · -- the first byte would have been found, so the offset is not the first
      have hsize : 0 < m.text.size := Nat.pos_of_ne_zero (mt Text.size_eq_zero_iff.1 htext)
      have hpos : 0 < n := Nat.pos_of_ne_zero fun hzero ↦ by
        obtain ⟨i, hi, -⟩ := hm.tiled.exists_entryAt? (hzero ▸ hsize)
        rw [hat] at hi
        cases hi
      obtain ⟨place, hplace, hto⟩ := exists_traceEnd_source hm hsource hpos hn
      exact ⟨place, hend.trans hplace, fun _ ↦ hto⟩

theorem trace_of_ne (h : e.source ≠ m.id) : m.trace e = .ok [e] := by
  rw [trace, if_pos h]

theorem trace_of_isCopy (hid : e.source = m.id) (hcopy : e.isCopy = true)
    (hsize : 0 < e.origin.size) : m.trace e = m.tracePieces e e.origin.start := by
  have hne : e.origin.isEmpty = false := by simpa [Span.isEmpty] using hsize.ne'
  rw [trace, if_neg (not_not.2 hid), if_pos (by simp [hcopy, hne])]

/-- What is no copy of something is traced to one entry in the same place. -/
theorem exists_trace_whole (hm : m.Exact) (hsource : ∀ i ∈ m.entries, i.source = source)
    (hid : e.source = m.id) (hstop : e.origin.stop ≤ m.text.size)
    (hcopies : ¬(e.isCopy && !e.origin.isEmpty) = true) :
    ∃ f, m.trace e = .ok [f] ∧ f.target = e.target ∧ (m.text ≠ [] → f.source = source) := by
  have hle : e.origin.start ≤ e.origin.stop := Nat.le_add_right _ _
  obtain ⟨start, hstart, hfrom⟩ := exists_traceStart_source hm hsource (hle.trans hstop)
  rw [trace, if_neg (not_not.2 hid), if_neg hcopies, hstart]
  by_cases hempty : e.origin.isEmpty = true
  · refine ⟨⟨start.source, Span.between start.offset (max start.offset start.offset), e.target⟩,
      ?_, rfl, hfrom⟩
    simp [hempty, Bind.bind, Except.bind, pure, Except.pure]
  · -- the last byte of the span belongs to the one source as well
    have hpos : 0 < e.origin.stop := by
      simp only [Span.isEmpty, beq_iff_eq] at hempty
      simp only [Span.stop]
      omega
    have hne : m.text ≠ [] := by
      rintro htext
      rw [htext, Text.size_nil] at hstop
      omega
    obtain ⟨stop, hend, hto⟩ := exists_traceEnd_source hm hsource hpos hstop
    have hsame : start.source = stop.source := (hfrom hne).trans hto.symm
    refine ⟨⟨start.source, Span.between start.offset (max stop.offset start.offset), e.target⟩,
      ?_, rfl, hfrom⟩
    simp [hempty, hend, hsame, Bind.bind, Except.bind, pure, Except.pure]

/-- An entry that leads nowhere out of the text is traced to entries that tile its place and lead
to the source of the map. -/
theorem exists_trace (hm : m.Exact) (hsource : ∀ i ∈ m.entries, i.source = source)
    (hinside : e.source = m.id → e.origin.stop ≤ m.text.size) :
    ∃ es, m.trace e = .ok es ∧ Tiles e.target.start es e.target.stop ∧
      (e.source = m.id → m.text ≠ [] → ∀ f ∈ es, f.source = source) := by
  by_cases hid : e.source = m.id
  · have hstop := hinside hid
    by_cases hcopies : (e.isCopy && !e.origin.isEmpty) = true
    · obtain ⟨hcopy, -⟩ := Bool.and_eq_true_iff.1 hcopies
      obtain ⟨es, hes, htiles, hmem⟩ :=
        exists_tracePieces hm.tiled hcopy hstop le_rfl (Nat.le_add_right _ _)
      refine ⟨es, ?_, by simpa using htiles, fun _ _ f hf ↦ ?_⟩
      · rw [trace, if_neg (not_not.2 hid), if_pos hcopies]
        exact hes
      · obtain ⟨i, hi, -, rfl⟩ := (hmem f).1 hf
        exact hsource i hi
    · obtain ⟨f, htrace, htarget, hto⟩ := exists_trace_whole hm hsource hid hstop hcopies
      refine ⟨[f], htrace, ⟨by rw [htarget], by rw [htarget]; rfl⟩, fun _ htext f' hf' ↦ ?_⟩
      rw [List.mem_singleton.1 hf']
      exact hto htext
  · exact ⟨[e], trace_of_ne hid, ⟨rfl, rfl⟩, fun h ↦ absurd h hid⟩

/-! ### Whole maps -/

/-- Merging traces every entry and makes the result compact. -/
theorem exists_merge_traced (hinner : inner.Covered) (houter : outer.Covered)
    (hsource : ∀ i ∈ inner.entries, i.source = source)
    (hinside : ∀ e ∈ outer.entries, e.source = inner.id → e.origin.stop ≤ inner.text.size) :
    ∃ ess, inner.merge outer = .ok (compact { outer with entries := ess.flatten }) ∧
      ({ outer with entries := ess.flatten } : SourceMap).Covered ∧
      List.Forall₂ (fun e es ↦ inner.compact.trace e = .ok es ∧
        (e.source = inner.id → inner.text ≠ [] → ∀ f ∈ es, f.source = source))
        outer.entries ess := by
  have hcompact : ∀ i ∈ inner.compact.entries, i.source = source := by
    rw [hinner.entries_compact]
    exact Entry.forall_mem_joinAll (fun _ _ _ hs _ ↦ hs)
      fun e he ↦ hsource e (List.mem_filter.1 he).1
  obtain ⟨ess, hess, hall⟩ := Except.exists_mapM inner.compact.trace outer.entries
    (R := fun e es ↦ inner.compact.trace e = .ok es ∧ Tiles e.target.start es e.target.stop ∧
      (e.source = inner.id → inner.text ≠ [] → ∀ f ∈ es, f.source = source)) fun e he ↦ by
    obtain ⟨es, htrace, htiles, hto⟩ :=
      exists_trace hinner.exact_compact hcompact (hinside e he)
    exact ⟨es, htrace, htrace, htiles, hto⟩
  refine ⟨ess, ?_, Tiles.filter_flatten (hall.imp fun _ _ h ↦ h.2.1) houter,
    hall.imp fun _ _ h ↦ ⟨h.1, h.2.2⟩⟩
  rw [merge, hess]
  rfl

/-- Two maps that pass the check can be merged if the outer one leads into the text of the inner one
only and that has one source. The result has the text of the outer map and passes the check. The
entries that lead elsewhere still cover their bytes, each with the place it had, and no other leads
to the inner text, unless that is empty. -/
theorem merge_partition (hinner : inner.coverage = .ok ()) (houter : outer.coverage = .ok ())
    (hsource : ∀ i ∈ inner.entries, i.source = source) (hother : source ≠ inner.id)
    (hinside : ∀ e ∈ outer.entries, e.source = inner.id → e.origin.stop ≤ inner.text.size) :
    ∃ m, inner.merge outer = .ok m ∧ m.id = outer.id ∧ m.text = outer.text ∧
      m.coverage = .ok () ∧
      (∀ e ∈ outer.entries, e.source ≠ inner.id → 0 < e.target.size →
        ∃ f ∈ m.entries, f.source = e.source ∧ f.target.contains e.target = true ∧
          ∀ n, e.target.start ≤ n → n < e.target.stop →
            m.origin? n = some (e.placeAt n e.origin.start)) ∧
      (inner.text ≠ [] → ∀ f ∈ m.entries, f.source ≠ inner.id) := by
  obtain ⟨ess, hmerge, hcovered, hall⟩ := exists_merge_traced (coverage_eq_ok_iff.1 hinner)
    (coverage_eq_ok_iff.1 houter) hsource hinside
  refine ⟨_, hmerge, rfl, rfl, hcovered.exact_compact.tiled.coverage, fun e he hne hpos ↦ ?_,
    fun htext ↦ ?_⟩
  · have hmem : e ∈ ess.flatten := by
      obtain ⟨es, hes, htrace, -⟩ := exists_of_mem_forall₂ hall.flip he
      have hself : inner.compact.trace e = .ok [e] := trace_of_ne hne
      obtain rfl := Except.ok.inj (hself.symm.trans htrace)
      exact List.mem_flatten_of_mem hes (List.mem_singleton_self e)
    obtain ⟨f, hf, hpart⟩ := hcovered.exists_partOf hmem hpos
    refine ⟨f, hf, hpart.source.symm, ?_, fun n ↦ hcovered.origin?_compact hmem⟩
    simp [Span.contains, hpart.start_le, hpart.stop_le]
  · -- joining keeps the source, so that what is traced need not be looked at joined
    rw [hcovered.entries_compact]
    refine Entry.forall_mem_joinAll (fun _ _ _ hne _ ↦ hne) fun f hf ↦ ?_
    obtain ⟨es, hes, hmem⟩ := List.mem_flatten.1 (List.mem_filter.1 hf).1
    obtain ⟨e, -, htrace, hto⟩ := exists_of_mem_forall₂ hall hes
    by_cases hid : e.source = inner.id
    · rw [hto hid htext f hmem]
      exact hother
    · have hself : inner.compact.trace e = .ok [e] := trace_of_ne hid
      obtain rfl := Except.ok.inj (hself.symm.trans htrace)
      rwa [List.mem_singleton.1 hmem]

/-- A text with a copy, a replacement, a place where nothing is left and another copy. -/
def edited : SourceMap :=
  ⟨⟨"edited"⟩, "abXcd".toList, [⟨⟨"file"⟩, ⟨0, 2⟩, ⟨0, 2⟩⟩, ⟨⟨"file"⟩, ⟨2, 3⟩, ⟨2, 1⟩⟩,
    ⟨⟨"file"⟩, ⟨5, 2⟩, ⟨3, 0⟩⟩, ⟨⟨"file"⟩, ⟨7, 2⟩, ⟨3, 2⟩⟩]⟩

/-- A text made of it by a copy across all of that, a deletion, a word from elsewhere and a
replacement that starts in the replaced part and ends at the end. -/
def edited₂ : SourceMap :=
  ⟨⟨"again"⟩, "bXc+yy".toList, [⟨⟨"edited"⟩, ⟨1, 3⟩, ⟨0, 3⟩⟩, ⟨⟨"edited"⟩, ⟨5, 0⟩, ⟨3, 0⟩⟩,
    ⟨⟨"names"⟩, ⟨8, 1⟩, ⟨3, 1⟩⟩, ⟨⟨"edited"⟩, ⟨2, 3⟩, ⟨4, 2⟩⟩]⟩

theorem merge_partition_edited : edited.coverage = .ok () ∧ edited₂.coverage = .ok () ∧
    ∃ m, edited.merge edited₂ = .ok m ∧ m.id = ⟨"again"⟩ ∧ m.text = "bXc+yy".toList ∧
      m.coverage = .ok () ∧ m.origin? 3 = some ⟨⟨"names"⟩, 8⟩ ∧
      ∀ f ∈ m.entries, f.source ≠ ⟨"edited"⟩ := by
  have hinner : edited.coverage = .ok () := by decide
  have houter : edited₂.coverage = .ok () := by decide
  have hsource : ∀ i ∈ edited.entries, i.source = ⟨"file"⟩ := by decide
  obtain ⟨m, hmerge, hid, htext, hcoverage, hkept, hgone⟩ :=
    merge_partition hinner houter hsource (by decide) (by decide)
  obtain ⟨f, -, -, -, horigin⟩ := hkept ⟨⟨"names"⟩, ⟨8, 1⟩, ⟨3, 1⟩⟩ (by decide) (by decide)
    (by decide)
  exact ⟨hinner, houter, m, hmerge, hid, htext, hcoverage, horigin 3 (by decide) (by decide),
    hgone (by decide)⟩

end SourceMap

end ShaderLink
