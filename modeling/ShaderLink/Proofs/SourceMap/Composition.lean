import ShaderLink.Proofs.SourceMap.Merging

/-!
# When merging composes

A byte copied from an inner text should come from where its place in that text comes from. Merging
cuts the copy along the inner entries, and cutting can change what an entry is: whether it relates
single bytes is told by the sizes of its spans, and a piece of a replacement can come to have the
size of what was replaced. Such a piece passes for a copy, and all its bytes but the first are led
astray (`SourceMap.placeAt_piece_iff`).

Apart from that merging composes, wherever look-up in the inner map finds the entry that holds the
byte (`SourceMap.merge_composes_iff`).
-/

namespace ShaderLink

/-- The bytes that two spans share. -/
def Span.overlap (s t : Span) : Span :=
  between (max s.start t.start) (min s.stop t.stop)

namespace SourceMap

variable {m inner outer : SourceMap} {e i o : Entry} {n p q start stop : Nat} {source : SourceId}

/-! ### What a piece says -/

/-- A piece of a copy says of a byte what the inner entry says of the place copied from. -/
theorem placeAt_piece_of_isCopy (hi : i.isCopy = true) (hinner : i.target.start ≤ start)
    (houter : o.origin.start ≤ start)
    (hp : o.target.start + (start - o.origin.start) ≤ p) :
    (piece i o start stop).placeAt p (piece i o start stop).origin.start =
      i.placeAt (o.origin.start + (p - o.target.start)) i.origin.start := by
  simp only [Entry.placeAt, isCopy_piece hi, hi, if_true]
  simp only [piece, hi, if_true]
  congr 1
  omega

/-- A piece of a replacement says of a byte what the replacement says, unless it passes for a copy
and the byte is not the first. -/
theorem placeAt_piece_iff (hi : ¬i.isCopy = true) (houter : o.origin.start ≤ start)
    (hp : o.target.start + (start - o.origin.start) ≤ p) :
    (piece i o start stop).placeAt p (piece i o start stop).origin.start =
        i.placeAt (o.origin.start + (p - o.target.start)) i.origin.start ↔
      stop - start ≠ i.origin.size ∨ o.origin.start + (p - o.target.start) = start := by
  have hcopy : (piece i o start stop).isCopy = true ↔ i.origin.size = stop - start := by
    rw [Entry.isCopy, origin_piece hi, beq_iff_eq]
    rfl
  have hsource : (piece i o start stop).source = i.source := rfl
  simp only [Entry.placeAt, hi, hcopy, origin_piece hi, hsource]
  by_cases hsize : i.origin.size = stop - start
  · simp only [hsize, if_true, piece]
    simp
    omega
  · simp [hsize, Ne.symm hsize]

/-! ### Whole maps -/

/-- Every byte of a covered text has an entry whose target holds it. -/
theorem Covered.exists_mem (h : m.Covered) (hn : n < m.text.size) :
    ∃ e ∈ m.entries, e.target.start ≤ n ∧ n < e.target.stop := by
  obtain ⟨e, -, he, hstart, hstop⟩ := Tiles.find?_at h (Nat.zero_le n) hn
  exact ⟨e, (List.mem_filter.1 he).1, hstart, hstop⟩

/-- A copy is cut along the entry that holds one of its bytes, or along the larger copy that the
entry is part of in the compact map. -/
theorem Covered.exists_piece (hinner : inner.Covered) (hcopy : o.isCopy = true)
    (hid : o.source = inner.id) (hstop : o.origin.stop ≤ inner.text.size) (hlo : o.origin.start ≤ q)
    (hhi : q < o.origin.stop) (he : e ∈ inner.entries) (hstart : e.target.start ≤ q)
    (hend : q < e.target.stop) {es : List Entry} (htrace : inner.compact.trace o = .ok es) :
    ∃ i, e.PartOf i ∧
      piece i o (max i.target.start o.origin.start) (min i.target.stop o.origin.stop) ∈ es := by
  obtain ⟨i, hi, hpart⟩ := hinner.exists_partOf he (by simp only [Span.stop] at hend; omega)
  have histart := hpart.start_le
  have histop := hpart.stop_le
  have hcut : inner.compact.trace o = inner.compact.tracePieces o o.origin.start :=
    trace_of_isCopy hid hcopy (by simp only [Span.stop] at hhi; omega)
  obtain ⟨es', hes', -, hmem⟩ := exists_tracePieces hinner.exact_compact.tiled hcopy hstop
    le_rfl (hlo.trans hhi.le)
  obtain rfl := Except.ok.inj (htrace.symm.trans (hcut.trans hes'))
  exact ⟨i, hpart, (hmem _).2 ⟨i, hi, by omega, rfl⟩⟩

/-- Two maps that pass the check can be merged if the outer one leads into the text of the inner one
only and that has one source. A byte that the outer one copies from the inner text then comes from
where its place there comes from, unless it lies in a piece of a replacement that passes for a
copy, behind the first byte. -/
theorem merge_composes_iff (hinner : inner.coverage = .ok ()) (houter : outer.coverage = .ok ())
    (hsource : ∀ i ∈ inner.entries, i.source = source)
    (hinside : ∀ e ∈ outer.entries, e.source = inner.id → e.origin.stop ≤ inner.text.size) :
    ∃ m, inner.merge outer = .ok m ∧ ∀ p o, outer.entryAt? p = some o → p < o.target.stop →
      o.isCopy = true → o.source = inner.id →
      ∃ q e, outer.origin? p = some ⟨inner.id, q⟩ ∧
        e ∈ inner.entries ∧ e.target.start ≤ q ∧ q < e.target.stop ∧
        (inner.entryAt? q = some e → (m.origin? p = inner.origin? q ↔
          e.isCopy = true ∨ (e.target.overlap o.origin).size ≠ e.origin.size ∨
            q = (e.target.overlap o.origin).start)) := by
  have hcovered := coverage_eq_ok_iff.1 hinner
  obtain ⟨ess, hmerge, hmerged, hall⟩ := exists_merge_traced hcovered
    (coverage_eq_ok_iff.1 houter) hsource hinside
  refine ⟨_, hmerge, fun p o hat hlt hcopy hid ↦ ?_⟩
  have ho := mem_of_entryAt? hat
  have hstart : o.target.start ≤ p := by
    rw [entryAt?, Option.filter_eq_some_iff] at hat
    simpa using hat.2
  have hstop := hinside o ho hid
  obtain ⟨q, hq⟩ : ∃ q, q = o.origin.start + (p - o.target.start) := ⟨_, rfl⟩
  have hhi : q < o.origin.stop := by
    simp only [Entry.isCopy, beq_iff_eq] at hcopy
    simp only [Span.stop] at hlt ⊢
    omega
  -- the inner entry at the place that is copied
  obtain ⟨e, he, hqstart, hqstop⟩ := hcovered.exists_mem (hhi.trans_le hstop)
  refine ⟨q, e, ?_, he, hqstart, hqstop, fun hfound ↦ ?_⟩
  · rw [origin?, hat, hq]
    simp [Entry.placeAt, hcopy, hid]
  obtain ⟨es, hes, htrace, -⟩ := exists_of_mem_forall₂ hall.flip ho
  -- tracing has cut this entry to what the outer one shows of it
  obtain ⟨i, hpart, hpiece⟩ :=
    hcovered.exists_piece hcopy hid hstop (by omega) hhi he hqstart hqstop htrace
  have histart := hpart.start_le
  have histop := hpart.stop_le
  have hmerged_p := hmerged.origin?_compact (n := p) (List.mem_flatten_of_mem hes hpiece)
    (by simp only [piece]; omega) (by simp only [piece, Span.stop] at *; omega)
  have hinner_q : inner.origin? q = some (e.placeAt q e.origin.start) := by
    rw [origin?, hfound]
    rfl
  rw [hmerged_p, hinner_q, Option.some_inj, ← hpart.placeAt hqstart, hq]
  by_cases hecopy : e.isCopy = true
  · refine iff_of_true ?_ (.inl hecopy)
    exact placeAt_piece_of_isCopy (hpart.isCopy ▸ hecopy) (le_max_left _ _) (le_max_right _ _)
      (by omega)
  · -- a replacement is never joined with another entry
    obtain rfl : e = i := hpart.resolve_right fun h ↦ hecopy h.1
    rw [placeAt_piece_iff hecopy (le_max_right _ _) (by omega)]
    simp only [Span.overlap, Span.size_between, Span.start_between, hecopy]
    simp

/-- A word of five bytes in the place of three. -/
def replaced : SourceMap :=
  (empty ⟨"inner"⟩).add "xyzzy".toList ⟨"file"⟩ ⟨0, 3⟩

/-- The first three of the five bytes. -/
def shortened : SourceMap :=
  (empty ⟨"outer"⟩).add "xyz".toList ⟨"inner"⟩ ⟨0, 3⟩

theorem merge_composes_iff_shortened : replaced.coverage = .ok () ∧ shortened.coverage = .ok () ∧
    ∃ m, replaced.merge shortened = .ok m ∧ shortened.origin? 1 = some ⟨⟨"inner"⟩, 1⟩ ∧
      m.origin? 1 ≠ replaced.origin? 1 := by
  have hinner : replaced.coverage = .ok () := by decide
  have houter : shortened.coverage = .ok () := by decide
  have hsource : ∀ i ∈ replaced.entries, i.source = ⟨"file"⟩ := by decide
  obtain ⟨m, hmerge, hbytes⟩ := merge_composes_iff hinner houter hsource (by decide)
  have hat : shortened.entryAt? 1 = some ⟨⟨"inner"⟩, ⟨0, 3⟩, ⟨0, 3⟩⟩ := by decide +kernel
  obtain ⟨q, e, hq, he, -, -, hiff⟩ := hbytes 1 _ hat (by decide) (by decide) rfl
  have hone : shortened.origin? 1 = some ⟨⟨"inner"⟩, 1⟩ := by decide +kernel
  obtain rfl : q = 1 := congrArg Place.offset (Option.some.inj (hq.symm.trans hone))
  obtain rfl : e = ⟨⟨"file"⟩, ⟨0, 3⟩, ⟨0, 5⟩⟩ := List.mem_singleton.1 he
  refine ⟨hinner, houter, m, hmerge, hone, mt (hiff (by decide +kernel)).1 ?_⟩
  decide

end SourceMap

end ShaderLink
