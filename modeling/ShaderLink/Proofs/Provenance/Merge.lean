import ShaderLink.Proofs.Except
import ShaderLink.Proofs.Provenance.Agreement
import ShaderLink.Proofs.SourceMap.Pieces

/-!
# Merging keeps provenance

The entries of an outer map lead into the text of an inner one. If they do so rightly
(`Entry.Through`), merging finds every place it needs, and the merged map traces the same text with
the origins of the inner one (`SourceMap.exists_merge`).

A copy is cut into pieces where the inner entries meet. The one case to look at twice is a piece of
an inner replacement: its origin is the whole range, and if the piece happens to have the length of
the range it passes for a copy. It still leads into the range, and more is not promised of a
replaced byte.
-/

namespace ShaderLink

namespace Entry

/-- The entry leads rightly into a traced text: a copy to bytes that may be found where the
origins ask for it, a replacement to a range of bytes that were replaced. -/
structure Through (inner : Traced) (id : SourceId) (origins : List Origin) (e : Entry) : Prop where
  source : e.source = id
  size_pos : 0 < e.origin.size
  stop_le : e.origin.stop ≤ inner.text.size
  copied : e.isCopy = true → ∀ p, e.target.start ≤ p → p < e.target.stop →
    ∃ o o', origins[p]? = some o ∧
      inner.origins[e.origin.start + (p - e.target.start)]? = some o' ∧ o'.Refines o
  replaced : ¬e.isCopy = true → ∀ p, e.target.start ≤ p → p < e.target.stop →
    ∃ file range, origins[p]? = some (.replaced file range) ∧
      ∀ q, e.origin.start ≤ q → q < e.origin.stop →
        ∃ o', inner.origins[q]? = some o' ∧ o'.Within file range

/-- An entry leads where it did when more text is added. -/
theorem Through.append {inner : Traced} {id : SourceId} {os : List Origin} {e : Entry}
    (h : e.Through inner id os) (os' : List Origin) : e.Through inner id (os ++ os') := by
  have hleft {p : Nat} {o : Origin} (ho : os[p]? = some o) : (os ++ os')[p]? = some o := by
    rw [List.getElem?_append_left (List.getElem?_eq_some_iff.1 ho).1, ho]
  refine ⟨h.source, h.size_pos, h.stop_le, fun hcopy p hp hp' ↦ ?_, fun hcopy p hp hp' ↦ ?_⟩
  · obtain ⟨o, o', ho, ho', href⟩ := h.copied hcopy p hp hp'
    exact ⟨o, o', hleft ho, ho', href⟩
  · obtain ⟨file, range, ho, hall⟩ := h.replaced hcopy p hp hp'
    exact ⟨file, range, hleft ho, hall⟩

/-- A joined entry leads where the entries did that were joined. -/
theorem Through.join {inner : Traced} {id : SourceId} {origins : List Origin} {e e' : Entry}
    (hjoins : e.joins e' = true) (h : e.Through inner id origins)
    (h' : e'.Through inner id origins) : (e.join e').Through inner id origins := by
  have hcopy := isCopy_join hjoins
  simp only [joins, Bool.and_eq_true, beq_iff_eq] at hjoins
  obtain ⟨⟨⟨⟨-, hcopy₁⟩, hcopy₂⟩, horigin⟩, htarget⟩ := hjoins
  have hpos := h.size_pos
  have hstop' := h'.stop_le
  refine ⟨h.source, by simp only [Entry.join]; omega, ?_, fun _ p hstart hstop ↦ ?_,
    fun hno ↦ absurd hcopy hno⟩
  · simp only [Entry.join, Span.stop] at horigin hstop' ⊢
    omega
  · -- only copies are joined, and their origins meet where their targets do
    by_cases hp : p < e.target.stop
    · exact h.copied hcopy₁ p hstart hp
    · have hp' : e'.target.start ≤ p := htarget ▸ Nat.le_of_not_lt hp
      have hplace : e.origin.start + (p - e.target.start) =
          e'.origin.start + (p - e'.target.start) := by
        simp only [isCopy, beq_iff_eq, Span.stop] at hcopy₁ horigin htarget
        omega
      obtain ⟨o, o', ho, ho', href⟩ := h'.copied hcopy₂ p hp' (by
        simp only [Entry.join, Span.stop] at hstop htarget ⊢
        omega)
      exact ⟨o, o', ho, by rw [← ho', ← hplace]; rfl, href⟩

end Entry

namespace SourceMap

variable {inner outer : SourceMap} {itr tr : Traced} {e : Entry}

/-! ### Pieces of a copy -/

/-- A piece says of each byte what the inner entry says of the byte it leads to. -/
theorem agrees_piece {i : Entry} {start stop p : Nat} {o : Origin}
    (hle : e.origin.start ≤ start) (hstart : i.target.start ≤ start)
    (hp : (piece i e start stop).target.start ≤ p) (hp' : p < (piece i e start stop).target.stop)
    (h : i.Agrees (e.origin.start + (p - e.target.start)) o) :
    (piece i e start stop).Agrees p o := by
  simp only [piece, Span.stop] at hp hp'
  have hq : i.target.start ≤ e.origin.start + (p - e.target.start) := by omega
  by_cases hi : i.isCopy = true
  · have hpiece : (piece i e start stop).isCopy = true := isCopy_piece hi
    refine h.of_copies hi hpiece rfl ?_ hq hp
    rw [Entry.firstAt_of_isCopy hpiece, Entry.firstAt_of_isCopy hi]
    simp only [piece, hi, if_true]
    omega
  · have horigin : (piece i e start stop).origin = i.origin := origin_piece hi
    cases o with
    | copied file n => exact absurd h.2.1 hi
    | inserted source => exact h
    | replaced file range =>
      obtain ⟨hsource, hfirst, hfirst', hlast⟩ := h
      rw [Entry.firstAt_of_not_isCopy hi] at hfirst hfirst'
      rw [Entry.lastAt_of_not_isCopy hi] at hlast
      refine ⟨hsource, ?_⟩
      by_cases hpiece : (piece i e start stop).isCopy = true
      · -- a piece that only looks like a copy
        rw [Entry.lastAt_of_isCopy hpiece hp, Entry.firstAt_of_isCopy hpiece, horigin]
        simp only [Entry.isCopy, horigin, beq_iff_eq] at hpiece
        simp only [piece, Span.stop] at hpiece hlast ⊢
        omega
      · rw [Entry.firstAt_of_not_isCopy hpiece, Entry.lastAt_of_not_isCopy hpiece, horigin]
        exact ⟨hfirst, hfirst', hlast⟩

/-- The pieces of a copy say of each byte what the inner map says. -/
theorem exists_tracePieces_traces (hinner : inner.Tiled) (htraces : inner.Traces itr)
    {origins : List Origin} (h : e.Through itr inner.id origins) (hcopy : e.isCopy = true) :
    ∃ es, inner.tracePieces e e.origin.start = .ok es ∧ Tiles e.target.start es e.target.stop ∧
      ∀ f ∈ es, f.Traces origins := by
  have hsize : e.origin.size = e.target.size := by simpa [Entry.isCopy] using hcopy
  obtain ⟨es, hes, htiles, hmem⟩ := exists_tracePieces hinner hcopy (htraces.text ▸ h.stop_le)
    le_rfl (by simp only [Span.stop]; omega)
  refine ⟨es, hes, by simpa using htiles, fun f hf p hp hp' ↦ ?_⟩
  obtain ⟨i, hi, hshare, rfl⟩ := (hmem f).1 hf
  -- the outer entry leads to a byte of which the inner one says where it comes from
  have hp₁ := hp
  have hp₂ := hp'
  simp only [piece, Span.stop] at hp hp' hshare
  obtain ⟨o, o', ho, ho', href⟩ := h.copied hcopy p (by omega) (by simp only [Span.stop]; omega)
  obtain ⟨o'', ho'', hagrees⟩ := htraces.entries i hi
    (e.origin.start + (p - e.target.start)) (by omega) (by simp only [Span.stop]; omega)
  obtain rfl := Option.some.inj (ho'.symm.trans ho'')
  exact ⟨o, ho, agrees_piece (le_max_right _ _) (le_max_left _ _) hp₁ hp₂
    (hagrees.of_refines (by omega) href)⟩

/-! ### Replacements -/

/-- Where a replaced range starts, found from its first byte. -/
theorem exists_traceStart_within (hinner : inner.Tiled) (htraces : inner.Traces itr) {n : Nat}
    {file : SourceText} {range : Span} {o : Origin} (ho : itr.origins[n]? = some o)
    (hin : o.Within file range) :
    ∃ place, inner.traceStart n = .ok place ∧ place.source = file.id ∧
      range.start ≤ place.offset ∧ place.offset < range.stop := by
  have hn : n < inner.text.size := by
    rw [htraces.text, ← itr.length_origins]
    exact (List.getElem?_eq_some_iff.1 ho).1
  obtain ⟨i, hi, hstart, hstop, htrace⟩ := exists_traceStart hinner hn
  obtain ⟨o', ho', hagrees⟩ := htraces.entries i hi n hstart hstop
  obtain rfl := Option.some.inj (ho.symm.trans ho')
  obtain ⟨hsource, hfirst, hfirst', -⟩ :=
    hagrees.of_refines (o := .replaced file range) hstart (.inr ⟨file, range, rfl, hin⟩)
  exact ⟨i.placeAt n i.origin.start, htrace, hsource, hfirst, hfirst'⟩

/-- Where a replaced range ends, found from its last byte. -/
theorem exists_traceEnd_within (hinner : inner.Tiled) (htraces : inner.Traces itr) {n : Nat}
    {file : SourceText} {range : Span} {o : Origin} (ho : itr.origins[n]? = some o)
    (hin : o.Within file range) :
    ∃ place, inner.traceEnd (n + 1) = .ok place ∧ place.source = file.id ∧
      place.offset ≤ range.stop := by
  have hn : n < inner.text.size := by
    rw [htraces.text, ← itr.length_origins]
    exact (List.getElem?_eq_some_iff.1 ho).1
  obtain ⟨i, hi, hstart, hstop, htrace⟩ := exists_traceEnd hinner (Nat.succ_pos n) hn
  obtain ⟨o', ho', hagrees⟩ := htraces.entries i hi n (Nat.le_of_lt_succ hstart) hstop
  obtain rfl := Option.some.inj (ho.symm.trans ho')
  obtain ⟨hsource, -, -, hlast⟩ := hagrees.of_refines (o := .replaced file range)
    (Nat.le_of_lt_succ hstart) (.inr ⟨file, range, rfl, hin⟩)
  exact ⟨i.placeAt (n + 1) i.origin.stop, htrace, hsource, hlast⟩

/-- An entry between two places of a range leads into the range, also if it passes for a copy. -/
theorem agrees_between {file : SourceText} {range target : Span} {start stop p : Nat}
    (hlo : range.start ≤ start) (hlt : start < range.stop) (hhi : stop ≤ range.stop)
    (hp : target.start ≤ p) (hp' : p < target.stop) :
    (⟨file.id, Span.between start (max stop start), target⟩ : Entry).Agrees p
      (.replaced file range) := by
  refine ⟨rfl, ?_⟩
  by_cases hcopy :
    (⟨file.id, Span.between start (max stop start), target⟩ : Entry).isCopy = true
  · rw [Entry.lastAt_of_isCopy hcopy hp, Entry.firstAt_of_isCopy hcopy]
    simp only [Entry.isCopy, Span.size_between, beq_iff_eq] at hcopy
    simp only [Span.start_between, Span.stop] at hp' hlt hhi ⊢
    omega
  · rw [Entry.firstAt_of_not_isCopy hcopy, Entry.lastAt_of_not_isCopy hcopy]
    rw [Span.start_between, Span.stop_between (by omega)]
    omega

/-- What an entry becomes when it is traced back. -/
theorem exists_trace_traces (hinner : inner.Tiled) (htraces : inner.Traces itr)
    {origins : List Origin} (h : e.Through itr inner.id origins) (hpos : 0 < e.target.size) :
    ∃ es, inner.trace e = .ok es ∧ Tiles e.target.start es e.target.stop ∧
      ∀ f ∈ es, f.Traces origins := by
  have hnonempty : e.origin.isEmpty = false := by
    simpa [Span.isEmpty] using h.size_pos.ne'
  rw [trace, if_neg (by simpa using h.source)]
  by_cases hcopy : e.isCopy = true
  · obtain ⟨es, hes, htiles, hall⟩ := exists_tracePieces_traces hinner htraces h hcopy
    rw [if_pos (by simp [hcopy, hnonempty])]
    exact ⟨es, hes, htiles, hall⟩
  · rw [if_neg (by simp [hcopy])]
    have hrange := h.replaced hcopy
    -- the range of the first byte is the range of them all
    obtain ⟨file, range, -, hall⟩ := hrange e.target.start le_rfl (by simp only [Span.stop]; omega)
    have hsize := h.size_pos
    obtain ⟨o, ho, hin⟩ := hall e.origin.start le_rfl (by simp only [Span.stop]; omega)
    obtain ⟨start, hstart, hsource, -, -⟩ := exists_traceStart_within hinner htraces ho hin
    obtain ⟨o', ho', hin'⟩ := hall (e.origin.stop - 1) (by simp only [Span.stop]; omega)
      (by simp only [Span.stop]; omega)
    obtain ⟨stop, hstop, hsource', -⟩ := exists_traceEnd_within hinner htraces ho' hin'
    have hlast : e.origin.stop - 1 + 1 = e.origin.stop := by
      simp only [Span.stop]
      omega
    rw [hlast] at hstop
    refine ⟨[⟨start.source, Span.between start.offset (max stop.offset start.offset), e.target⟩],
      ?_, ⟨rfl, rfl⟩, ?_⟩
    · simp [hstart, hstop, hnonempty, hsource, hsource', Bind.bind, Except.bind, pure, Except.pure]
    · intro f hf p hp hp'
      obtain rfl := List.mem_singleton.1 hf
      obtain ⟨file', range', horigin, hall'⟩ := hrange p hp hp'
      refine ⟨_, horigin, ?_⟩
      obtain ⟨o₁, ho₁, hin₁⟩ := hall' e.origin.start le_rfl (by simp only [Span.stop]; omega)
      obtain ⟨start', hstart', hs, hlo, hlt⟩ := exists_traceStart_within hinner htraces ho₁ hin₁
      obtain ⟨o₂, ho₂, hin₂⟩ := hall' (e.origin.stop - 1) (by simp only [Span.stop]; omega)
        (by simp only [Span.stop]; omega)
      obtain ⟨stop', hstop', -, hhi⟩ := exists_traceEnd_within hinner htraces ho₂ hin₂
      rw [hlast] at hstop'
      obtain rfl := Except.ok.inj (hstart.symm.trans hstart')
      obtain rfl := Except.ok.inj (hstop.symm.trans hstop')
      rw [hs]
      exact agrees_between hlo hlt hhi hp hp'

/-! ### Whole maps -/

/-- The map leads rightly into a traced text from another. -/
structure Through (outer : SourceMap) (inner : Traced) (id : SourceId) (tr : Traced) : Prop where
  text : outer.text = tr.text
  exact : outer.Exact
  entries : ∀ e ∈ outer.entries, e.Through inner id tr.origins

/-- Merging a map with one that it leads into succeeds, and leads back all the way. -/
theorem exists_merge (hinner : inner.Exact) (htraces : inner.Traces itr)
    (h : outer.Through itr inner.id tr) :
    ∃ m, inner.merge outer = .ok m ∧ m.id = outer.id ∧ m.Exact ∧ m.Traces tr := by
  have hexact : inner.compact.Exact := hinner.tiled.covered.exact_compact
  have hcompact : inner.compact.Traces itr := htraces.compact hinner.tiled.covered
  obtain ⟨ess, hess, hall⟩ := Except.exists_mapM inner.compact.trace outer.entries
    fun e he ↦ exists_trace_traces hexact.tiled hcompact (h.entries e he) (h.exact.size_pos e he)
  have hcovered : ({ outer with entries := ess.flatten } : SourceMap).Covered :=
    Tiles.filter_flatten (hall.imp fun _ _ h ↦ h.1) h.exact.tiled.covered
  have hmerged : ({ outer with entries := ess.flatten } : SourceMap).Traces tr := by
    refine ⟨h.text, fun e he ↦ ?_⟩
    obtain ⟨es, hes, hmem⟩ := List.mem_flatten.1 he
    obtain ⟨e', -, -, htrace⟩ := exists_of_mem_forall₂ hall hes
    exact htrace e hmem
  refine ⟨compact { outer with entries := ess.flatten }, ?_, rfl, hcovered.exact_compact,
    hmerged.compact hcovered⟩
  rw [merge, hess]
  rfl

end SourceMap

end ShaderLink
