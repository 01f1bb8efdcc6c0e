import ShaderLink.Proofs.SourceMap.Lookup

/-!
# What compacting keeps

Making a map compact joins entries, so most of them are not found in the compact map. Each is still
**part of** an entry there (`Entry.PartOf`): it is the entry itself, or a copy inside a larger copy
that relates the same bytes. So every byte comes from where it came from before
(`SourceMap.Covered.origin?_compact`).
-/

namespace ShaderLink

namespace Entry

variable {e f g : Entry} {es : List Entry} {n : Nat}

/-- The entry `e` is `f`, or it is a part of the copy `f`. -/
def PartOf (e f : Entry) : Prop :=
  e = f ∨ e.isCopy = true ∧ f.isCopy = true ∧ e.source = f.source ∧
    f.target.start ≤ e.target.start ∧ e.target.stop ≤ f.target.stop ∧
    f.origin.start + (e.target.start - f.target.start) = e.origin.start

theorem PartOf.refl (e : Entry) : e.PartOf e :=
  .inl rfl

theorem PartOf.source (h : e.PartOf f) : e.source = f.source := by
  rcases h with rfl | ⟨-, -, h, -⟩
  · rfl
  · exact h

theorem PartOf.isCopy (h : e.PartOf f) : e.isCopy = f.isCopy := by
  rcases h with rfl | ⟨he, hf, -⟩
  · rfl
  · rw [he, hf]

theorem PartOf.start_le (h : e.PartOf f) : f.target.start ≤ e.target.start := by
  rcases h with rfl | ⟨-, -, -, h, -⟩
  · exact le_rfl
  · exact h

theorem PartOf.stop_le (h : e.PartOf f) : e.target.stop ≤ f.target.stop := by
  rcases h with rfl | ⟨-, -, -, -, h, -⟩
  · exact le_rfl
  · exact h

/-- How far into the source an entry starts, seen from what it is part of. -/
theorem PartOf.origin_start (h : e.PartOf f) :
    f.origin.start + (e.target.start - f.target.start) = e.origin.start := by
  rcases h with rfl | ⟨-, -, -, -, -, h⟩
  · omega
  · exact h

/-- An entry and what it is part of say the same of a byte. -/
theorem PartOf.placeAt (h : e.PartOf f) (hn : e.target.start ≤ n) :
    f.placeAt n f.origin.start = e.placeAt n e.origin.start := by
  have hstart := h.start_le
  have horigin := h.origin_start
  rcases h with rfl | ⟨he, hf, hsource, -⟩
  · rfl
  · simp only [Entry.placeAt, he, hf, hsource, if_true]
    congr 1
    omega

theorem isCopy_join (h : e.joins f = true) : (e.join f).isCopy = true := by
  simp only [joins, isCopy, Bool.and_eq_true, beq_iff_eq] at h
  simp only [join, isCopy, beq_iff_eq]
  omega

/-- What is part of the first of two entries that are joined is part of the joined one. -/
theorem PartOf.join_left (h : g.PartOf e) (hjoins : e.joins f = true) : g.PartOf (e.join f) := by
  have hjoined := isCopy_join hjoins
  simp only [joins, Bool.and_eq_true, beq_iff_eq] at hjoins
  obtain ⟨⟨⟨⟨-, hcopy⟩, -⟩, -⟩, -⟩ := hjoins
  have hstop := h.stop_le
  refine .inr ⟨h.isCopy.trans hcopy, hjoined, h.source, h.start_le, ?_, h.origin_start⟩
  simp only [join, Span.stop] at hstop ⊢
  omega

/-- What is part of the second of two entries that are joined is part of the joined one. -/
theorem PartOf.join_right (h : g.PartOf f) (hjoins : e.joins f = true) : g.PartOf (e.join f) := by
  have hjoined := isCopy_join hjoins
  simp only [joins, Bool.and_eq_true, beq_iff_eq] at hjoins
  obtain ⟨⟨⟨⟨hsource, hcopy⟩, hcopy'⟩, horigins⟩, htargets⟩ := hjoins
  have hstart := h.start_le
  have hstop := h.stop_le
  have horigin := h.origin_start
  simp only [Entry.isCopy, beq_iff_eq] at hcopy
  simp only [Span.stop] at hstop horigins htargets
  refine .inr ⟨h.isCopy.trans hcopy', hjoined, h.source.trans hsource.symm, ?_, ?_, ?_⟩
  · simp only [join]
    omega
  · simp only [join, Span.stop]
    omega
  · simp only [join]
    omega

theorem exists_partOf_joinFrom (h : g.PartOf e ∨ ∃ f ∈ es, g.PartOf f) :
    ∃ f ∈ e.joinFrom es, g.PartOf f := by
  induction es generalizing e with
  | nil =>
    rcases h with h | ⟨f, hf, -⟩
    · exact ⟨e, List.mem_singleton_self e, h⟩
    · exact absurd hf List.not_mem_nil
  | cons f es ih =>
    rw [joinFrom]
    split
    · rename_i hjoins
      refine ih ?_
      rcases h with h | ⟨f', hf', h⟩
      · exact .inl (h.join_left hjoins)
      · rcases List.mem_cons.1 hf' with rfl | hf'
        · exact .inl (h.join_right hjoins)
        · exact .inr ⟨f', hf', h⟩
    · rcases h with h | ⟨f', hf', h⟩
      · exact ⟨e, List.mem_cons_self, h⟩
      · have hrest : g.PartOf f ∨ ∃ f' ∈ es, g.PartOf f' := by
          rcases List.mem_cons.1 hf' with rfl | hf'
          · exact .inl h
          · exact .inr ⟨f', hf', h⟩
        obtain ⟨f'', hmem, hpart⟩ := ih hrest
        exact ⟨f'', List.mem_cons_of_mem e hmem, hpart⟩

/-- Every entry is part of an entry after neighbours were joined. -/
theorem exists_partOf_joinAll (he : e ∈ es) : ∃ f ∈ joinAll es, e.PartOf f := by
  cases es with
  | nil => exact absurd he List.not_mem_nil
  | cons f es =>
    refine exists_partOf_joinFrom ?_
    rcases List.mem_cons.1 he with rfl | he
    · exact .inl (.refl e)
    · exact .inr ⟨e, he, .refl e⟩

end Entry

namespace SourceMap

variable {m : SourceMap} {e : Entry} {n : Nat}

/-- Every entry for something is part of an entry of the compact map. -/
theorem Covered.exists_partOf (h : m.Covered) (he : e ∈ m.entries) (hpos : 0 < e.target.size) :
    ∃ f ∈ m.compact.entries, e.PartOf f := by
  rw [h.entries_compact]
  have hne : e.target.isEmpty = false := by simpa [Span.isEmpty] using hpos.ne'
  exact Entry.exists_partOf_joinAll (List.mem_filter.2 ⟨he, by simp [hne]⟩)

/-- In the compact map a byte comes from where its entry said. -/
theorem Covered.origin?_compact (h : m.Covered) (he : e ∈ m.entries) (hstart : e.target.start ≤ n)
    (hstop : n < e.target.stop) : m.compact.origin? n = some (e.placeAt n e.origin.start) := by
  obtain ⟨f, hf, hpart⟩ := h.exists_partOf he (by simp only [Span.stop] at hstop; omega)
  rw [h.exact_compact.tiled.origin?_eq hf (hpart.start_le.trans hstart)
    (hstop.trans_le hpart.stop_le), hpart.placeAt hstart]

end SourceMap

end ShaderLink
