import ShaderLink.Proofs.SourceMap.Compaction

/-!
# Compact maps are a normal form

What compacting leaves does not depend on the entries being in order or apart: they may overlap,
leave gaps or be for nothing. The entries of the result are in the order of their targets, none is
for the empty span, and no two neighbours could be one copy (`SourceMap.IsCompact`). Exactly the
maps of which this holds are left alone (`SourceMap.compact_eq_self_iff`), so that a second time
changes nothing.

Joining asks whether the last entry, which may have grown, joins the next. That it has grown makes
no difference for later joins, because an entry grows at its end: as far as it can be joined to the
one in front of it, it stays what it was (`Entry.exists_joinFrom_eq_cons`).
-/

namespace ShaderLink

namespace Entry

/-- Both are copies from one source, and the second goes on where the first stops, in the source and
in the map's text. -/
structure Continues (f e : Entry) : Prop where
  source : e.source = f.source
  copies : e.origin.size = e.target.size ∧ f.origin.size = f.target.size
  origin : e.origin.stop = f.origin.start
  target : e.target.stop = f.target.start

variable {e f : Entry} {es : List Entry}

theorem joins_iff : e.joins f = true ↔ f.Continues e := by
  simp only [joins, isCopy, Bool.and_eq_true, beq_iff_eq]
  constructor
  · rintro ⟨⟨⟨⟨hsource, he⟩, hf⟩, horigin⟩, htarget⟩
    exact ⟨hsource, ⟨he, hf⟩, horigin, htarget⟩
  · rintro ⟨hsource, ⟨he, hf⟩, horigin, htarget⟩
    exact ⟨⟨⟨⟨hsource, he⟩, hf⟩, horigin⟩, htarget⟩

/-- What an entry continues does not depend on where it ends. -/
theorem continues_join_iff {d : Entry} (h : e.joins f = true) :
    (e.join f).Continues d ↔ e.Continues d := by
  have hcopy : (e.join f).origin.size = (e.join f).target.size := by
    simpa [isCopy] using isCopy_join h
  have he := (joins_iff.1 h).copies.1
  exact ⟨fun h ↦ ⟨h.source, ⟨h.copies.1, he⟩, h.origin, h.target⟩,
    fun h ↦ ⟨h.source, ⟨h.copies.1, hcopy⟩, h.origin, h.target⟩⟩

/-- What continues the second of two entries that are joined continues the joined one. -/
theorem joins_join {d : Entry} (h : d.joins e = true) (h' : e.joins f = true) :
    (d.join e).joins f = true := by
  obtain ⟨hsource, hcopies, horigin, htarget⟩ := joins_iff.1 h
  obtain ⟨hsource', hcopies', horigin', htarget'⟩ := joins_iff.1 h'
  simp only [Span.stop] at horigin horigin' htarget htarget'
  refine joins_iff.2 ⟨hsource.trans hsource', ⟨?_, hcopies'.2⟩, ?_, ?_⟩ <;>
    simp only [join, Span.stop] <;> omega

/-- An entry that has been joined with others continues what it did. -/
theorem exists_joinFrom_eq_cons (e : Entry) (es : List Entry) :
    ∃ f fs, e.joinFrom es = f :: fs ∧ ∀ d, f.Continues d ↔ e.Continues d := by
  induction es generalizing e with
  | nil => exact ⟨e, [], rfl, fun _ ↦ Iff.rfl⟩
  | cons f es ih =>
    rw [joinFrom]
    split
    · rename_i hjoins
      obtain ⟨g, gs, hjoined, hiff⟩ := ih (e.join f)
      exact ⟨g, gs, hjoined, fun d ↦ (hiff d).trans (continues_join_iff hjoins)⟩
    · exact ⟨e, _, rfl, fun _ ↦ Iff.rfl⟩

/-- Behind each entry stands one that does not continue it. -/
theorem isChain_joinFrom (e : Entry) (es : List Entry) :
    (e.joinFrom es).IsChain fun e f ↦ ¬f.Continues e := by
  induction es generalizing e with
  | nil => exact .singleton e
  | cons f es ih =>
    rw [joinFrom]
    split
    · exact ih (e.join f)
    · rename_i hjoins
      obtain ⟨g, gs, hjoined, hiff⟩ := exists_joinFrom_eq_cons f es
      have hchain := ih f
      rw [hjoined] at hchain ⊢
      exact .cons_cons (fun h ↦ hjoins (joins_iff.2 ((hiff e).1 h))) hchain

theorem isChain_joinAll (es : List Entry) :
    (joinAll es).IsChain fun e f ↦ ¬f.Continues e := by
  cases es with
  | nil => exact .nil
  | cons e es => exact isChain_joinFrom e es

/-- Joining leaves the starts of targets in order. -/
theorem pairwise_joinFrom (h : (e :: es).Pairwise (before · ·)) :
    (e.joinFrom es).Pairwise (before · ·) := by
  induction es generalizing e with
  | nil => exact h
  | cons f es ih =>
    obtain ⟨he, hrest⟩ := List.pairwise_cons.1 h
    rw [joinFrom]
    split
    · exact ih (List.pairwise_cons.2
        ⟨fun g hg ↦ he g (List.mem_cons_of_mem f hg), (List.pairwise_cons.1 hrest).2⟩)
    · refine List.pairwise_cons.2 ⟨forall_mem_joinFrom (fun _ _ _ h _ ↦ h) ?_ ?_, ih hrest⟩
      · exact he f List.mem_cons_self
      · exact fun g hg ↦ he g (List.mem_cons_of_mem f hg)

theorem pairwise_joinAll (h : es.Pairwise (before · ·)) : (joinAll es).Pairwise (before · ·) := by
  cases es with
  | nil => exact h
  | cons e es => exact pairwise_joinFrom h

/-- Where no entry continues the one in front of it, nothing is joined. -/
theorem joinFrom_of_isChain (h : (e :: es).IsChain fun e f ↦ ¬f.Continues e) :
    e.joinFrom es = e :: es := by
  induction es generalizing e with
  | nil => rfl
  | cons f es ih =>
    obtain ⟨hef, hrest⟩ := List.isChain_cons_cons.1 h
    rw [joinFrom, if_neg (mt joins_iff.1 hef), ih hrest]

theorem joinAll_of_isChain (h : es.IsChain fun e f ↦ ¬f.Continues e) : joinAll es = es := by
  cases es with
  | nil => rfl
  | cons e es => exact joinFrom_of_isChain h

/-- It makes no difference whether a copy was cut in two. -/
theorem joinAll_append_join {d : Entry} (h : d.joins e = true) (front es : List Entry) :
    joinAll (front ++ d :: e :: es) = joinAll (front ++ d.join e :: es) := by
  have hjoin : d.joinFrom (e :: es) = (d.join e).joinFrom es := by rw [joinFrom, if_pos h]
  cases front with
  | nil => exact hjoin
  | cons f front =>
    show f.joinFrom (front ++ d :: e :: es) = f.joinFrom (front ++ d.join e :: es)
    induction front generalizing f with
    | nil =>
      have hiff : f.joins (d.join e) = true ↔ f.joins d = true := by
        rw [joins_iff, joins_iff, continues_join_iff h]
      rw [List.nil_append, List.nil_append, joinFrom, joinFrom.eq_2 f (d.join e)]
      by_cases hf : f.joins d = true
      · -- one after the other or both at once, the copy grows by the same bytes
        have hassoc : (f.join d).join e = f.join (d.join e) := by
          simp only [join, Nat.add_assoc]
        rw [if_pos hf, if_pos (hiff.2 hf), joinFrom, if_pos (joins_join hf h), hassoc]
      · rw [if_neg hf, if_neg (mt hiff.1 hf), hjoin]
    | cons g front ih =>
      rw [List.cons_append, List.cons_append, joinFrom, joinFrom, ih, ih]

/-- Entries are ordered by a number. -/
theorem before_trans (e f g : Entry) (h : e.before f = true) (h' : f.before g = true) :
    e.before g = true := by
  simp only [before, decide_eq_true_eq] at *
  exact h.trans h'

theorem before_total (e f : Entry) : (e.before f || f.before e) = true := by
  simpa [before] using Nat.le_total e.target.start f.target.start

end Entry

namespace SourceMap

/-- The entries are in the order of their targets, none is for nothing, and none continues the one
in front of it. -/
structure IsCompact (m : SourceMap) : Prop where
  sorted : m.entries.Pairwise fun e f ↦ e.target.start ≤ f.target.start
  size_pos : ∀ e ∈ m.entries, 0 < e.target.size
  apart : m.entries.IsChain fun e f ↦ ¬f.Continues e

/-- The entries that are for something are those whose targets have a size. -/
theorem mem_covering_iff {es : List Entry} {e : Entry} :
    e ∈ es.filter (fun e ↦ !e.target.isEmpty) ↔ e ∈ es ∧ 0 < e.target.size := by
  simp [Span.isEmpty, Nat.pos_iff_ne_zero]

theorem isCompact_compact (m : SourceMap) : m.compact.IsCompact where
  sorted := by
    have hsorted := pairwise_sortBy Entry.before_trans Entry.before_total
      (m.entries.filter fun e ↦ !e.target.isEmpty)
    exact (Entry.pairwise_joinAll hsorted).imp of_decide_eq_true
  size_pos := by
    refine Entry.forall_mem_joinAll (fun e f _ he _ ↦ Nat.add_pos_left he _) fun e he ↦ ?_
    exact (mem_covering_iff.1 ((sortBy_perm _ _).mem_iff.1 he)).2
  apart := Entry.isChain_joinAll _

/-- A map that is compact is left alone. -/
theorem IsCompact.compact_eq {m : SourceMap} (h : m.IsCompact) : m.compact = m := by
  have hall : (m.entries.filter fun e ↦ !e.target.isEmpty) = m.entries :=
    List.filter_eq_self.2 fun e he ↦
      (List.mem_filter.1 (mem_covering_iff.2 ⟨he, h.size_pos e he⟩)).2
  have hsorted : m.entries.Pairwise (Entry.before · ·) := h.sorted.imp decide_eq_true
  rw [compact, hall, sortBy_of_pairwise hsorted, Entry.joinAll_of_isChain h.apart]

theorem compact_eq_self_iff {m : SourceMap} : m.compact = m ↔ m.IsCompact :=
  ⟨fun h ↦ h ▸ isCompact_compact m, IsCompact.compact_eq⟩

/-- Compacting any map gives a compact one of the same name and text. It is left alone a second
time, and every entry for something is a part of one of its entries. -/
theorem compact_normal_form (m : SourceMap) :
    m.compact.compact = m.compact ∧ m.compact.id = m.id ∧ m.compact.text = m.text ∧
      m.compact.IsCompact ∧
      ∀ e ∈ m.entries, 0 < e.target.size → ∃ f ∈ m.compact.entries, e.PartOf f := by
  refine ⟨compact_eq_self_iff.2 (isCompact_compact m), rfl, rfl, isCompact_compact m,
    fun e he hsize ↦ ?_⟩
  have hmem := (sortBy_perm Entry.before _).mem_iff.2 (mem_covering_iff.2 ⟨he, hsize⟩)
  exact Entry.exists_partOf_joinAll hmem

end SourceMap

end ShaderLink
