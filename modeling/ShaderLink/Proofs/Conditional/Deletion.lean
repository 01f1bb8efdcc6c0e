import ShaderLink.Proofs.Conditional.Matching
import ShaderLink.Proofs.Provenance.Conditional
import ShaderLink.Proofs.Provenance.Splice
import ShaderLink.Proofs.SourceMap.NormalForm

/-!
# Keeping lines is deleting the others

Processing a text puts the lines together that are kept. One may as well delete the others, by
splices without text (`Conditional.deletions`), and that gives the same map up to its name
(`Conditional.applyAll_deletions`).

Between two deletions the splices copy all the lines there at once, and they leave entries for
nothing where a line was. None of this is seen once the map is compact: maps are **alike** if their
entries are joined alike, whatever is added to both (`SourceMap.Alike`).
-/

namespace ShaderLink

/-! ### Maps that are compacted alike -/

namespace SourceMap

variable {m n o : SourceMap} {a b : Text} {source : SourceId} {start : Nat}

/-- The maps have one name and one text, and their entries are joined alike, also in front of
others. -/
structure Alike (m n : SourceMap) : Prop where
  id : m.id = n.id
  text : m.text = n.text
  joined : ∀ es, Entry.joinAll ((m.entries.filter fun e ↦ !e.target.isEmpty) ++ es) =
    Entry.joinAll ((n.entries.filter fun e ↦ !e.target.isEmpty) ++ es)

theorem Alike.refl (m : SourceMap) : m.Alike m :=
  ⟨rfl, rfl, fun _ ↦ rfl⟩

theorem Alike.symm (h : m.Alike n) : n.Alike m :=
  ⟨h.id.symm, h.text.symm, fun es ↦ (h.joined es).symm⟩

theorem Alike.trans (h : m.Alike n) (h' : n.Alike o) : m.Alike o :=
  ⟨h.id.trans h'.id, h.text.trans h'.text, fun es ↦ (h.joined es).trans (h'.joined es)⟩

theorem Alike.add (h : m.Alike n) (fragment : Text) (source : SourceId) (origin : Span) :
    (m.add fragment source origin).Alike (n.add fragment source origin) where
  id := h.id
  text := congrArg (· ++ fragment) h.text
  joined es := by
    simp only [SourceMap.add, List.filter_append, List.append_assoc, h.text]
    exact h.joined _

/-- Adding nothing makes no difference. -/
theorem alike_add_nil (m : SourceMap) (source : SourceId) (origin : Span) :
    (m.add [] source origin).Alike m where
  id := rfl
  text := List.append_nil _
  joined es := by simp [SourceMap.add, Span.isEmpty]

/-- A copy may be added in two parts. -/
theorem alike_add_add (m : SourceMap) (a b : Text) (source : SourceId) (start : Nat) :
    ((m.add a source ⟨start, a.size⟩).add b source ⟨start + a.size, b.size⟩).Alike
      (m.add (a ++ b) source ⟨start, (a ++ b).size⟩) := by
  rcases eq_or_ne a [] with rfl | ha
  · exact (m.alike_add_nil source _).add b source _
  rcases eq_or_ne b [] with rfl | hb
  · rw [List.append_nil]
    exact alike_add_nil _ source _
  · have ha := mt Text.size_eq_zero_iff.1 ha
    have hb := mt Text.size_eq_zero_iff.1 hb
    have hjoins : (⟨source, ⟨start, a.size⟩, ⟨m.text.size, a.size⟩⟩ : Entry).joins
        ⟨source, ⟨start + a.size, b.size⟩, ⟨m.text.size + a.size, b.size⟩⟩ = true := by
      simp [Entry.joins, Entry.isCopy, Span.stop]
    refine ⟨rfl, List.append_assoc _ _ _, fun es ↦ ?_⟩
    have hjoined := Entry.joinAll_append_join hjoins
      (m.entries.filter fun e ↦ !e.target.isEmpty) es
    simpa [SourceMap.add, Span.isEmpty, Entry.join, ha, hb] using hjoined

/-- Maps that are alike are one and the same once they are compact. -/
theorem Alike.compact_eq (h : m.Alike n) (hm : m.Tiled) (hn : n.Tiled) : m.compact = n.compact := by
  have hentries := h.joined []
  rw [List.append_nil, List.append_nil, ← hm.covered.entries_compact,
    ← hn.covered.entries_compact] at hentries
  show (⟨m.id, m.text, m.compact.entries⟩ : SourceMap) = ⟨n.id, n.text, n.compact.entries⟩
  rw [h.id, h.text, hentries]

end SourceMap

/-! ### Deletions -/

namespace Conditional

variable {conditions : String → Bool} {source : SourceId} {t : Text}
  {front pending lines : List Text} {m n : SourceMap}

/-- Lines that are added to maps that are compacted alike leave them so. -/
theorem alike_addLines (h : m.Alike n) (kept : List (Nat × Text)) :
    (addLines m source kept).Alike (addLines n source kept) := by
  induction kept generalizing m n with
  | nil => exact h
  | cons line kept ih => exact ih (h.add line.2 source ⟨line.1, line.2.size⟩)

/-- What a map is called does not matter to what is added. -/
theorem addLines_named (m : SourceMap) (source : SourceId) (kept : List (Nat × Text))
    (id : SourceId) :
    addLines { m with id := id } source kept = { addLines m source kept with id := id } := by
  induction kept generalizing m with
  | nil => rfl
  | cons line kept ih => exact ih (m.add line.2 source ⟨line.1, line.2.size⟩)

/-- Deletes the line. -/
def Spot.deletion (s : Spot) : Splice :=
  ⟨⟨s.offset, s.line.size⟩, []⟩

/-- What deletes those lines behind others that are not kept. -/
def deletionsBehind (conditions : String → Bool) (front lines : List Text) : List Splice :=
  ((spots front lines).filter fun s ↦ !decide (s.Kept conditions)).map Spot.deletion

/-- What deletes the lines of a text that are not kept. -/
def deletions (conditions : String → Bool) (t : Text) : List Splice :=
  deletionsBehind conditions [] t.lines

/-- The deletions are in order. -/
theorem pairwise_deletions (conditions : String → Bool) (t : Text) :
    (deletions conditions t).Pairwise (Splice.before · ·) := by
  refine List.pairwise_map.2 (((pairwise_spots [] t.lines).filter _).imp fun {s s'} hle ↦ ?_)
  rw [Splice.before_iff]
  simp only [Spot.deletion, Span.stop]
  omega

/-- All deletions lie inside the text. -/
theorem filter_deletions (conditions : String → Bool) (t : Text) :
    (deletions conditions t).filter (fun s ↦ t.span.contains s.span) = deletions conditions t := by
  refine List.filter_eq_self.2 fun s hs ↦ ?_
  obtain ⟨spot, hspot, rfl⟩ := List.mem_map.1 hs
  have hle := (offset_of_mem_spots (List.mem_filter.1 hspot).1).2
  rw [List.nil_append, Text.flatten_lines] at hle
  simpa [Span.contains, Text.span, Spot.deletion, Span.stop] using hle

/-- The copy of what stands between two parts of a text. -/
theorem addCopy_between (m : SourceMap) (source : SourceId) (before inside behind : Text) :
    m.addCopy (before ++ inside ++ behind) source
      (Span.between before.size (before.size + inside.size)) =
      .ok (m.add inside source ⟨before.size, inside.size⟩) := by
  rw [SourceMap.addCopy, Span.between, Nat.add_sub_cancel_left, Text.slice?_append]

/-- A line that is kept is not deleted, -/
theorem deletionsBehind_of_kept {line : Text} (h : (⟨front, line, lines⟩ : Spot).Kept conditions) :
    deletionsBehind conditions front (line :: lines) =
      deletionsBehind conditions (front ++ [line]) lines := by
  simp [deletionsBehind, spots, h]

/-- and one that is not kept is deleted as a whole. -/
theorem deletionsBehind_of_not_kept {line : Text}
    (h : ¬(⟨front, line, lines⟩ : Spot).Kept conditions) :
    deletionsBehind conditions front (line :: lines) =
      ⟨⟨Text.size front.flatten, line.size⟩, []⟩ ::
        deletionsBehind conditions (front ++ [line]) lines := by
  simp [deletionsBehind, spots, h, Spot.deletion, Spot.offset]

theorem keptSpots_of_kept {line : Text} (h : (⟨front, line, lines⟩ : Spot).Kept conditions) :
    keptSpots conditions front (line :: lines) =
      ⟨front, line, lines⟩ :: keptSpots conditions (front ++ [line]) lines := by
  simp [keptSpots, spots, h]

theorem keptSpots_of_not_kept {line : Text}
    (h : ¬(⟨front, line, lines⟩ : Spot).Kept conditions) :
    keptSpots conditions front (line :: lines) =
      keptSpots conditions (front ++ [line]) lines := by
  simp [keptSpots, spots, h]

/-- The deletions in lines, of which those in `pending` stand behind the last line that was deleted
and are kept, make a map that is like the one made of kept lines. -/
theorem exists_addSpliced (conditions : String → Bool) (source : SourceId)
    (front pending lines : List Text) (ht : t = (front ++ pending ++ lines).flatten)
    (hm : m.Tiled) :
    ∃ m', Splice.addSpliced m t source (Text.size front.flatten) t.size
        (deletionsBehind conditions (front ++ pending) lines) = .ok m' ∧ m'.Tiled ∧
      m'.Alike (addLines
        (m.add pending.flatten source ⟨Text.size front.flatten, Text.size pending.flatten⟩) source
        ((keptSpots conditions (front ++ pending) lines).map fun s ↦ (s.offset, s.line))) := by
  induction lines generalizing m front pending with
  | nil =>
    refine ⟨_, ?_, hm.add _ _ _, .refl _⟩
    have hcopy := addCopy_between m source front.flatten pending.flatten []
    subst ht
    simpa [deletionsBehind, spots, Splice.addSpliced] using hcopy
  | cons line lines ih =>
    by_cases hkept : (⟨front ++ pending, line, lines⟩ : Spot).Kept conditions
    · -- the line is copied together with those pending
      obtain ⟨m', hm', htiled, halike⟩ := ih front (pending ++ [line]) (by rw [ht]; simp) hm
      rw [← List.append_assoc] at hm' halike
      refine ⟨m', by rwa [deletionsBehind_of_kept hkept], htiled, halike.trans ?_⟩
      have hadd := m.alike_add_add pending.flatten line source (Text.size front.flatten)
      have hoffset : (⟨front ++ pending, line, lines⟩ : Spot).offset =
          Text.size front.flatten + Text.size pending.flatten := by
        simp [Spot.offset]
      rw [keptSpots_of_kept hkept, List.map_cons, hoffset, List.flatten_append,
        List.flatten_singleton]
      exact alike_addLines hadd.symm _
    · -- what is pending is copied, and nothing is pending any more
      obtain ⟨m', hm', htiled, halike⟩ := ih (front ++ pending ++ [line]) [] (by rw [ht]; simp)
        ((hm.add pending.flatten source ⟨Text.size front.flatten, Text.size pending.flatten⟩).add []
          source ⟨Text.size (front ++ pending).flatten, line.size⟩)
      rw [List.append_nil] at hm' halike
      refine ⟨m', ?_, htiled, ?_⟩
      · have hcopy := addCopy_between m source front.flatten pending.flatten
          (line :: lines).flatten
        have hstart : ¬Text.size (front ++ pending).flatten < Text.size front.flatten := by simp
        have hsource : t = front.flatten ++ pending.flatten ++ (line :: lines).flatten := by
          rw [ht, List.flatten_append, List.flatten_append]
        rw [← hsource, ← Text.size_append, ← List.flatten_append] at hcopy
        have hstop : Text.size (front ++ pending ++ [line]).flatten =
            (⟨Text.size (front ++ pending).flatten, line.size⟩ : Span).stop := by
          rw [List.flatten_append, Text.size_append, List.flatten_singleton, Span.stop]
        rw [deletionsBehind_of_not_kept hkept, Splice.addSpliced, if_neg hstart, hcopy]
        rwa [hstop] at hm'
      · rw [keptSpots_of_not_kept hkept]
        exact halike.trans (alike_addLines
          ((SourceMap.alike_add_nil _ source _).trans (SourceMap.alike_add_nil _ source _)) _)

/-- Processing a text is deleting the lines that are not kept. -/
theorem applyAll_deletions (conditions : String → Bool) (source : SourceId) (t : Text) :
    Splice.applyAll t source (deletions conditions t) none =
      .ok { (process conditions source t).map with id := source.derived "sliced" } := by
  obtain ⟨m, hm, htiled, halike⟩ := exists_addSpliced conditions source [] [] t.lines
    (Text.flatten_lines t).symm (SourceMap.tiled_empty (source.derived "sliced"))
  rw [List.nil_append, ← kept_read] at halike
  have hlines :
      (addLines (.empty (source.derived "sliced")) source (read conditions t).kept).Tiled :=
    (traces_addLines (SourceMap.traces_empty _) (SourceMap.tiled_empty _) ⟨source, t⟩ _).2.1
  have hcompact := (halike.trans (alike_addLines (SourceMap.alike_add_nil _ source _) _)).compact_eq
    htiled hlines
  have hname : addLines (.empty (source.derived "sliced")) source (read conditions t).kept =
      { addLines (.empty (source.derived "conditioned")) source (read conditions t).kept with
        id := source.derived "sliced" } :=
    addLines_named (.empty (source.derived "conditioned")) source _ _
  have hstop : t.span.stop = t.size := Nat.zero_add _
  have happly : Splice.applyAll t source (deletions conditions t) none = .ok m.compact := by
    simp only [Splice.applyAll, Option.getD_none, filter_deletions,
      sortBy_of_pairwise (pairwise_deletions conditions t), hstop]
    exact congrArg (· >>= fun m ↦ .ok m.compact) hm
  rw [happly, hcompact, hname]
  rfl

end Conditional

end ShaderLink
