import ShaderLink.Proofs.Provenance.Conditional

/-!
# Conditional lines keep the order

The bytes of a processed text are those of the lines that are kept (`Conditional.keptOffsets`).
Since lines are kept in the order in which they stand in the text, what stands further on in the
processed text comes from further on (`Conditional.originOffset_lt`). In particular no two bytes
have the same origin.
-/

namespace ShaderLink

namespace Conditional

variable {conditions : String → Bool}

/-- The offsets of the bytes of lines. -/
def keptOffsets (kept : List (Nat × Text)) : List Nat :=
  kept.flatMap fun line ↦ List.range' line.1 line.2.size

/-- Every byte of lines is copied from its offset. -/
theorem origins_lines (file : SourceText) (kept : List (Nat × Text)) :
    (Traced.lines file kept).origins = (keptOffsets kept).map (Origin.copied file) := by
  have hfoldl (tr : Traced) :
      (kept.foldl (fun tr line ↦ tr ++ .copy file line.1 line.2) tr).origins =
        tr.origins ++ (keptOffsets kept).map (Origin.copied file) := by
    induction kept generalizing tr with
    | nil => exact (List.append_nil _).symm
    | cons line kept ih =>
      have hcons : keptOffsets (line :: kept) =
          List.range' line.1 line.2.size ++ keptOffsets kept := List.flatMap_cons
      rw [List.foldl_cons, ih, Traced.origins_append, hcons, List.map_append, List.append_assoc]
      rfl
  exact hfoldl .empty

/-! ### The order of the lines -/

/-- The lines stand one behind the other, up to an offset. -/
def Ordered (kept : List (Nat × Text)) (stop : Nat) : Prop :=
  (∀ line ∈ kept, line.1 + line.2.size ≤ stop) ∧
    kept.Pairwise fun line line' ↦ line.1 + line.2.size ≤ line'.1

/-- The lines that are kept of a text stand one behind the other in it. -/
theorem ordered_kept (conditions : String → Bool) (t : Text) :
    Ordered (read conditions t).kept t.size := by
  have hsub := kept_read_sublist conditions t
  refine ⟨fun line hline ↦ ?_, (List.pairwise_map.2 (pairwise_spots [] t.lines)).sublist hsub⟩
  obtain ⟨s, hs, rfl⟩ := List.mem_map.1 (hsub.subset hline)
  have hstop := (offset_of_mem_spots hs).2
  rwa [List.nil_append, Text.flatten_lines] at hstop

/-- The offsets of the bytes of lines rise if the lines stand one behind the other. -/
theorem Ordered.pairwise_offsets {kept : List (Nat × Text)} {stop : Nat} (h : Ordered kept stop) :
    (keptOffsets kept).Pairwise (· < ·) := by
  refine List.pairwise_flatMap.2 ⟨fun line _ ↦ List.pairwise_lt_range', h.2.imp ?_⟩
  intro line line' hle x hx y hy
  have hx := (List.mem_range'_1.1 hx).2
  have hy := (List.mem_range'_1.1 hy).1
  omega

/-! ### The order of the origins -/

/-- A byte of a processed text comes from the byte of the kept lines at its place. -/
theorem origin?_process (conditions : String → Bool) (source : SourceId) (t : Text) {p n : Nat}
    (hp : (keptOffsets (read conditions t).kept)[p]? = some n) :
    (process conditions source t).map.origin? p = some ⟨source, n⟩ := by
  obtain ⟨hexact, htraces, -⟩ := traces_process conditions ⟨source, t⟩
  have hcopied : (traced conditions ⟨source, t⟩).origins[p]? = some (.copied ⟨source, t⟩ n) := by
    rw [traced, origins_lines, List.getElem?_map, hp]
    rfl
  exact htraces.origin?_of_copied hexact.tiled hcopied

/-- The processed text has as many bytes as the kept lines. -/
theorem size_process (conditions : String → Bool) (source : SourceId) (t : Text) :
    (process conditions source t).map.text.size =
      (keptOffsets (read conditions t).kept).length := by
  have htraces := (traces_process conditions ⟨source, t⟩).2.1
  rw [htraces.text, ← (traced conditions ⟨source, t⟩).length_origins, traced, origins_lines,
    List.length_map]

/-- What stands further on in a processed text comes from further on. -/
theorem originOffset_lt (conditions : String → Bool) (source : SourceId) (t : Text) {p q : Nat}
    (hlt : p < q) (hq : q < (process conditions source t).map.text.size) :
    (process conditions source t).map.originOffset p <
      (process conditions source t).map.originOffset q := by
  rw [size_process] at hq
  have hpairwise := List.pairwise_iff_getElem.1 (ordered_kept conditions t).pairwise_offsets p q
    (hlt.trans hq) hq hlt
  rw [SourceMap.originOffset, SourceMap.originOffset,
    origin?_process conditions source t (List.getElem?_eq_getElem (hlt.trans hq)),
    origin?_process conditions source t (List.getElem?_eq_getElem hq)]
  exact hpairwise

end Conditional

end ShaderLink
