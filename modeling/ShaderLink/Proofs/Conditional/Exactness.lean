import ShaderLink.Proofs.Conditional.Evaluation
import ShaderLink.Proofs.Provenance.Order

/-!
# Conditional lines byte by byte

The bytes that are left of a text are those of the lines kept, in the order in which they stand in
the text (`Conditional.keptOffsets`), and the map leads back to exactly these. The lines that are
left are lines of the new text again, and none is a directive. So nothing changes when the new text
is processed once more, under whatever conditions.
-/

namespace ShaderLink

namespace Conditional

variable {conditions : String → Bool} {t : Text} {kept : List (Nat × Text)} {p q : Nat}

theorem mem_keptOffsets_iff :
    q ∈ keptOffsets kept ↔ ∃ line ∈ kept, line.1 ≤ q ∧ q < line.1 + line.2.size := by
  simp [keptOffsets, List.mem_range'_1]

/-- A byte that is left is the byte that it comes from. -/
theorem byte_process (source : SourceId)
    (h : (keptOffsets (read conditions t).kept)[p]? = some q) :
    ∃ b, (process conditions source t).map.text.bytes[p]? = some b ∧ t.bytes[q]? = some b := by
  rw [(traces_process conditions ⟨source, t⟩).2.1.text]
  refine faithful_traced conditions ⟨source, t⟩ p ⟨source, t⟩ q ?_
  rw [traced, origins_lines, List.getElem?_map, h]
  rfl

/-! ### Texts without directives -/

theorem keptOffsets_spots (front lines : List Text) :
    keptOffsets ((spots front lines).map fun s ↦ (s.offset, s.line)) =
      List.range' (Text.size front.flatten) (Text.size lines.flatten) := by
  induction lines generalizing front with
  | nil => rfl
  | cons line lines ih =>
    have hrest := ih (front ++ [line])
    rw [List.flatten_append, Text.size_append, List.flatten_singleton] at hrest
    rw [spots, List.map_cons, keptOffsets, List.flatMap_cons, ← keptOffsets, hrest,
      List.flatten_cons, Text.size_append, ← List.range'_append_1]
    rfl

/-- Without directives, every byte is left where it was. -/
theorem keptOffsets_read (h : ∀ line ∈ t.lines, directive? line = none)
    (conditions : String → Bool) :
    keptOffsets (read conditions t).kept = List.range' 0 t.size := by
  rw [kept_read_of_plain conditions h, keptOffsets_spots, Text.flatten_lines]
  rfl

/-- A processed text stays as it is when it is processed again, whatever the conditions, and there
is nothing to warn of. The bytes that are left of a text come from where they are in it, their order
is kept, and they are just those of the lines kept. These are lines of the text, in their order, and
they are the ones that its blocks leave. -/
theorem process_exact (t : Text) (source : SourceId) (c₁ c₂ : String → Bool) :
    (∀ again : SourceId,
      let out := (process c₁ source t).map.text
      (process c₂ again out).map.text = out ∧ (process c₂ again out).warnings = [] ∧
        ∀ p < out.size, (process c₂ again out).map.origin? p = some ⟨again, p⟩) ∧
    (∀ p < (process c₁ source t).map.text.size, ∃ q b,
      (process c₁ source t).map.origin? p = some ⟨source, q⟩ ∧
        (process c₁ source t).map.text.bytes[p]? = some b ∧ t.bytes[q]? = some b) ∧
    (∀ p p' q q', p < p' → p' < (process c₁ source t).map.text.size →
      (process c₁ source t).map.origin? p = some ⟨source, q⟩ →
        (process c₁ source t).map.origin? p' = some ⟨source, q'⟩ → q < q') ∧
    (read c₁ t).kept.Sublist ((spots [] t.lines).map fun s ↦ (s.offset, s.line)) ∧
    (∃ b : Blocks, b.lines = repaired t.lines ∧
      (read c₁ t).kept.map Prod.snd = b.eval c₁) ∧
    ∀ q, (∃ p < (process c₁ source t).map.text.size,
        (process c₁ source t).map.origin? p = some ⟨source, q⟩) ↔
      ∃ line ∈ (read c₁ t).kept, line.1 ≤ q ∧ q < line.1 + line.2.size := by
  have hsize := size_process c₁ source t
  -- every byte has an offset, and that is where it comes from
  have horigin {p : Nat} (hp : p < (process c₁ source t).map.text.size) :
      (process c₁ source t).map.origin? p =
        some ⟨source, (keptOffsets (read c₁ t).kept).get ⟨p, hsize ▸ hp⟩⟩ :=
    origin?_process c₁ source t (List.getElem?_eq_getElem _)
  refine ⟨fun again ↦ ⟨?_, ?_, fun p hp ↦ ?_⟩, fun p hp ↦ ?_, fun p p' q q' hlt hp' hq hq' ↦ ?_,
    kept_read_sublist c₁ t, (exists_blocks t).imp fun b h ↦ ⟨h.1, h.2 c₁⟩, fun q ↦ ?_⟩
  · exact text_process (fun _ ↦ directive?_of_mem_lines_process) c₂ again
  · exact warnings_process (fun _ ↦ directive?_of_mem_lines_process) c₂ again
  · refine origin?_process c₂ again _ ?_
    rw [keptOffsets_read fun _ ↦ directive?_of_mem_lines_process, List.getElem?_range' hp]
    simp
  · obtain ⟨b, hb, hb'⟩ := byte_process source (List.getElem?_eq_getElem (hsize ▸ hp))
    exact ⟨_, b, horigin hp, hb, hb'⟩
  · rw [horigin (hlt.trans hp')] at hq
    rw [horigin hp'] at hq'
    cases hq
    cases hq'
    exact List.pairwise_iff_getElem.1 (ordered_kept c₁ t).pairwise_offsets p p' _ _ hlt
  · rw [← mem_keptOffsets_iff, List.mem_iff_getElem]
    constructor
    · rintro ⟨p, hp, hq⟩
      rw [horigin hp] at hq
      cases hq
      exact ⟨p, hsize ▸ hp, rfl⟩
    · rintro ⟨p, hp, rfl⟩
      exact ⟨p, hsize ▸ hp, horigin (hsize ▸ hp)⟩

end Conditional

end ShaderLink
