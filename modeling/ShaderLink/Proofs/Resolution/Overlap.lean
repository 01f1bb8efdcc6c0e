import ShaderLink.Resolution.Resolve

/-!
# What an import takes of a reference

An import overlaps a reference by `k` segments if the first `k` segments of the reference are the
last ones of what the import makes visible (`ImportEntry.Overlaps`). Where a segment stands twice in
the visible path, an import can overlap a reference in several ways. It takes the longest overlap,
or nothing of the reference if it makes everything visible by itself (`ImportEntry.Takes`). What is
left is looked up below the path of what is imported.
-/

namespace ShaderLink

/-- The rest behind an overlap is the rest behind the longest nonempty start of `b` that `a` ends
in. -/
theorem overlapTail?_eq_some_iff {α : Type} [BEq α] [LawfulBEq α] {a b rest : List α} :
    overlapTail? a b = some rest ↔
      ∃ k, 0 < k ∧ k ≤ b.length ∧ b.take k <:+ a ∧
        (∀ j ≤ b.length, b.take j <:+ a → j ≤ k) ∧ rest = b.drop k := by
  induction a with
  | nil =>
    refine iff_of_false (fun h ↦ nomatch h) ?_
    rintro ⟨k, hpos, hle, hsuffix, -, -⟩
    have hlength := congrArg List.length (List.suffix_nil.1 hsuffix)
    rw [List.length_take, Nat.min_eq_left hle, List.length_nil] at hlength
    exact Nat.ne_of_gt hpos hlength
  | cons x a ih =>
    rw [overlapTail?]
    split
    · -- all of `x :: a` is a start of `b`, and no end of it is longer
      rename_i hprefix
      obtain ⟨b, rfl⟩ := List.isPrefixOf_iff_prefix.1 hprefix
      have htake : ((x :: a) ++ b).take (a.length + 1) = x :: a := List.take_left' rfl
      have hself : ((x :: a) ++ b).take (a.length + 1) <:+ x :: a := by
        simp only [htake, List.suffix_refl]
      have hmost : ∀ j ≤ ((x :: a) ++ b).length, ((x :: a) ++ b).take j <:+ x :: a →
          j ≤ a.length + 1 := by
        intro j hj hsuffix
        have hle := hsuffix.length_le
        rwa [List.length_take, Nat.min_eq_left hj] at hle
      rw [Option.some.injEq]
      constructor
      · rintro rfl
        exact ⟨a.length + 1, Nat.succ_pos _, by simp, hself, hmost, rfl⟩
      · rintro ⟨k, -, hle, hsuffix, hlongest, rfl⟩
        have hk : k = a.length + 1 := Nat.le_antisymm (hmost k hle hsuffix)
          (hlongest _ (by simp) hself)
        rw [hk]
    · -- so an end that `b` starts with is one of `a`
      rename_i hprefix
      rw [ih]
      have hends (j : Nat) : b.take j <:+ x :: a ↔ b.take j <:+ a := by
        rw [List.suffix_cons_iff]
        refine or_iff_right fun h ↦ hprefix ?_
        exact List.isPrefixOf_iff_prefix.2 (h ▸ List.take_prefix j b)
      simp only [hends]

namespace ImportEntry

variable (e : ImportEntry) (reference : List String)

/-- The first `k` segments of a reference are the last ones of what an import makes visible. -/
def Overlaps (k : Nat) : Prop :=
  k ≤ reference.length ∧ reference.take k <:+ e.visible

/-- What an import takes of a reference before the rest is looked up. -/
inductive Takes : Nat → Prop
  /-- Everything below the path is visible by itself. -/
  | nothing (hvisible : e.visible = []) : Takes 0
  | overlap {k : Nat} (hpos : 0 < k) (hoverlap : e.Overlaps reference k)
    (hlongest : ∀ j, e.Overlaps reference j → j ≤ k) : Takes k

variable {e reference} {j k : Nat} {rest : List String}

theorem Takes.le_length (h : e.Takes reference k) : k ≤ reference.length := by
  cases h with
  | nothing => exact Nat.zero_le _
  | overlap _ hoverlap _ => exact hoverlap.1

/-- What makes everything visible overlaps nothing. -/
theorem Overlaps.eq_zero (hvisible : e.visible = []) (h : e.Overlaps reference k) : k = 0 := by
  have hlength := h.2.length_le
  rw [hvisible, List.length_take, Nat.min_eq_left h.1] at hlength
  exact Nat.le_zero.1 hlength

/-- An import takes one thing only. -/
theorem Takes.unique (h : e.Takes reference j) (h' : e.Takes reference k) : j = k := by
  cases h with
  | nothing hvisible =>
    cases h' with
    | nothing => rfl
    | overlap hpos hoverlap _ => exact absurd (hoverlap.eq_zero hvisible) (Nat.ne_of_gt hpos)
  | overlap hpos hoverlap hlongest =>
    cases h' with
    | nothing hvisible => exact absurd (hoverlap.eq_zero hvisible) (Nat.ne_of_gt hpos)
    | overlap _ hoverlap' hlongest' =>
      exact Nat.le_antisymm (hlongest' _ hoverlap) (hlongest _ hoverlap')

/-- Where no segment stands twice in the visible path, there is one overlap at most. -/
theorem Overlaps.eq_of_nodup (hnodup : e.visible.Nodup) (hpos : 0 < j)
    (hj : e.Overlaps reference j) (hk : e.Overlaps reference k) (hle : j ≤ k) : j = k := by
  obtain ⟨j, rfl⟩ := Nat.exists_eq_add_one.2 hpos
  obtain ⟨k, rfl⟩ := Nat.exists_eq_add_one.2 (Nat.lt_of_lt_of_le hpos hle)
  obtain ⟨hj, hends⟩ := hj
  obtain ⟨hk, hends'⟩ := hk
  cases reference with
  | nil => exact absurd hj (Nat.not_succ_le_zero j)
  | cons s reference =>
    have hj := Nat.le_of_succ_le_succ hj
    have hk := Nat.le_of_succ_le_succ hk
    rw [List.take_succ_cons] at hends hends'
    have hshort := List.suffix_of_suffix_length_le hends hends' (by simp; omega)
    rcases List.suffix_cons_iff.1 hshort with heq | hshort
    · have hlength := congrArg List.length heq
      simp only [List.length_cons, List.length_take] at hlength
      omega
    · -- the first segment of the reference would stand twice
      have hdistinct := (List.nodup_cons.1 (hnodup.sublist hends'.sublist)).1
      exact absurd (hshort.subset List.mem_cons_self) hdistinct

/-- What is left of a reference is what the import does not take. -/
theorem rest?_eq_some_iff :
    e.rest? reference = some rest ↔ ∃ k, e.Takes reference k ∧ rest = reference.drop k := by
  rw [rest?]
  split
  · rename_i hempty
    have hvisible := List.isEmpty_iff.1 hempty
    rw [Option.some.injEq]
    constructor
    · rintro rfl
      exact ⟨0, .nothing hvisible, rfl⟩
    · rintro ⟨k, htakes, rfl⟩
      rw [htakes.unique (.nothing hvisible), List.drop_zero]
  · rename_i hempty
    have hvisible : e.visible ≠ [] := fun h ↦ hempty (List.isEmpty_iff.2 h)
    rw [overlapTail?_eq_some_iff]
    constructor
    · rintro ⟨k, hpos, hle, hsuffix, hlongest, rfl⟩
      exact ⟨k, .overlap hpos ⟨hle, hsuffix⟩ fun j hj ↦ hlongest j hj.1 hj.2, rfl⟩
    · rintro ⟨k, htakes, rfl⟩
      cases htakes with
      | nothing h => exact absurd h hvisible
      | overlap hpos hoverlap hlongest =>
        exact ⟨k, hpos, hoverlap.1, hoverlap.2, fun j hj hsuffix ↦ hlongest j ⟨hj, hsuffix⟩, rfl⟩

end ImportEntry

end ShaderLink
