import Mathlib.Data.List.Induction
import ShaderLink.Proofs.Resolution.Overlap

/-!
# The best imports for a reference

An import contributes to a reference if what it leaves of the reference leads to an export
(`ImportMap.Contributes`). The best are those that take the most, among all that contribute
(`ImportMap.Best`). Resolution goes through the imports once and starts its shortlist anew whenever
more is taken than before. What is left on it at the end are the best imports in the order written
(`ImportMap.bestMatch?_eq_some_iff`): after each import the shortlist is the one of all imports so
far (`Shortlist.add_ofMatches`).
-/

namespace ShaderLink

/-! ### The shortlist -/

namespace Shortlist

/-- The longest overlap of some matches. -/
def longest (all : List ImportMatch) : Nat :=
  (all.map ImportMatch.overlap).foldl max 0

/-- The shortlist of some matches: those with the longest overlap. -/
def ofMatches (all : List ImportMatch) : Shortlist :=
  ⟨longest all, all.filter fun c ↦ c.overlap == longest all⟩

variable {all : List ImportMatch} {c : ImportMatch}

theorem longest_concat (all : List ImportMatch) (c : ImportMatch) :
    longest (all ++ [c]) = max (longest all) c.overlap := by
  rw [longest, List.map_append, List.foldl_append]
  rfl

theorem overlap_le_longest (h : c ∈ all) : c.overlap ≤ longest all := by
  induction all using List.reverseRecOn with
  | nil => exact absurd h List.not_mem_nil
  | append_singleton all d ih =>
    rw [longest_concat]
    rcases List.mem_append.1 h with h | h
    · exact Nat.le_trans (ih h) (Nat.le_max_left _ _)
    · rw [List.mem_singleton.1 h]
      exact Nat.le_max_right _ _

/-- The longest overlap is that of one of the matches. -/
theorem exists_overlap_eq_longest (h : all ≠ []) : ∃ c ∈ all, c.overlap = longest all := by
  induction all using List.reverseRecOn with
  | nil => exact absurd rfl h
  | append_singleton all d ih =>
    rw [longest_concat]
    by_cases hall : all = []
    · exact ⟨d, by simp, by rw [hall]; exact (Nat.zero_max _).symm⟩
    · obtain ⟨c, hc, heq⟩ := ih hall
      rcases Nat.le_total (longest all) d.overlap with hle | hle
      · exact ⟨d, by simp, (Nat.max_eq_right hle).symm⟩
      · exact ⟨c, List.mem_append_left _ hc, heq.trans (Nat.max_eq_left hle).symm⟩

/-- One more match makes the shortlist that of one more match. -/
theorem add_ofMatches (all : List ImportMatch) (c : ImportMatch) :
    (ofMatches all).add c = ofMatches (all ++ [c]) := by
  rw [add, ofMatches, ofMatches, longest_concat, List.filter_append]
  dsimp only
  split
  · rename_i hlt
    rw [Nat.max_eq_left (Nat.le_of_lt hlt),
      List.filter_cons_of_neg (by simpa using Nat.ne_of_lt hlt), List.filter_nil,
      List.append_nil]
  · rename_i hge
    rw [Nat.max_eq_right (Nat.not_lt.1 hge), List.filter_cons_of_pos (by simp),
      List.filter_nil]
    split
    · -- what was there overlaps less
      rename_i hlt
      have hnone : (all.filter fun d ↦ d.overlap == c.overlap) = [] := by
        refine List.filter_eq_nil_iff.2 fun d hd heq ↦ ?_
        exact absurd (overlap_le_longest hd) (beq_iff_eq.1 heq ▸ Nat.not_le.2 hlt)
      rw [hnone, List.nil_append]
    · rename_i hle
      rw [Nat.le_antisymm (Nat.not_lt.1 hle) (Nat.not_lt.1 hge)]

/-- Matches that are added one after the other are all taken into account. -/
theorem foldl_add (all : List ImportMatch) : all.foldl add ⟨0, []⟩ = ofMatches all := by
  induction all using List.reverseRecOn with
  | nil => rfl
  | append_singleton all c ih => rw [List.foldl_append, ih, ← add_ofMatches]; rfl

end Shortlist

namespace ImportMap

variable (imports : ImportMap) (reference : List String)

/-- The best matches are those with the longest overlap. -/
theorem bestMatches_eq_filter : imports.bestMatches reference =
    (imports.matchesOf reference).filter fun c ↦
      c.overlap == Shortlist.longest (imports.matchesOf reference) := by
  rw [bestMatches, Shortlist.foldl_add]
  rfl

/-! ### Contributions -/

/-- An import leads a reference to a target, by what it leaves when it takes `k` segments. -/
structure Contributes (e : ImportEntry) (k : Nat) (target : Target) : Prop where
  takes : e.Takes reference k
  exported : imports.exports.get? (e.exportPath ++ reference.drop k) = some target

/-- An import contributes, and none that contributes takes more. -/
structure Best (e : ImportEntry) (k : Nat) (target : Target) : Prop where
  contributes : imports.Contributes reference e k target
  most : ∀ e' ∈ imports.entries, ∀ k' target', imports.Contributes reference e' k' target' → k' ≤ k

variable {imports reference} {e : ImportEntry} {j k : Nat} {target : Target}
  {c : ImportMatch}

/-- The match of an import says how it contributes. -/
theorem match?_eq_some_iff : imports.match? reference e = some c ↔
    ∃ k target, imports.Contributes reference e k target ∧
      c = ⟨k, target, e.exportPath ++ reference.drop k, e.args⟩ := by
  constructor
  · intro h
    obtain ⟨rest, hrest, h⟩ := Option.bind_eq_some_iff.1 h
    obtain ⟨target, htarget, h⟩ := Option.bind_eq_some_iff.1 h
    obtain ⟨k, htakes, rfl⟩ := ImportEntry.rest?_eq_some_iff.1 hrest
    refine ⟨k, target, ⟨htakes, htarget⟩, ?_⟩
    rw [← Option.some.inj h, List.length_drop, Nat.sub_sub_self htakes.le_length]
  · rintro ⟨k, target, h, rfl⟩
    rw [match?, ImportEntry.rest?_eq_some_iff.2 ⟨k, h.takes, rfl⟩, Option.bind_eq_bind,
      Option.bind_some, h.exported, List.length_drop, Nat.sub_sub_self h.takes.le_length]
    rfl

theorem mem_matchesOf_iff : c ∈ imports.matchesOf reference ↔
    ∃ e ∈ imports.entries, ∃ k target, imports.Contributes reference e k target ∧
      c = ⟨k, target, e.exportPath ++ reference.drop k, e.args⟩ := by
  simp only [matchesOf, List.mem_filterMap, match?_eq_some_iff]

theorem Contributes.mem_matchesOf (h : imports.Contributes reference e k target)
    (he : e ∈ imports.entries) :
    ⟨k, target, e.exportPath ++ reference.drop k, e.args⟩ ∈ imports.matchesOf reference :=
  mem_matchesOf_iff.2 ⟨e, he, k, target, h, rfl⟩

/-- What the best imports take is the longest overlap. -/
theorem best_iff (he : e ∈ imports.entries) : imports.Best reference e k target ↔
    imports.Contributes reference e k target ∧
      k = Shortlist.longest (imports.matchesOf reference) := by
  constructor
  · intro h
    have hmem := h.contributes.mem_matchesOf he
    obtain ⟨c, hc, hlongest⟩ := Shortlist.exists_overlap_eq_longest (List.ne_nil_of_mem hmem)
    obtain ⟨e', he', k', target', h', rfl⟩ := mem_matchesOf_iff.1 hc
    refine ⟨h.contributes, Nat.le_antisymm (Shortlist.overlap_le_longest hmem) ?_⟩
    exact Nat.le_trans (Nat.le_of_eq hlongest.symm) (h.most e' he' k' target' h')
  · rintro ⟨h, rfl⟩
    exact ⟨h, fun e' he' k' target' h' ↦ Shortlist.overlap_le_longest (h'.mem_matchesOf he')⟩

/-! ### The best matches -/

variable (imports reference) in
/-- The match of an import that is one of the best. -/
def bestMatch? (e : ImportEntry) : Option ImportMatch :=
  (imports.match? reference e).filter fun c ↦
    c.overlap == Shortlist.longest (imports.matchesOf reference)

theorem bestMatches_eq_filterMap :
    imports.bestMatches reference = imports.entries.filterMap (imports.bestMatch? reference) := by
  rw [bestMatches_eq_filter, matchesOf, List.filter_filterMap]
  rfl

/-- The imports left on the shortlist are the best ones. -/
theorem bestMatch?_eq_some_iff (he : e ∈ imports.entries) :
    imports.bestMatch? reference e = some c ↔
      ∃ k target, imports.Best reference e k target ∧
        c = ⟨k, target, e.exportPath ++ reference.drop k, e.args⟩ := by
  simp only [bestMatch?, Option.filter_eq_some_iff, match?_eq_some_iff, best_iff he, beq_iff_eq]
  constructor
  · rintro ⟨⟨k, target, h, rfl⟩, hlongest⟩
    exact ⟨k, target, ⟨h, hlongest⟩, rfl⟩
  · rintro ⟨k, target, ⟨h, hlongest⟩, rfl⟩
    exact ⟨⟨k, target, h, rfl⟩, hlongest⟩

theorem mem_bestMatches_iff : c ∈ imports.bestMatches reference ↔
    ∃ e ∈ imports.entries, ∃ k target, imports.Best reference e k target ∧
      c = ⟨k, target, e.exportPath ++ reference.drop k, e.args⟩ := by
  rw [bestMatches_eq_filterMap, List.mem_filterMap]
  exact exists_congr fun e ↦ and_congr_right fun he ↦ bestMatch?_eq_some_iff he

/-- There is a best import if any contributes. -/
theorem bestMatches_eq_nil_iff : imports.bestMatches reference = [] ↔
    ∀ e ∈ imports.entries, ∀ k target, ¬imports.Contributes reference e k target := by
  rw [bestMatches_eq_filter]
  constructor
  · intro hnil e he k target h
    obtain ⟨c, hc, hlongest⟩ :=
      Shortlist.exists_overlap_eq_longest (List.ne_nil_of_mem (h.mem_matchesOf he))
    exact List.filter_eq_nil_iff.1 hnil c hc (beq_iff_eq.2 hlongest)
  · intro hnone
    refine List.filter_eq_nil_iff.2 fun c hc ↦ ?_
    obtain ⟨e, he, k, target, h, -⟩ := mem_matchesOf_iff.1 hc
    exact absurd h (hnone e he k target)

end ImportMap

end ShaderLink
