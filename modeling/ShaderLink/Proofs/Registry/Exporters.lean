import Mathlib.Data.List.Lex
import Mathlib.Data.List.Sort
import Mathlib.Data.String.Basic
import ShaderLink.Proofs.Registry.Coherent

/-!
# The modules that export a name

Paths are compared segment by segment, which is the lexicographic order of lists. The exporters of a
name are put in this order, and of paths that follow each other and are the same only one is kept.
So no path stands twice, and which list it is depends on nothing but which paths are in it.
-/

namespace ShaderLink

namespace ModulePath

/-- Comparing segment by segment is the lexicographic order. -/
theorem before_iff_le (p q : ModulePath) : before p q = true ↔ p ≤ q := by
  rw [← not_lt]
  induction p generalizing q with
  | nil => exact iff_of_true rfl (List.not_lt_nil q)
  | cons a p ih =>
    cases q with
    | nil => exact iff_of_false Bool.false_ne_true fun h ↦ h (List.nil_lt_cons a p)
    | cons b q =>
      rw [before, Bool.or_eq_true, Bool.and_eq_true, decide_eq_true_iff, beq_iff_eq, ih,
        List.cons_lt_cons_iff, not_or, not_and, not_lt]
      rcases lt_trichotomy a b with h | rfl | h
      · exact iff_of_true (.inl h) ⟨h.le, fun heq ↦ absurd heq h.ne'⟩
      · simp
      · exact iff_of_false (not_or.2 ⟨h.not_gt, fun heq ↦ h.ne' heq.1⟩) fun hle ↦ h.not_ge hle.1

theorem pairwise_sortBy_before (paths : List ModulePath) :
    (sortBy before paths).Pairwise (· ≤ ·) := by
  refine (pairwise_sortBy (fun p q s ↦ ?_) (fun p q ↦ ?_) paths).imp fun {p q} h ↦
    (before_iff_le p q).1 h
  · simp only [before_iff_le]
    exact le_trans
  · simp only [Bool.or_eq_true, before_iff_le]
    exact le_total p q

end ModulePath

/-! ### Neighbours that are the same -/

section EraseReps

variable {α : Type} [BEq α] [LawfulBEq α]

omit [LawfulBEq α] in
theorem eraseReps_loop (a : α) (as kept : List α) :
    List.eraseRepsBy.loop (· == ·) a as kept =
      kept.reverse ++ List.eraseRepsBy.loop (· == ·) a as [] := by
  induction as generalizing a kept with
  | nil => simp [List.eraseRepsBy.loop]
  | cons b as ih =>
    rw [List.eraseRepsBy.loop, List.eraseRepsBy.loop]
    split
    · exact ih a kept
    · rw [ih b (a :: kept), ih b [a], List.reverse_cons, List.append_assoc]
      rfl

theorem eraseReps_cons_cons (a b : α) (as : List α) : (a :: b :: as).eraseReps =
    if a == b then (b :: as).eraseReps else a :: (b :: as).eraseReps := by
  rw [List.eraseReps, List.eraseRepsBy, List.eraseRepsBy.loop]
  cases h : a == b with
  | true =>
    rw [beq_iff_eq.1 h]
    rfl
  | false => exact eraseReps_loop b as [a]

/-- Dropping neighbours that are the same drops no element altogether. -/
theorem mem_eraseReps_iff {a : α} {as : List α} : a ∈ as.eraseReps ↔ a ∈ as := by
  induction as with
  | nil => rfl
  | cons b as ih =>
    cases as with
    | nil => rfl
    | cons c as =>
      rw [eraseReps_cons_cons]
      split
      · rename_i heq
        simp [ih, beq_iff_eq.1 heq]
      · simp [ih]

/-- In a list in order, all that are the same are neighbours. -/
theorem pairwise_lt_eraseReps [LinearOrder α] {as : List α} (h : as.Pairwise (· ≤ ·)) :
    as.eraseReps.Pairwise (· < ·) := by
  induction as with
  | nil => exact .nil
  | cons a as ih =>
    cases as with
    | nil => exact List.pairwise_singleton _ _
    | cons b as =>
      obtain ⟨ha, has⟩ := List.pairwise_cons.1 h
      rw [eraseReps_cons_cons]
      split
      · exact ih has
      · rename_i hne
        have hab : a < b := lt_of_le_of_ne (ha b List.mem_cons_self) fun heq ↦
          hne (beq_iff_eq.2 heq)
        refine List.pairwise_cons.2 ⟨fun c hc ↦ ?_, ih has⟩
        rcases List.mem_cons.1 (mem_eraseReps_iff.1 hc) with rfl | hc
        · exact hab
        · exact hab.trans_le ((List.pairwise_cons.1 has).1 c hc)

end EraseReps

/-! ### Exporters -/

namespace Registry

variable {r r' : Registry} {name : String} {path : ModulePath}

/-- The module of a path exports a declaration of a name, or there is a generator of this name. -/
def Exports (r : Registry) (path : ModulePath) (name : String) : Prop :=
  (∃ m, r.module? path = some m ∧ ∃ d ∈ m.exports, d.2.name = name) ∨
    (r.generator? path name).isSome

/-- The exporters of a name are in order, each of them once. -/
theorem pairwise_exporters (r : Registry) (name : String) :
    (r.exporters name).Pairwise (· < ·) :=
  pairwise_lt_eraseReps (ModulePath.pairwise_sortBy_before _)

theorem mem_exporters_iff (h : r.Coherent) : path ∈ r.exporters name ↔ r.Exports path name := by
  rw [exporters, mem_eraseReps_iff, (sortBy_perm _ _).mem_iff, List.mem_append, Exports]
  refine or_congr ⟨fun hmem ↦ ?_, ?_⟩ ⟨fun hmem ↦ ?_, fun hsome ↦ ?_⟩
  · obtain ⟨m, hm, rfl⟩ := List.mem_map.1 hmem
    obtain ⟨hm, hexport⟩ := List.mem_filter.1 hm
    refine ⟨m, h.module?_eq_some_iff.2 ⟨rfl, hm⟩, ?_⟩
    rw [Module.findExport?, List.find?_isSome] at hexport
    simpa using hexport
  · rintro ⟨m, hm, d, hd, rfl⟩
    obtain ⟨rfl, hmem⟩ := h.module?_eq_some_iff.1 hm
    refine List.mem_map.2 ⟨m, List.mem_filter.2 ⟨hmem, ?_⟩, rfl⟩
    rw [Module.findExport?, List.find?_isSome]
    exact ⟨d, hd, beq_self_eq_true d.2.name⟩
  · obtain ⟨g, hg, rfl⟩ := List.mem_map.1 hmem
    obtain ⟨hg, hname⟩ := List.mem_filter.1 hg
    obtain ⟨⟨key, g'⟩, hentry, rfl⟩ := List.mem_map.1 hg
    have hget : r.generator? key.1 key.2 = some g' := OrderedMap.get?_eq_some_iff.2 hentry
    obtain ⟨hmodule, hname'⟩ := h.registered _ _ _ hget
    rw [← beq_iff_eq.1 hname, hmodule, hname', hget]
    rfl
  · obtain ⟨g, hg⟩ := Option.isSome_iff_exists.1 hsome
    obtain ⟨rfl, rfl⟩ := h.registered _ _ _ hg
    refine List.mem_map.2 ⟨g, List.mem_filter.2 ⟨?_, beq_self_eq_true g.name⟩, rfl⟩
    exact OrderedMap.mem_values_of_get? hg

/-- The exporters depend only on which paths export the name. -/
theorem exporters_congr (h : r.Coherent) (h' : r'.Coherent)
    (hexports : ∀ path, r.Exports path name ↔ r'.Exports path name) :
    r.exporters name = r'.exporters name := by
  refine (r.pairwise_exporters name).eq_of_mem_iff (r'.pairwise_exporters name) fun path ↦ ?_
  rw [mem_exporters_iff h, mem_exporters_iff h', hexports]

end Registry

end ShaderLink
