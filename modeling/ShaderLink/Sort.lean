/-!
# Sorting

Lists are put in order by inserting their elements one after another, the last one first. Elements
that are equal in order stay as they stand, and a list that is in order is left alone, which costs
no more than looking at it.
-/

namespace ShaderLink

variable {α : Type}

/-- An element put in front of the first one of a list that it may stand in front of. -/
def insertInOrder (le : α → α → Bool) (a : α) : List α → List α
  | [] => [a]
  | b :: bs => if le a b then a :: b :: bs else b :: insertInOrder le a bs

/-- A list in the order `le`. -/
def sortBy (le : α → α → Bool) : List α → List α
  | [] => []
  | a :: as => insertInOrder le a (sortBy le as)

theorem insertInOrder_perm (le : α → α → Bool) (a : α) (bs : List α) :
    (insertInOrder le a bs).Perm (a :: bs) := by
  induction bs with
  | nil => exact .refl _
  | cons b bs ih =>
    rw [insertInOrder]
    split
    · exact .refl _
    · exact (ih.cons b).trans (.swap a b bs)

/-- Sorting only moves elements. -/
theorem sortBy_perm (le : α → α → Bool) (as : List α) : (sortBy le as).Perm as := by
  induction as with
  | nil => exact .refl _
  | cons a as ih => exact (insertInOrder_perm le a _).trans (ih.cons a)

theorem pairwise_insertInOrder {le : α → α → Bool}
    (trans : ∀ a b c, le a b → le b c → le a c) (total : ∀ a b, le a b || le b a)
    (a : α) {bs : List α} (h : bs.Pairwise (le · ·)) :
    (insertInOrder le a bs).Pairwise (le · ·) := by
  induction bs with
  | nil => exact List.pairwise_singleton _ _
  | cons b bs ih =>
    obtain ⟨hb, hbs⟩ := List.pairwise_cons.1 h
    rw [insertInOrder]
    split
    · rename_i hab
      refine List.pairwise_cons.2 ⟨fun c hc ↦ ?_, h⟩
      rcases List.mem_cons.1 hc with rfl | hc
      · exact hab
      · exact trans a b c hab (hb c hc)
    · rename_i hab
      refine List.pairwise_cons.2 ⟨fun c hc ↦ ?_, ih hbs⟩
      rcases List.mem_cons.1 ((insertInOrder_perm le a bs).mem_iff.1 hc) with rfl | hc
      · exact (Bool.or_eq_true_iff.1 (total c b)).resolve_left hab
      · exact hb c hc

/-- Sorting puts a list in order. -/
theorem pairwise_sortBy {le : α → α → Bool}
    (trans : ∀ a b c, le a b → le b c → le a c) (total : ∀ a b, le a b || le b a)
    (as : List α) : (sortBy le as).Pairwise (le · ·) := by
  induction as with
  | nil => exact .nil
  | cons a as ih => exact pairwise_insertInOrder trans total a ih

/-- A list that is in order is left alone. -/
theorem sortBy_of_pairwise {le : α → α → Bool} {as : List α} (h : as.Pairwise (le · ·)) :
    sortBy le as = as := by
  induction as with
  | nil => rfl
  | cons a as ih =>
    obtain ⟨ha, has⟩ := List.pairwise_cons.1 h
    rw [sortBy, ih has]
    cases as with
    | nil => rfl
    | cons b bs => rw [insertInOrder, if_pos (ha b List.mem_cons_self)]

end ShaderLink
