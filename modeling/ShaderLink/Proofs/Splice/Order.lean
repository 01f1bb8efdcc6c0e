import ShaderLink.Proofs.Provenance.Splice

/-!
# The order of splices

Splices are applied in the order of their spans, and two of them can be applied one behind the other
unless they overlap. So whether splices overlap is told by neighbours in that order
(`Splice.ordered_iff`), and the order in which they are given only shows in what equal spans get:
sorting leaves splices of one span as they stand (`filter_sortBy`), and where no two splices share
one there is nothing to leave (`Splice.sortBy_eq_of_perm`).
-/

namespace ShaderLink

/-! ### Sorting is stable -/

section Stable

variable {α : Type} {le : α → α → Bool} {p : α → Bool} {a : α} {as bs : List α}

/-- What is filtered away leaves no trace when it is put in. -/
theorem filter_insertInOrder_of_neg (h : ¬p a = true) :
    (insertInOrder le a bs).filter p = bs.filter p := by
  induction bs with
  | nil => exact List.filter_cons_of_neg h
  | cons b bs ih =>
    rw [insertInOrder]
    split
    · exact List.filter_cons_of_neg h
    · rw [List.filter_cons, List.filter_cons, ih]

/-- What is not larger than the others of its kind is put in front of them. -/
theorem filter_insertInOrder_of_pos (h : p a = true)
    (hle : ∀ b ∈ bs, p b = true → le a b = true) :
    (insertInOrder le a bs).filter p = a :: bs.filter p := by
  induction bs with
  | nil => exact List.filter_cons_of_pos h
  | cons b bs ih =>
    obtain ⟨hb, hbs⟩ := List.forall_mem_cons.1 hle
    rw [insertInOrder]
    split
    · exact List.filter_cons_of_pos h
    · rename_i hno
      have hpb : ¬p b = true := fun hpb ↦ hno (hb hpb)
      rw [List.filter_cons_of_neg hpb, List.filter_cons_of_neg hpb, ih hbs]

/-- Elements that are in order as they are given stay as they stand among each other. -/
theorem filter_sortBy (h : as.Pairwise fun a b ↦ p a = true → p b = true → le a b = true) :
    (sortBy le as).filter p = as.filter p := by
  induction as with
  | nil => rfl
  | cons a as ih =>
    obtain ⟨ha, has⟩ := List.pairwise_cons.1 h
    rw [sortBy]
    by_cases hp : p a = true
    · have hle : ∀ b ∈ sortBy le as, p b = true → le a b = true :=
        fun b hb ↦ ha b ((sortBy_perm le as).mem_iff.1 hb) hp
      rw [filter_insertInOrder_of_pos hp hle, ih has, List.filter_cons_of_pos hp]
    · rw [filter_insertInOrder_of_neg hp, ih has, List.filter_cons_of_neg hp]

end Stable

/-! ### Spans that overlap -/

namespace Span

variable {s s' : Span} {spans : List Span} {start : Nat}

/-- The spans share a byte, or one of them is a place inside the other. -/
def Overlaps (s s' : Span) : Prop :=
  (∃ n, (s.start ≤ n ∧ n < s.stop) ∧ s'.start ≤ n ∧ n < s'.stop) ∨
    (s.size = 0 ∧ s'.start < s.start ∧ s.start < s'.stop) ∨
    (s'.size = 0 ∧ s.start < s'.start ∧ s'.start < s.stop)

/-- Spans are apart if they share no place. -/
theorem apart_iff_not_overlaps : s.Apart s' ↔ ¬s.Overlaps s' := by
  constructor
  · simp only [Apart, Overlaps, stop]
    rintro hapart (⟨n, hn, hn'⟩ | hplace | hplace) <;> omega
  · intro hno
    by_contra hapart
    refine hno ?_
    simp only [Apart, stop] at hapart
    by_cases hs : s.size = 0
    · exact .inr (.inl ⟨hs, by simp only [stop]; omega⟩)
    by_cases hs' : s'.size = 0
    · exact .inr (.inr ⟨hs', by simp only [stop]; omega⟩)
    · refine .inl ⟨max s.start s'.start, ?_⟩
      simp only [stop]
      omega

instance (s s' : Span) : Decidable (s.Overlaps s') :=
  have : Decidable (s.Apart s') := inferInstanceAs (Decidable (_ ∨ _))
  decidable_of_iff _ (apart_iff_not_overlaps.not.trans not_not)

/-- The first of the spans that starts before the one in front of it stops. -/
def firstOverlap? (start : Nat) : List Span → Option Span
  | [] => none
  | s :: ss => if s.start < start then some s else firstOverlap? s.stop ss

/-- Spans in order do not overlap if each starts behind the one in front of it. -/
theorem firstOverlap?_eq_none_iff : firstOverlap? start spans = none ↔
    (∀ s ∈ spans, start ≤ s.start) ∧ spans.Pairwise fun s s' ↦ s.stop ≤ s'.start := by
  induction spans generalizing start with
  | nil => simp [firstOverlap?]
  | cons s ss ih =>
    rw [firstOverlap?, List.pairwise_cons]
    split
    · rename_i hlt
      refine iff_of_false nofun fun h ↦ ?_
      have hle := h.1 s List.mem_cons_self
      omega
    · rename_i hle
      rw [ih]
      refine ⟨fun h ↦ ⟨List.forall_mem_cons.2 ⟨Nat.le_of_not_lt hle, fun s' hs' ↦ ?_⟩, h⟩,
        fun h ↦ h.2⟩
      have hnext := h.1 s' hs'
      simp only [stop] at hnext
      omega

theorem firstOverlap?_mem {s : Span} (h : firstOverlap? start spans = some s) : s ∈ spans := by
  induction spans generalizing start with
  | nil => exact absurd h nofun
  | cons first ss ih =>
    rw [firstOverlap?] at h
    split at h
    · obtain rfl := Option.some.inj h
      exact List.mem_cons_self
    · exact List.mem_cons_of_mem _ (ih h)

end Span

namespace Splice

variable {s s' : Splice} {splices splices' : List Splice}

/-- Splices lie apart exactly if, in order, each stops before the next one starts. -/
theorem ordered_iff :
    ((sortBy before splices).Pairwise fun s s' ↦ s.span.stop ≤ s'.span.start) ↔
      splices.Pairwise fun s s' ↦ s.span.Apart s'.span := by
  rw [← (sortBy_perm before splices).pairwise_iff fun h ↦ Span.Apart.symm h]
  refine ⟨fun h ↦ h.imp Or.inl, fun h ↦ ?_⟩
  refine ((pairwise_sortBy_before splices).and h).imp fun {s s'} hboth ↦ ?_
  obtain ⟨hbefore, hleft | hright⟩ := hboth
  · exact hleft
  · have hbefore := before_iff.1 hbefore
    simp only [Span.stop] at hbefore hright ⊢
    omega

/-- Splices that may stand in either order are at the same span. -/
theorem span_eq_of_before (h : s.before s' = true) (h' : s'.before s = true) :
    s.span = s'.span := by
  obtain ⟨⟨start, size⟩, text⟩ := s
  obtain ⟨⟨start', size'⟩, text'⟩ := s'
  simp only [before_iff, Span.stop] at h h'
  rw [Span.mk.injEq]
  omega

/-- The spans, in order, are the same for every order in which splices are given. -/
theorem map_span_sortBy_eq_of_perm (h : splices'.Perm splices) :
    (sortBy before splices').map Splice.span = (sortBy before splices).map Splice.span := by
  let le (a b : Span) : Prop := (⟨a, []⟩ : Splice).before ⟨b, []⟩ = true
  have hpairwise (splices : List Splice) :
      ((sortBy before splices).map Splice.span).Pairwise le :=
    List.pairwise_map.2 (pairwise_sortBy_before splices)
  refine List.Perm.eq_of_pairwise (fun a b _ _ hab hba ↦ ?_) (hpairwise splices')
    (hpairwise splices) (.map _ (((sortBy_perm before splices').trans h).trans
      (sortBy_perm before splices).symm))
  have hspan : (⟨a, []⟩ : Splice).span = (⟨b, []⟩ : Splice).span := span_eq_of_before hab hba
  exact hspan

/-- Both splices insert at one place. -/
def Meet (s s' : Splice) : Prop :=
  s.span.size = 0 ∧ s'.span.size = 0 ∧ s.span.start = s'.span.start

instance (s s' : Splice) : Decidable (s.Meet s') :=
  inferInstanceAs (Decidable (_ ∧ _ ∧ _))

theorem Meet.symm (h : s.Meet s') : s'.Meet s :=
  ⟨h.2.1, h.1, h.2.2.symm⟩

/-- Splices that lie apart and of which no two insert at one place come in one order only. -/
theorem sortBy_eq_of_perm (h : splices'.Perm splices)
    (hapart : splices.Pairwise fun s s' ↦ s.span.Apart s'.span)
    (hmeet : splices.Pairwise fun s s' ↦ ¬s.Meet s') :
    sortBy before splices' = sortBy before splices := by
  refine List.Perm.eq_of_pairwise (fun s s' hs hs' hle hle' ↦ ?_)
    (pairwise_sortBy_before splices') (pairwise_sortBy_before splices)
    (((sortBy_perm before splices').trans h).trans (sortBy_perm before splices).symm)
  have hspan := span_eq_of_before hle hle'
  by_contra hne
  let differ (s s' : Splice) : Prop := s.span.Apart s'.span ∧ ¬s.Meet s'
  have hsymm : Std.Symm differ := ⟨fun _ _ h ↦ ⟨h.1.symm, fun hmeet ↦ h.2 hmeet.symm⟩⟩
  obtain ⟨hself, hno⟩ : differ s s' := (hapart.and hmeet).forall
    (h.mem_iff.1 ((sortBy_perm before splices').mem_iff.1 hs))
    ((sortBy_perm before splices).mem_iff.1 hs') hne
  -- a span that lies apart from itself is empty
  have hsize : s'.span.size = 0 := by
    rw [hspan] at hself
    simp only [Span.Apart, Span.stop] at hself
    omega
  exact hno ⟨hspan ▸ hsize, hsize, congrArg Span.start hspan⟩

end Splice

end ShaderLink
