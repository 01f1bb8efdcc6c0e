import Mathlib.Data.List.Forall2

/-!
# Computations that succeed on every element

Small facts about `Except` that proofs about success and failure need: what a sequence of two
computations went through, that a computation which succeeds on each element of a list succeeds on
the list, and that it fails with the first element that it fails on otherwise. Two computations
agree if their parts do, as far as can be seen through a function of their results.
-/

namespace ShaderLink

namespace Except

variable {ε α β γ δ : Type}

/-- Two computations in turn succeed if both do. -/
theorem bind_eq_ok {x : Except ε α} {f : α → Except ε β} {b : β} :
    (x >>= f) = .ok b ↔ ∃ a, x = .ok a ∧ f a = .ok b := by
  cases x with
  | error e => simp [Bind.bind, Except.bind]
  | ok a => simp [Bind.bind, Except.bind]

/-- They fail with the error of the first that fails. -/
theorem bind_eq_error {x : Except ε α} {f : α → Except ε β} {e : ε} :
    (x >>= f) = .error e ↔ x = .error e ∨ ∃ a, x = .ok a ∧ f a = .error e := by
  cases x with
  | error e => simp [Bind.bind, Except.bind]
  | ok a => simp [Bind.bind, Except.bind]

/-- What is made of the elements of a list one by one is made of the list. -/
theorem exists_mapM (f : α → Except ε β) {R : α → β → Prop} (as : List α)
    (h : ∀ a ∈ as, ∃ b, f a = .ok b ∧ R a b) :
    ∃ bs, as.mapM f = .ok bs ∧ List.Forall₂ R as bs := by
  induction as with
  | nil => exact ⟨[], rfl, .nil⟩
  | cons a as ih =>
    obtain ⟨ha, has⟩ := List.forall_mem_cons.1 h
    obtain ⟨b, hb, hab⟩ := ha
    obtain ⟨bs, hbs, hall⟩ := ih has
    exact ⟨b :: bs, by rw [List.mapM_cons, hb, hbs]; rfl, .cons hab hall⟩

/-- What a computation that succeeds on a list makes of each element. -/
theorem forall₂_of_mapM {f : α → Except ε β} {as : List α} {bs : List β}
    (h : as.mapM f = .ok bs) : List.Forall₂ (fun a b ↦ f a = .ok b) as bs := by
  induction as generalizing bs with
  | nil =>
    obtain rfl : [] = bs := Except.ok.inj h
    exact .nil
  | cons a as ih =>
    rw [List.mapM_cons] at h
    obtain ⟨b, hb, hrest⟩ := bind_eq_ok.1 h
    obtain ⟨bs', hbs', heq⟩ := bind_eq_ok.1 hrest
    obtain rfl := Except.ok.inj heq
    exact .cons hb (ih hbs')

/-- A computation fails on a list with what it fails with on the first element that it fails on. -/
theorem mapM_eq_error_iff {f : α → Except ε β} {as : List α} {e : ε} :
    as.mapM f = .error e ↔ ∃ front a back, as = front ++ a :: back ∧
      (∀ a' ∈ front, ∃ b, f a' = .ok b) ∧ f a = .error e := by
  induction as with
  | nil =>
    refine iff_of_false (fun h ↦ nomatch h) ?_
    rintro ⟨front, a, back, hnil, -⟩
    simp at hnil
  | cons a as ih =>
    rw [List.mapM_cons, bind_eq_error]
    constructor
    · rintro (herror | ⟨b, hb, hrest⟩)
      · exact ⟨[], a, as, rfl, fun _ h ↦ absurd h List.not_mem_nil, herror⟩
      · rcases bind_eq_error.1 hrest with herror | ⟨bs, -, hok⟩
        · obtain ⟨front, a', back, rfl, hfront, ha'⟩ := ih.1 herror
          exact ⟨a :: front, a', back, rfl, List.forall_mem_cons.2 ⟨⟨b, hb⟩, hfront⟩, ha'⟩
        · cases hok
    · rintro ⟨front, a', back, heq, hfront, ha'⟩
      cases front with
      | nil =>
        obtain ⟨rfl, rfl⟩ := List.cons.inj heq
        exact .inl ha'
      | cons a'' front =>
        obtain ⟨rfl, rfl⟩ := List.cons.inj heq
        obtain ⟨⟨b, hb⟩, hfront⟩ := List.forall_mem_cons.1 hfront
        exact .inr ⟨b, hb, bind_eq_error.2 (.inl (ih.2 ⟨front, a', back, rfl, hfront, ha'⟩))⟩

theorem eq_ok_of_toOption {x : Except ε α} {a : α} (h : x.toOption = some a) : x = .ok a := by
  cases x with
  | error e => cases h
  | ok a' => rw [Option.some.inj h]

/-! ### Computations that agree -/

/-- Computations that agree on the elements agree on the list. -/
theorem mapM_congr {f g : α → Except ε β} {as : List α} (h : ∀ a ∈ as, f a = g a) :
    as.mapM f = as.mapM g := by
  induction as with
  | nil => rfl
  | cons a as ih =>
    obtain ⟨ha, has⟩ := List.forall_mem_cons.1 h
    rw [List.mapM_cons, List.mapM_cons, ha, ih has]

/-- Two computations of which the same is seen fail in the same way or have results of which the
same is seen. -/
theorem map_eq_map {x x' : Except ε α} {v : α → γ} (h : x'.map v = x.map v) :
    (∃ e, x = .error e ∧ x' = .error e) ∨ ∃ a a', x = .ok a ∧ x' = .ok a' ∧ v a' = v a := by
  cases x with
  | error e =>
    cases x' with
    | error e' => exact .inl ⟨e, rfl, congrArg Except.error (Except.error.inj h)⟩
    | ok a' => cases h
  | ok a =>
    cases x' with
    | error e' => cases h
    | ok a' => exact .inr ⟨a, a', rfl, rfl, Except.ok.inj h⟩

/-- If what is seen of the rest depends only on what is seen of the first part, so does what is seen
of the whole. -/
theorem map_bind_congr {x x' : Except ε α} {f f' : α → Except ε β} {v : α → γ} {w : β → δ}
    (hx : x'.map v = x.map v) (hf : ∀ a a', v a' = v a → (f' a').map w = (f a).map w) :
    (x' >>= f').map w = (x >>= f).map w := by
  rcases map_eq_map hx with ⟨e, rfl, rfl⟩ | ⟨a, a', rfl, rfl, ha⟩
  · rfl
  · exact hf a a' ha

theorem map_bind_congr_right {x : Except ε α} {f f' : α → Except ε β} {w : β → δ}
    (hf : ∀ a, (f' a).map w = (f a).map w) : (x >>= f').map w = (x >>= f).map w := by
  cases x with
  | error e => rfl
  | ok a => exact hf a

theorem map_mapM_congr {f f' : α → Except ε β} {v : β → γ} {as : List α}
    (h : ∀ a ∈ as, (f' a).map v = (f a).map v) :
    (as.mapM f').map (List.map v) = (as.mapM f).map (List.map v) := by
  induction as with
  | nil => rfl
  | cons a as ih =>
    obtain ⟨ha, has⟩ := List.forall_mem_cons.1 h
    rw [List.mapM_cons, List.mapM_cons]
    refine map_bind_congr ha fun b b' hb ↦ map_bind_congr (ih has) fun bs bs' hbs ↦ ?_
    exact congrArg Except.ok (congrArg₂ List.cons hb hbs)

end Except

/-- What a partial function makes of the elements of a list on which it is defined. -/
theorem forall₂_filterMap {α β : Type} {f : α → Option β} {p : α → Bool} {as : List α}
    (h : ∀ a ∈ as, (f a).isSome = p a) :
    List.Forall₂ (fun a b ↦ f a = some b) (as.filter p) (as.filterMap f) := by
  induction as with
  | nil => exact .nil
  | cons a as ih =>
    obtain ⟨ha, has⟩ := List.forall_mem_cons.1 h
    cases hf : f a with
    | none =>
      rw [hf] at ha
      rw [List.filter_cons_of_neg (by simp [← ha]), List.filterMap_cons_none hf]
      exact ih has
    | some b =>
      rw [hf] at ha
      rw [List.filter_cons_of_pos ha.symm, List.filterMap_cons_some hf]
      exact .cons hf (ih has)

/-- Each element of the second of two related lists is related to one of the first. -/
theorem exists_of_mem_forall₂ {α β : Type} {R : α → β → Prop} {as : List α} {bs : List β}
    (h : List.Forall₂ R as bs) {b : β} (hb : b ∈ bs) : ∃ a ∈ as, R a b := by
  induction h with
  | nil => exact absurd hb List.not_mem_nil
  | @cons a b' as bs hab _ ih =>
    rcases List.mem_cons.1 hb with rfl | hb
    · exact ⟨a, List.mem_cons_self, hab⟩
    · obtain ⟨a', ha', hab'⟩ := ih hb
      exact ⟨a', List.mem_cons_of_mem a ha', hab'⟩

end ShaderLink
