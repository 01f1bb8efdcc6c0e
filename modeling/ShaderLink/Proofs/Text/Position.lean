import Mathlib.Data.List.TakeWhile
import Mathlib.Order.Nat
import ShaderLink.Proofs.Text.Cut
import ShaderLink.Text.Position

/-!
# Positions keep the order

Lines and columns name the places of a text in the order in which its bytes do. Each character moves
the position on (`Position.precedes_append`), so of two places between characters the one behind has
the later position, and no two have the same. Offsets that are no such places have the position of
one, by the way in which characters are counted up to an offset (`Text.upTo_append`).

The way back is a walk through the text, over lines first and then over characters of the line that
was reached (`Text.offset?`).
-/

namespace ShaderLink

namespace Position

/-- The place comes first: it is on an earlier line, or further to the left on the same one. -/
def Precedes (p q : Position) : Prop :=
  p.line < q.line ∨ p.line = q.line ∧ p.column < q.column

instance (p q : Position) : Decidable (p.Precedes q) :=
  inferInstanceAs (Decidable (_ ∨ _))

/-- Positions are ordered by line and column. -/
theorem Precedes.trans {p q r : Position} (hpq : p.Precedes q) (hqr : q.Precedes r) :
    p.Precedes r := by
  simp only [Precedes] at *
  omega

theorem Precedes.not_precedes {p q : Position} (h : p.Precedes q) : ¬q.Precedes p := by
  simp only [Precedes] at *
  omega

/-! ### Characters move the position on -/

variable {before inside : Text} {c : Char}

/-- Each character moves the position on. -/
theorem precedes_concat (before : Text) (c : Char) :
    (after before).Precedes (after (before ++ [c])) := by
  by_cases hc : c = '\n'
  · rw [hc, after_concat_lineFeed]
    exact .inl (Nat.lt_succ_self _)
  · rw [after_concat before hc]
    exact .inr ⟨rfl, Nat.lt_succ_self _⟩

/-- So do several. -/
theorem precedes_append (hne : inside ≠ []) :
    (after before).Precedes (after (before ++ inside)) := by
  induction inside generalizing before with
  | nil => exact absurd rfl hne
  | cons c inside ih =>
    rw [List.append_cons]
    by_cases hnil : inside = []
    · rw [hnil, List.append_nil]
      exact precedes_concat before c
    · exact (precedes_concat before c).trans (ih hnil)

/-! ### Characters in front -/

/-- The first line of a text is its part in front of any line feed. -/
theorem after_of_not_mem (hmem : '\n' ∉ before) : after before = ⟨1, before.length + 1⟩ := by
  have hall : ∀ c ∈ before.reverse, decide (c ≠ '\n') = true := fun c hc ↦
    decide_eq_true fun heq ↦ hmem (heq ▸ List.mem_reverse.1 hc)
  rw [after, List.count_eq_zero_of_not_mem hmem, List.takeWhile_eq_self_iff.2 hall,
    List.length_reverse]

/-- On the other lines, it does not matter what the text starts with. -/
theorem column_after_cons (hmem : '\n' ∈ c :: before) :
    (after (c :: before)).column = (after before).column := by
  rw [after, after, List.reverse_cons, List.takeWhile_append]
  split
  · rename_i hlength
    have hall := List.takeWhile_eq_self_iff.1 ((List.takeWhile_prefix _).eq_of_length hlength)
    have hnot : '\n' ∉ before := fun h ↦ by simpa using hall '\n' (List.mem_reverse.2 h)
    obtain rfl : '\n' = c := (List.mem_cons.1 hmem).resolve_right hnot
    rw [List.takeWhile_eq_self_iff.2 hall]
    simp
  · rfl

/-- Lines are counted by the line feeds in front. -/
theorem line_after_cons (c : Char) (before : Text) :
    (after (c :: before)).line = (after before).line + if c = '\n' then 1 else 0 := by
  rw [after, after, List.count_cons, Nat.add_right_comm]
  simp

end Position

namespace Text

variable {before rest t : Text} {n : Nat}

/-! ### Places between characters -/

/-- Up to an offset stand the characters that end in front of it. -/
theorem upTo_append (hle : before.size ≤ n) (hlt : ∀ c ∈ rest.head?, n < before.size + c.utf8Size) :
    upTo (before ++ rest) n = before := by
  induction before generalizing n with
  | nil =>
    cases rest with
    | nil => rfl
    | cons c rest =>
      have hc := hlt c rfl
      rw [List.nil_append, upTo, if_neg (by rw [size_nil] at hc; omega)]
  | cons c before ih =>
    rw [size_cons] at hle hlt
    rw [List.cons_append, upTo, if_pos (by omega), ih (by omega)]
    intro d hd
    have hd := hlt d hd
    omega

/-- Every place inside a character has the position of the character. -/
theorem position_append (hle : before.size ≤ n)
    (hlt : ∀ c ∈ rest.head?, n < before.size + c.utf8Size) :
    position (before ++ rest) n = Position.after before := by
  rw [position, upTo_append hle hlt]

theorem position_size (before rest : Text) :
    position (before ++ rest) before.size = Position.after before :=
  position_append (Nat.le_refl _) fun c _ ↦ Nat.lt_add_of_pos_right c.utf8Size_pos

/-- Behind another place between characters is a later position. -/
theorem precedes_position {a b : Nat} (ha : t.IsBoundary a) (hb : t.IsBoundary b) (hlt : a < b) :
    (t.position a).Precedes (t.position b) := by
  obtain ⟨before, inside, behind, rfl, rfl, hinside⟩ := exists_between ha hb hlt.le
  obtain rfl : (before ++ inside).size = b := by
    rw [size_append]
    omega
  have hne : inside ≠ [] := by
    rintro rfl
    simp only [size_nil] at hinside
    omega
  rw [position_size (before ++ inside) behind, List.append_assoc, position_size]
  exact Position.precedes_append hne

/-! ### The way back -/

/-- Walks over some line feeds, with all that stands in front of them, and then over some characters
of one line, and counts the bytes that it passes. -/
def walk? : (lines chars : Nat) → Text → Option Nat
  | 0, 0, _ => some 0
  | _, _, [] => none
  | 0, chars + 1, c :: t => if c = '\n' then none else (walk? 0 chars t).map (c.utf8Size + ·)
  | lines + 1, chars, c :: t =>
    (walk? (if c = '\n' then lines else lines + 1) chars t).map (c.utf8Size + ·)

/-- The offset of a place, found by walking to its line and then to its column. -/
def offset? (t : Text) (p : Position) : Option Nat :=
  walk? (p.line - 1) (p.column - 1) t

@[simp] theorem walk?_zero (t : Text) : walk? 0 0 t = some 0 := by
  cases t <;> rfl

/-- Inside a line, columns count characters. -/
theorem walk?_line (before rest : Text) (hmem : '\n' ∉ before) :
    walk? 0 before.length (before ++ rest) = some before.size := by
  induction before with
  | nil => exact walk?_zero rest
  | cons c before ih =>
    rw [List.mem_cons, not_or] at hmem
    rw [List.cons_append, List.length_cons, walk?, if_neg (Ne.symm hmem.1), ih hmem.2]
    rfl

/-- The walk to the position behind the beginning of a text passes just this beginning. -/
theorem offset?_after (before rest : Text) :
    offset? (before ++ rest) (.after before) = some before.size := by
  induction before with
  | nil => exact walk?_zero rest
  | cons c before ih =>
    by_cases hmem : '\n' ∈ c :: before
    · obtain ⟨lines, hlines⟩ : ∃ lines, (Position.after (c :: before)).line = lines + 2 :=
        Nat.exists_eq_add_of_le' (Nat.succ_le_succ (List.count_pos_iff.2 hmem))
      have hwalk : (if c = '\n' then lines else lines + 1) = (Position.after before).line - 1 := by
        rw [Position.line_after_cons] at hlines
        split at hlines <;> simp_all
      rw [offset?, hlines, Position.column_after_cons hmem, List.cons_append]
      show (walk? (if c = '\n' then lines else lines + 1) _ _).map _ = _
      rw [hwalk, ← offset?, ih]
      rfl
    · rw [Position.after_of_not_mem hmem]
      exact walk?_line (c :: before) rest hmem

/-! ### Main statement -/

/-- Positions are in the order of the places that they name. An offset inside a character has the
position of its start and one behind the text the position of its end, and the walk to a position
ends where it was taken. -/
theorem position_embeds (t : Text) :
    (∀ a b, t.IsBoundary a → t.IsBoundary b → (a < b ↔ (t.position a).Precedes (t.position b))) ∧
      (∀ (before : Text) c behind n, t = before ++ c :: behind → before.size ≤ n →
        n < before.size + c.utf8Size → t.position n = t.position before.size) ∧
      (∀ n, t.size ≤ n → t.position n = t.position t.size) ∧
      ∀ n, t.IsBoundary n → t.offset? (t.position n) = some n := by
  refine ⟨fun a b ha hb ↦ ⟨precedes_position ha hb, fun h ↦ ?_⟩, ?_, fun n hle ↦ ?_, ?_⟩
  · rcases Nat.lt_trichotomy a b with hlt | rfl | hgt
    · exact hlt
    · exact absurd h h.not_precedes
    · exact absurd h (precedes_position hb ha hgt).not_precedes
  · -- inside a character the position stays
    rintro before c behind n rfl hle hlt
    rw [position_size, position_append hle]
    rintro _ ⟨⟩
    exact hlt
  · have hposition {n : Nat} (hle : t.size ≤ n) : t.position n = .after t := by
      have hend := @position_append t [] _ hle nofun
      rwa [List.append_nil] at hend
    rw [hposition hle, hposition (Nat.le_refl _)]
  · rintro n ⟨before, behind, rfl, rfl⟩
    rw [position_size, offset?_after]

/-- The second line starts with a character of two bytes. -/
theorem position_embeds_accented :
    let t : Text := ['a', '\n', 'é', 'b']
    (t.IsBoundary 1 ∧ t.IsBoundary 4 ∧ (t.position 1).Precedes (t.position 4)) ∧
      t.position 3 = t.position 2 ∧ t.position 9 = t.position 5 ∧
      t.position 4 = ⟨2, 2⟩ ∧ t.offset? (t.position 4) = some 4 := by
  obtain ⟨horder, hinside, hbehind, hback⟩ := position_embeds ['a', '\n', 'é', 'b']
  have hone : IsBoundary ['a', '\n', 'é', 'b'] 1 := by decide
  have hfour : IsBoundary ['a', '\n', 'é', 'b'] 4 := by decide
  exact ⟨⟨hone, hfour, (horder 1 4 hone hfour).1 (by decide)⟩,
    hinside ['a', '\n'] 'é' ['b'] 3 rfl (by decide) (by decide), hbehind 9 (by decide),
    by decide, hback 4 hfour⟩

end Text

end ShaderLink
