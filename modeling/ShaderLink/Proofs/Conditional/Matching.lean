import Mathlib.Data.List.Infix
import ShaderLink.Proofs.Conditional.Blocks
import ShaderLink.Proofs.Text.Line

/-!
# Directives with a partner and without

A directive is told to be without partner by the lines around it alone. A block that is opened stays
open unless some of the lines behind close more blocks than they open (`Conditional.StaysOpen`). So
the line that opens a block is **unclosed** if that is so of all the lines behind it, and a line
that turns a block over or closes one is **unmatched** if no line in front of it has opened a block
that stays open up to there.

A reader of the lines keeps the open blocks on a stack. What is on the stack at a line are the
blocks that were opened in front of it and stay open up to there (`Conditional.starts_lines`). A
line that is no directive is kept if none of these is in a branch that is left out
(`Conditional.Spot.Kept`), and what the reader keeps are just these lines, with the offsets at which
they stand (`Conditional.kept_read`).
-/

namespace ShaderLink

namespace Conditional

/-! ### Lines among others -/

/-- A line with the lines around it. -/
structure Spot where
  front : List Text
  line : Text
  behind : List Text

/-- The offset of the line. -/
def Spot.offset (s : Spot) : Nat :=
  Text.size s.front.flatten

/-- The spots of lines that stand behind others. -/
def spots (front : List Text) : List Text → List Spot
  | [] => []
  | line :: behind => ⟨front, line, behind⟩ :: spots (front ++ [line]) behind

/-- A spot of lines cuts them in two. -/
theorem exists_of_mem_spots {s : Spot} {front lines : List Text} (h : s ∈ spots front lines) :
    ∃ before, lines = before ++ s.line :: s.behind ∧ s.front = front ++ before := by
  induction lines generalizing front with
  | nil => exact absurd h List.not_mem_nil
  | cons line lines ih =>
    rcases List.mem_cons.1 h with rfl | h
    · exact ⟨[], rfl, (List.append_nil front).symm⟩
    · obtain ⟨before, rfl, hfront⟩ := ih h
      exact ⟨line :: before, rfl, by rw [hfront, List.append_assoc, List.singleton_append]⟩

theorem map_line_spots (front lines : List Text) : (spots front lines).map Spot.line = lines := by
  induction lines generalizing front with
  | nil => rfl
  | cons line lines ih => exact congrArg (line :: ·) (ih _)

/-- Lines stand between the offsets at which they start and stop together. -/
theorem offset_of_mem_spots {s : Spot} {front lines : List Text} (h : s ∈ spots front lines) :
    Text.size front.flatten ≤ s.offset ∧
      s.offset + s.line.size ≤ Text.size (front ++ lines).flatten := by
  obtain ⟨before, rfl, hfront⟩ := exists_of_mem_spots h
  rw [Spot.offset, hfront]
  simp only [List.flatten_append, List.flatten_cons, Text.size_append]
  omega

/-- Lines stand one behind the other. -/
theorem pairwise_spots (front lines : List Text) :
    (spots front lines).Pairwise fun s s' ↦ s.offset + s.line.size ≤ s'.offset := by
  induction lines generalizing front with
  | nil => exact .nil
  | cons line lines ih =>
    refine List.pairwise_cons.2 ⟨fun s hs ↦ ?_, ih _⟩
    have hle := (offset_of_mem_spots hs).1
    rwa [List.flatten_append, Text.size_append, List.flatten_singleton] at hle

/-! ### Partners -/

/-- Whether the line opens a block. -/
def opens (line : Text) : Bool :=
  match directive? line with
  | some (.start _ _) => true
  | _ => false

/-- Whether the line closes a block. -/
def closes (line : Text) : Bool :=
  directive? line == some .finish

/-- A block that is open in front of the lines is open behind them: up to no place among them have
more blocks been closed than opened. -/
def StaysOpen (lines : List Text) : Prop :=
  ∀ front ∈ lines.inits, front.countP closes ≤ front.countP opens

instance : DecidablePred StaysOpen :=
  fun lines ↦ inferInstanceAs (Decidable (∀ front ∈ lines.inits, _))

namespace Spot

/-- The line opens a block that is not closed behind it. -/
def Unclosed (s : Spot) : Prop :=
  opens s.line = true ∧ StaysOpen s.behind

instance : DecidablePred Unclosed :=
  fun s ↦ inferInstanceAs (Decidable (opens s.line = true ∧ StaysOpen s.behind))

/-- The line turns a block over or closes one, but none of those opened in front of it is open. -/
def Unmatched (s : Spot) : Prop :=
  (directive? s.line = some .turn ∨ directive? s.line = some .finish) ∧
    ∀ s' ∈ spots [] s.front, ¬s'.Unclosed

instance : DecidablePred Unmatched :=
  fun s ↦ inferInstanceAs (Decidable
    ((directive? s.line = some .turn ∨ directive? s.line = some .finish) ∧
      ∀ s' ∈ spots [] s.front, ¬s'.Unclosed))

/-- What is wrong with an unmatched line. -/
def complaint (s : Spot) : String :=
  if closes s.line then "#endif without #if" else "#else without #if"

end Spot

/-- The lines that are unmatched. -/
def unmatched (lines : List Text) : List Spot :=
  (spots [] lines).filter fun s ↦ decide s.Unmatched

/-- The lines that open a block which is not closed. -/
def unclosed (lines : List Text) : List Spot :=
  (spots [] lines).filter fun s ↦ decide s.Unclosed

/-- The lines without those that are unmatched, and with a line that closes each unclosed block. -/
def repaired (lines : List Text) : List Text :=
  ((spots [] lines).filter fun s ↦ !decide s.Unmatched).map Spot.line ++
    (unclosed lines).map fun _ ↦ "#endif".toList

/-! ### What is open -/

variable {conditions : String → Bool} {line : Text} {lines front : List Text} {r : Reading}

/-- How many of the blocks that are open in front of the lines are closed by them. -/
def closings : List Text → Nat
  | [] => 0
  | line :: lines =>
    match directive? line with
    | some (.start _ _) => closings lines - 1
    | some .finish => closings lines + 1
    | _ => closings lines

theorem closings_le_iff {n : Nat} :
    closings lines ≤ n ↔ ∀ front ∈ lines.inits, front.countP closes ≤ front.countP opens + n := by
  induction lines generalizing n with
  | nil => simp [closings]
  | cons line lines ih =>
    have hcons : (∀ front ∈ (line :: lines).inits, front.countP closes ≤ front.countP opens + n) ↔
        ∀ front ∈ lines.inits, front.countP closes + (if closes line then 1 else 0) ≤
          front.countP opens + (if opens line then 1 else 0) + n := by
      simp [List.countP_cons]
    rw [hcons, closings]
    cases hline : directive? line with
    | none => simpa [closes, opens, hline] using ih
    | some d =>
      cases d with
      | start name expected =>
        -- a block that is opened here can be closed behind
        have hopens := ih (n := n + 1)
        simp only [closes, opens, hline]
        rw [Nat.sub_le_iff_le_add, hopens]
        refine forall₂_congr fun front _ ↦ ?_
        simp only [Option.some_beq_some, beq_iff_eq, reduceCtorEq, ↓reduceIte, Nat.add_zero]
        omega
      | turn => simpa [closes, opens, hline] using ih
      | finish =>
        simp only [closes, opens, hline]
        -- one more is closed, which none may be if none is open
        cases n with
        | zero =>
          refine iff_of_false (by omega) fun h ↦ ?_
          simpa using h [] (by simp)
        | succ n =>
          rw [Nat.succ_le_succ_iff, ih]
          refine forall₂_congr fun front _ ↦ ?_
          simp only [BEq.rfl, ↓reduceIte, Bool.false_eq_true, Nat.add_zero]
          omega

/-- A block stays open if the lines close none of those that were open in front of them. -/
theorem staysOpen_iff : StaysOpen lines ↔ closings lines = 0 := by
  rw [← Nat.le_zero, closings_le_iff]
  rfl

/-- What a line does to the stack. -/
theorem starts_line (conditions : String → Bool) (r : Reading) (offset : Nat) (line : Text) :
    (r.line conditions offset line).blocks.map Block.start =
      match directive? line with
      | some (.start _ _) => offset :: r.blocks.map Block.start
      | some .finish => (r.blocks.map Block.start).drop 1
      | _ => r.blocks.map Block.start := by
  rw [Reading.line.eq_def]
  split <;> simp_all
  split <;> rfl

/-- On the stack are the blocks that the lines open and do not close, and of those that were open
before as many as the lines leave. -/
theorem starts_lines (conditions : String → Bool) (r : Reading)
    (front lines : List Text) :
    (r.lines conditions (Text.size front.flatten) lines).blocks.map Block.start =
      (((spots front lines).filter fun s ↦ decide s.Unclosed).map Spot.offset).reverse ++
        (r.blocks.map Block.start).drop (closings lines) := by
  induction lines generalizing r front with
  | nil => rfl
  | cons line lines ih =>
    have hrest := ih (r.line conditions (Text.size front.flatten) line) (front ++ [line])
    rw [List.flatten_append, Text.size_append, List.flatten_singleton, starts_line] at hrest
    rw [Reading.lines, hrest, spots, List.filter_cons, closings]
    cases hline : directive? line with
    | none => simp [Spot.Unclosed, opens, hline]
    | some d =>
      cases d with
      | turn => simp [Spot.Unclosed, opens, hline]
      | finish => simp [Spot.Unclosed, opens, hline, Nat.add_comm]
      | start name expected =>
        -- the new block is left if no line behind closes it, and is the first to go otherwise
        cases hclosings : closings lines with
        | zero => simp [Spot.Unclosed, opens, hline, staysOpen_iff, hclosings, Spot.offset]
        | succ n => simp [Spot.Unclosed, opens, hline, staysOpen_iff, hclosings]

/-! ### Reading lines from the start of a text -/

/-- What the first lines of a text amount to. -/
def reading (conditions : String → Bool) (lines : List Text) : Reading :=
  Reading.empty.lines conditions 0 lines

theorem lines_append (r : Reading) (offset : Nat) (front lines : List Text) :
    r.lines conditions offset (front ++ lines) =
      (r.lines conditions offset front).lines conditions (offset + Text.size front.flatten)
        lines := by
  induction front generalizing r offset with
  | nil => rfl
  | cons line front ih =>
    rw [List.cons_append, Reading.lines, ih, Reading.lines, List.flatten_cons, Text.size_append,
      Nat.add_assoc]

theorem reading_append (front : List Text) (line : Text) :
    reading conditions (front ++ [line]) =
      (reading conditions front).line conditions (Text.size front.flatten) line := by
  rw [reading, lines_append, Nat.zero_add]
  rfl

/-- The line is no directive, and every block that is open at it is enabled. -/
def Spot.Kept (conditions : String → Bool) (s : Spot) : Prop :=
  directive? s.line = none ∧ (reading conditions s.front).blocks.all Block.enabled = true

instance (conditions : String → Bool) : DecidablePred (Spot.Kept conditions) :=
  fun s ↦ inferInstanceAs (Decidable
    (directive? s.line = none ∧ (reading conditions s.front).blocks.all Block.enabled = true))

/-- The lines of a text that stand behind others and are kept. -/
def keptSpots (conditions : String → Bool) (front lines : List Text) : List Spot :=
  (spots front lines).filter fun s ↦ decide (s.Kept conditions)

/-- Reading keeps the lines that are to be kept, with their offsets, and no others. -/
theorem kept_reading_append (conditions : String → Bool) (front lines : List Text) :
    (reading conditions (front ++ lines)).kept = (reading conditions front).kept ++
      (keptSpots conditions front lines).map fun s ↦ (s.offset, s.line) := by
  induction lines generalizing front with
  | nil => simp [keptSpots, spots]
  | cons line lines ih =>
    have hrest := ih (front ++ [line])
    rw [List.append_assoc, List.singleton_append, keptSpots] at hrest
    rw [hrest, reading_append, keptSpots, spots, List.filter_cons]
    generalize hr : reading conditions front = r
    rw [Reading.line.eq_def]
    split <;> simp_all [Spot.Kept, Spot.offset]
    split <;> simp_all

theorem kept_read (conditions : String → Bool) (t : Text) :
    (read conditions t).kept =
      (keptSpots conditions [] t.lines).map fun s ↦ (s.offset, s.line) :=
  kept_reading_append conditions [] t.lines

/-- What is kept of a text are some of its lines, with their offsets. -/
theorem kept_read_sublist (conditions : String → Bool) (t : Text) :
    (read conditions t).kept.Sublist ((spots [] t.lines).map fun s ↦ (s.offset, s.line)) := by
  rw [kept_read]
  exact List.filter_sublist.map _

/-- Put together, the lines that are kept are cut again where they were. -/
theorem lined_kept_read (conditions : String → Bool) (t : Text) :
    Text.Lined ((read conditions t).kept.map Prod.snd) := by
  have hsub := (kept_read_sublist conditions t).map Prod.snd
  rw [List.map_map] at hsub
  exact (Text.lined_lines t).sublist (map_line_spots [] t.lines ▸ hsub)

theorem starts_reading (conditions : String → Bool) (lines : List Text) :
    (reading conditions lines).blocks.map Block.start =
      ((unclosed lines).map Spot.offset).reverse := by
  have hstarts := starts_lines conditions .empty [] lines
  rwa [Reading.empty, List.map_nil, List.drop_nil, List.append_nil] at hstarts

/-- Nothing is on the stack exactly if all blocks that were opened are closed. -/
theorem blocks_reading_eq_nil_iff :
    (reading conditions front).blocks = [] ↔ ∀ s ∈ spots [] front, ¬s.Unclosed := by
  have hstarts := starts_reading conditions front
  have hnil : (reading conditions front).blocks = [] ↔ unclosed front = [] := by
    rw [← List.map_eq_nil_iff (f := Block.start), hstarts, List.reverse_eq_nil_iff,
      List.map_eq_nil_iff]
  rw [hnil, unclosed, List.filter_eq_nil_iff]
  simp

/-- A line is unmatched if it needs an open block when there is none. -/
theorem unmatched_iff (conditions : String → Bool) {behind : List Text} :
    (⟨front, line, behind⟩ : Spot).Unmatched ↔
      (directive? line = some .turn ∨ directive? line = some .finish) ∧
        (reading conditions front).blocks = [] := by
  rw [blocks_reading_eq_nil_iff]
  rfl

/-- Each unmatched line is pointed out when it is read, and nothing else is. -/
theorem problems_reading_append (conditions : String → Bool) (front lines : List Text) :
    (reading conditions (front ++ lines)).problems = (reading conditions front).problems ++
      ((spots front lines).filter fun s ↦ decide s.Unmatched).map fun s ↦
        (s.offset, s.complaint) := by
  induction lines generalizing front with
  | nil => simp [spots]
  | cons line lines ih =>
    have hrest := ih (front ++ [line])
    rw [List.append_assoc, List.singleton_append] at hrest
    rw [hrest, reading_append, spots, List.filter_cons]
    have hunmatched : (⟨front, line, lines⟩ : Spot).Unmatched ↔ _ := unmatched_iff conditions
    generalize hr : reading conditions front = r at hunmatched ⊢
    rw [Reading.line.eq_def]
    split <;> simp_all [Spot.complaint, closes, Spot.offset]
    split <;> rfl

/-- What is wrong with the directives of a text are the unmatched lines and the unclosed ones. -/
theorem problems_read (conditions : String → Bool) (t : Text) :
    (read conditions t).problems =
      ((unmatched t.lines).map fun s ↦ (s.offset, s.complaint)) ++
        (unclosed t.lines).map fun s ↦ (s.offset, "#if without #endif") := by
  have hproblems := problems_reading_append conditions [] t.lines
  have hstarts := starts_reading conditions t.lines
  rw [List.nil_append] at hproblems
  have hopen : ((reading conditions t.lines).blocks.reverse.map fun b ↦
      (b.start, "#if without #endif")) =
      (unclosed t.lines).map fun s ↦ (s.offset, "#if without #endif") := by
    have hmap :=
      congrArg (fun starts ↦ starts.reverse.map fun n ↦ (n, "#if without #endif")) hstarts
    simpa [Function.comp_def] using hmap
  show (reading conditions t.lines).close.problems = _
  rw [Reading.close]
  dsimp only
  rw [hopen, hproblems]
  rfl

/-! ### Lines without directives -/

/-- No block is opened. -/
theorem unclosed_eq_nil (h : ∀ line ∈ lines, directive? line = none) : unclosed lines = [] := by
  refine List.filter_eq_nil_iff.2 fun s hs ↦ ?_
  obtain ⟨before, rfl, -⟩ := exists_of_mem_spots hs
  have hline := h s.line (by simp)
  simp [Spot.Unclosed, opens, hline]

theorem unmatched_eq_nil (h : ∀ line ∈ lines, directive? line = none) : unmatched lines = [] := by
  refine List.filter_eq_nil_iff.2 fun s hs ↦ ?_
  obtain ⟨before, rfl, -⟩ := exists_of_mem_spots hs
  have hline := h s.line (by simp)
  simp [Spot.Unmatched, hline]

/-- All lines are kept. -/
theorem keptSpots_eq_spots (conditions : String → Bool)
    (h : ∀ line ∈ lines, directive? line = none) :
    keptSpots conditions [] lines = spots [] lines := by
  refine List.filter_eq_self.2 fun s hs ↦ ?_
  obtain ⟨before, rfl, hfront⟩ := exists_of_mem_spots hs
  have hnone : (reading conditions s.front).blocks = [] := by
    rw [← List.map_eq_nil_iff (f := Block.start), starts_reading, hfront, List.nil_append,
      unclosed_eq_nil fun line hline ↦ h line (List.mem_append_left _ hline)]
    rfl
  simp [Spot.Kept, h s.line (by simp), hnone]

theorem kept_read_of_plain (conditions : String → Bool) {t : Text}
    (h : ∀ line ∈ t.lines, directive? line = none) :
    (read conditions t).kept = (spots [] t.lines).map fun s ↦ (s.offset, s.line) := by
  rw [kept_read, keptSpots_eq_spots conditions h]

end Conditional

end ShaderLink
