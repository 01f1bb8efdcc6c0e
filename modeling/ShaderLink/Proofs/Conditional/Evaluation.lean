import ShaderLink.Proofs.Conditional.Matching
import ShaderLink.Proofs.Provenance.Conditional

/-!
# Processing is evaluating blocks

Lines are read one by one with a stack of open blocks, but what is left of a text can be told from
its blocks: those that its lines make once the directives without partner are left out and the
unclosed blocks are closed (`Conditional.process_eq_eval`).

The proof goes from the last line to the first. The lines behind some others make a tail, with a
branch for each block that is open in front of them, and what is read of them is what the tail
leaves of its branches and of the rest (`Continues`). One more line in front changes the tail in one
of five ways.
-/

namespace ShaderLink

namespace Conditional

variable {conditions : String → Bool} {line : Text} {lines front : List Text} {p : Tail}

/-! ### How many blocks are open -/

/-- The number of blocks that are open behind the first lines of a text. -/
def height (lines : List Text) : Nat :=
  (unclosed lines).length

/-- The blocks that are open while reading are those that are counted. -/
theorem length_blocks_reading (conditions : String → Bool) (lines : List Text) :
    (reading conditions lines).blocks.length = height lines := by
  have hlength := congrArg List.length (starts_reading conditions lines)
  simpa [height] using hlength

/-- A line opens a block, closes one or does neither. -/
theorem height_append (front : List Text) (line : Text) :
    height (front ++ [line]) =
      match directive? line with
      | some (.start _ _) => height front + 1
      | some .finish => height front - 1
      | _ => height front := by
  have hlength := length_blocks_reading fun _ ↦ false
  have hline := congrArg List.length (starts_line (fun _ ↦ false)
    (reading (fun _ ↦ false) front) (Text.size front.flatten) line)
  rw [← reading_append, List.length_map, hlength] at hline
  rw [hline]
  split <;> simp_all

/-- A line is unmatched where no block is open. -/
theorem unmatched_iff_height {behind : List Text} : (⟨front, line, behind⟩ : Spot).Unmatched ↔
    (directive? line = some .turn ∨ directive? line = some .finish) ∧ height front = 0 := by
  rw [unmatched_iff fun _ ↦ false, ← length_blocks_reading fun _ ↦ false,
    List.length_eq_zero_iff]

/-! ### What reading keeps -/

/-- The lines behind others without those that are unmatched, and with lines that close the blocks
that are open in the end. -/
def repairedBehind (front lines : List Text) : List Text :=
  ((spots front lines).filter fun s ↦ !decide s.Unmatched).map Spot.line ++
    List.replicate (height (front ++ lines)) "#endif".toList

theorem repaired_eq (lines : List Text) : repaired lines = repairedBehind [] lines := by
  rw [repaired, repairedBehind, List.map_const', height, List.nil_append]

theorem repairedBehind_of_not_unmatched (h : ¬(⟨front, line, lines⟩ : Spot).Unmatched) :
    repairedBehind front (line :: lines) = line :: repairedBehind (front ++ [line]) lines := by
  simp [repairedBehind, spots, h]

theorem repairedBehind_of_unmatched (h : (⟨front, line, lines⟩ : Spot).Unmatched) :
    repairedBehind front (line :: lines) = repairedBehind (front ++ [line]) lines := by
  simp [repairedBehind, spots, h]

/-- The lines behind others, once they are repaired, make the tail, of which is left what reading
keeps of them. -/
structure Continues (front lines : List Text) (p : Tail) : Prop where
  made : Tail.Made (repairedBehind front lines) p
  length : p.branches.length = height front
  kept : ∀ conditions, (reading conditions (front ++ lines)).kept.map Prod.snd =
    (reading conditions front).kept.map Prod.snd ++
      p.eval conditions ((reading conditions front).blocks.map Block.enabled)

namespace Continues

/-- What reading keeps, seen from one line further in front. -/
theorem kept_cons (h : Continues (front ++ [line]) lines p) (conditions : String → Bool) :
    (reading conditions (front ++ line :: lines)).kept.map Prod.snd =
      ((reading conditions front).line conditions (Text.size front.flatten) line).kept.map
          Prod.snd ++
        p.eval conditions (((reading conditions front).line conditions (Text.size front.flatten)
          line).blocks.map Block.enabled) := by
  have hkept := h.kept conditions
  rwa [List.append_assoc, List.singleton_append, reading_append] at hkept

/-- A line that is no directive belongs to the block around it. -/
theorem plain (h : Continues (front ++ [line]) lines p) (hline : directive? line = none) :
    Continues front (line :: lines) (p.onFirst (.plain line hline)) := by
  have hlength := h.length
  rw [height_append, hline] at hlength
  refine ⟨?_, by simpa using hlength, fun conditions ↦ ?_⟩
  · rw [repairedBehind_of_not_unmatched (by simp [unmatched_iff_height, hline])]
    exact h.made.plain hline
  · rw [h.kept_cons, Tail.eval_onFirst [line] (fun _ ↦ rfl) p
      (by rw [hlength, List.length_map, length_blocks_reading]), List.all_map]
    simp only [Reading.line, hline]
    show _ = _ ++ ((if (reading conditions front).blocks.all Block.enabled then _ else _) ++ _)
    split <;> simp

/-- A line that opens a block takes the branch behind it for its own. -/
theorem start {name : String} {expected : Bool} {b : Branches} {bs : List Branches} {rest : Blocks}
    (h : Continues (front ++ [line]) lines ⟨b :: bs, rest⟩)
    (hline : directive? line = some (.start name expected)) :
    Continues front (line :: lines)
      (Tail.onFirst (.block line name expected hline b) ⟨bs, rest⟩) := by
  have hlength : bs.length = height front := by
    have hlength := h.length
    rw [height_append, hline] at hlength
    exact Nat.succ.inj hlength
  refine ⟨?_, (Tail.length_onFirst _ _).trans hlength, fun conditions ↦ ?_⟩
  · rw [repairedBehind_of_not_unmatched (by simp [unmatched_iff_height, hline])]
    exact h.made.start hline
  · rw [h.kept_cons, Tail.eval_onFirst _ (fun _ ↦ rfl) _
      (hlength.trans (by rw [List.length_map, length_blocks_reading]))]
    simp [Reading.line, hline, Tail.eval]

/-- A line that turns a block over ends one branch and begins the other. -/
theorem turn {b : Branches} {bs : List Branches} {rest : Blocks}
    (h : Continues (front ++ [line]) lines ⟨b :: bs, rest⟩)
    (hline : directive? line = some .turn) :
    Continues front (line :: lines) ⟨.turned .done line hline b :: bs, rest⟩ := by
  have hlength : bs.length + 1 = height front := by
    have hlength := h.length
    rwa [height_append, hline] at hlength
  refine ⟨?_, hlength, fun conditions ↦ ?_⟩
  · rw [repairedBehind_of_not_unmatched (by simp [unmatched_iff_height, ← hlength])]
    exact h.made.turn hline
  · obtain ⟨top, blocks, htop⟩ := List.exists_cons_of_length_eq_add_one
      ((length_blocks_reading conditions front).trans hlength.symm)
    rw [h.kept_cons]
    simp [Reading.line, hline, htop, Tail.eval, Branches.eval, Blocks.eval]

/-- A line that closes a block ends its last branch. -/
theorem finish {n : Nat} (h : Continues (front ++ [line]) lines p)
    (hline : directive? line = some .finish) (hheight : height front = n + 1) :
    Continues front (line :: lines) ⟨.last .done line hline :: p.branches, p.rest⟩ := by
  have hlength : p.branches.length = n := by
    have hlength := h.length
    rwa [height_append, hline, hheight] at hlength
  refine ⟨?_, ?_, fun conditions ↦ ?_⟩
  · rw [repairedBehind_of_not_unmatched (by simp [unmatched_iff_height, hheight])]
    exact h.made.finish hline
  · rw [hheight, List.length_cons, hlength]
  · obtain ⟨top, blocks, htop⟩ := List.exists_cons_of_length_eq_add_one
      ((length_blocks_reading conditions front).trans hheight)
    rw [h.kept_cons]
    simp [Reading.line, hline, htop, Tail.eval, Branches.eval, Blocks.eval]

/-- A line that needs an open block when there is none changes nothing. -/
theorem skip (h : Continues (front ++ [line]) lines p)
    (hunmatched : (⟨front, line, lines⟩ : Spot).Unmatched) : Continues front (line :: lines) p := by
  obtain ⟨hline, hheight⟩ := unmatched_iff_height.1 hunmatched
  have hlength := h.length
  refine ⟨?_, ?_, fun conditions ↦ ?_⟩
  · rw [repairedBehind_of_unmatched hunmatched]
    exact h.made
  · rw [hlength, height_append]
    rcases hline with hline | hline <;> simp [hline, hheight]
  · have hnil : (reading conditions front).blocks = [] :=
      List.eq_nil_of_length_eq_zero ((length_blocks_reading conditions front).trans hheight)
    rw [h.kept_cons]
    rcases hline with hline | hline <;> simp [Reading.line, hline, hnil]

end Continues

/-- Lines that close blocks end the last branches of them. -/
theorem exists_made_replicate (n : Nat) : ∃ p, Tail.Made (List.replicate n "#endif".toList) p ∧
    p.branches.length = n ∧ ∀ conditions enabled, p.eval conditions enabled = [] := by
  induction n with
  | zero =>
    refine ⟨_, .done, rfl, fun conditions enabled ↦ ?_⟩
    cases enabled <;> rfl
  | succ n ih =>
    obtain ⟨p, hmade, hlength, heval⟩ := ih
    refine ⟨_, hmade.finish (by decide), congrArg (· + 1) hlength, fun conditions enabled ↦ ?_⟩
    cases enabled with
    | nil => exact heval conditions []
    | cons e es =>
      rw [Tail.eval, heval]
      simp [Branches.eval, Blocks.eval]

/-- There is such a tail for all lines. -/
theorem exists_continues (front lines : List Text) : ∃ p, Continues front lines p := by
  induction lines generalizing front with
  | nil =>
    obtain ⟨p, hmade, hlength, heval⟩ := exists_made_replicate (height front)
    refine ⟨p, ?_, hlength, fun conditions ↦ ?_⟩
    · rwa [repairedBehind, List.append_nil]
    · rw [List.append_nil, heval, List.append_nil]
  | cons line lines ih =>
    obtain ⟨p, h⟩ := ih (front ++ [line])
    by_cases hunmatched : (⟨front, line, lines⟩ : Spot).Unmatched
    · exact ⟨p, h.skip hunmatched⟩
    · rw [unmatched_iff_height, not_and] at hunmatched
      have hlength := h.length
      rw [height_append] at hlength
      obtain ⟨bs, rest⟩ := p
      cases hline : directive? line with
      | none => exact ⟨_, h.plain hline⟩
      | some d =>
        rw [hline] at hlength
        cases d with
        | start name expected =>
          obtain ⟨b, bs, rfl⟩ := List.exists_cons_of_length_eq_add_one hlength
          exact ⟨_, h.start hline⟩
        | turn =>
          obtain ⟨n, hn⟩ := Nat.exists_eq_succ_of_ne_zero (hunmatched (.inl hline))
          obtain ⟨b, bs, rfl⟩ := List.exists_cons_of_length_eq_add_one (hlength.trans hn)
          exact ⟨_, h.turn hline⟩
        | finish =>
          obtain ⟨n, hn⟩ := Nat.exists_eq_succ_of_ne_zero (hunmatched (.inr hline))
          exact ⟨_, h.finish hline hn⟩

/-! ### Well-nested lines -/

mutual

/-- Reading blocks leaves nothing open that was not open before, and nothing is wrong with them. -/
theorem Blocks.blocks_lines (conditions : String → Bool) :
    (b : Blocks) → (r : Reading) → (offset : Nat) →
    (r.lines conditions offset b.lines).blocks = r.blocks ∧
      (r.lines conditions offset b.lines).problems = r.problems
  | .done, r, offset => ⟨rfl, rfl⟩
  | .plain line h more, r, offset => by
    obtain ⟨hblocks, hproblems⟩ :=
      more.blocks_lines conditions (r.line conditions offset line) (offset + line.size)
    rw [Blocks.lines, Reading.lines, hblocks, hproblems]
    simp only [Reading.line, h]
    split <;> exact ⟨rfl, rfl⟩
  | .block opening name expected h branches more, r, offset => by
    rw [Blocks.lines, Reading.lines, lines_append]
    obtain ⟨hblocks, hproblems⟩ := branches.blocks_lines conditions
      (r.line conditions offset opening) (offset + opening.size)
      ⟨conditions name == expected, offset⟩ r.blocks (by simp [Reading.line, h])
    obtain ⟨hblocks', hproblems'⟩ := more.blocks_lines conditions _ _
    rw [hblocks', hproblems', hblocks, hproblems]
    simp [Reading.line, h]

theorem Branches.blocks_lines (conditions : String → Bool) : (b : Branches) → (r : Reading) →
    (offset : Nat) → (top : Block) → (blocks : List Block) → r.blocks = top :: blocks →
    (r.lines conditions offset b.lines).blocks = blocks ∧
      (r.lines conditions offset b.lines).problems = r.problems
  | .last inside closing h, r, offset, top, blocks, htop => by
    rw [Branches.lines, lines_append]
    obtain ⟨hblocks, hproblems⟩ := inside.blocks_lines conditions r offset
    simp [Reading.lines, Reading.line, h, hblocks, hproblems, htop]
  | .turned inside line h more, r, offset, top, blocks, htop => by
    rw [Branches.lines, lines_append, Reading.lines]
    obtain ⟨hblocks, hproblems⟩ := inside.blocks_lines conditions r offset
    obtain ⟨hblocks', hproblems'⟩ := more.blocks_lines conditions
      ((r.lines conditions offset inside.lines).line conditions _ line) _
      { top with enabled := !top.enabled } blocks (by simp [Reading.line, h, hblocks, htop])
    rw [hblocks', hproblems']
    simp [Reading.line, h, hblocks, hproblems, htop]

end

/-! ### Processed texts -/

/-- Where every directive has its partner, there is nothing to repair. -/
theorem repaired_eq_self (hunmatched : unmatched lines = []) (hunclosed : unclosed lines = []) :
    repaired lines = lines := by
  have hall : ((spots [] lines).filter fun s ↦ !decide s.Unmatched) = spots [] lines := by
    refine List.filter_eq_self.2 fun s hs ↦ ?_
    have hs := List.filter_eq_nil_iff.1 hunmatched s hs
    simpa using hs
  rw [repaired, hunclosed, hall, map_line_spots, List.map_nil, List.append_nil]

/-- The repaired lines are blocks, and what is kept of a text is what the blocks leave. -/
theorem exists_blocks (t : Text) : ∃ b : Blocks, b.lines = repaired t.lines ∧
    ∀ conditions, (read conditions t).kept.map Prod.snd = b.eval conditions := by
  obtain ⟨⟨bs, b⟩, hmade, hlength, hkept⟩ := exists_continues [] t.lines
  obtain rfl : bs = [] := List.eq_nil_of_length_eq_zero hlength
  refine ⟨b, ?_, hkept⟩
  rw [repaired_eq, ← hmade.lines_eq]
  rfl

/-- The processed text consists of the lines kept. -/
theorem text_process_eq (conditions : String → Bool) (source : SourceId) (t : Text) :
    (process conditions source t).map.text = ((read conditions t).kept.map Prod.snd).flatten := by
  rw [(traces_process conditions ⟨source, t⟩).2.1.text, traced, text_lines]

/-- These are its lines again. -/
theorem lines_process (conditions : String → Bool) (source : SourceId) (t : Text) :
    Text.lines (process conditions source t).map.text = (read conditions t).kept.map Prod.snd := by
  rw [text_process_eq, (lined_kept_read conditions t).lines_flatten]

/-- No line of a processed text is a directive. -/
theorem directive?_of_mem_lines_process {source : SourceId} {t : Text}
    (h : line ∈ Text.lines (process conditions source t).map.text) : directive? line = none := by
  obtain ⟨b, -, hkept⟩ := exists_blocks t
  rw [lines_process, hkept] at h
  exact b.directive?_of_mem_eval h

/-- First come the warnings of lines without a block, then those of blocks without an end. -/
theorem warnings_process_eq (conditions : String → Bool) (source : SourceId) (t : Text) :
    (process conditions source t).warnings =
      (unmatched t.lines).map (fun s ↦ Warning.ofOffset source t s.offset s.complaint) ++
        (unclosed t.lines).map
          (fun s ↦ Warning.ofOffset source t s.offset "#if without #endif") := by
  rw [process, problems_read]
  simp [Function.comp_def]

/-- There is nothing to warn of exactly if the lines are well-nested. -/
theorem warnings_process_eq_nil_iff {source : SourceId} {t : Text} :
    (process conditions source t).warnings = [] ↔ ∃ b : Blocks, b.lines = t.lines := by
  constructor
  · intro hnone
    rw [warnings_process_eq, List.append_eq_nil_iff, List.map_eq_nil_iff,
      List.map_eq_nil_iff] at hnone
    obtain ⟨b, hlines, -⟩ := exists_blocks t
    exact ⟨b, hlines.trans (repaired_eq_self hnone.1 hnone.2)⟩
  · rintro ⟨b, hb⟩
    obtain ⟨hblocks, hproblems⟩ := b.blocks_lines conditions .empty 0
    rw [hb] at hblocks hproblems
    show (((Reading.empty.lines conditions 0 t.lines).close.problems).map _) = []
    rw [Reading.close, hblocks, hproblems]
    rfl

/-- Processing a text is evaluating its blocks, once the lines without partner are left out and the
unclosed blocks are closed. Nothing that is left is a directive. There is a warning for each line
that is left out and for each block that is closed, and none exactly if the lines are well-nested as
they stand. -/
theorem process_eq_eval (t : Text) : ∃ b : Blocks, b.lines = repaired t.lines ∧
    (∀ b' : Blocks, b'.lines = repaired t.lines → b' = b) ∧ ∀ conditions source,
      (process conditions source t).map.text = (b.eval conditions).flatten ∧
      (∀ line ∈ Text.lines (process conditions source t).map.text, directive? line = none) ∧
      (process conditions source t).warnings =
        (unmatched t.lines).map (fun s ↦ Warning.ofOffset source t s.offset s.complaint) ++
          (unclosed t.lines).map (fun s ↦ Warning.ofOffset source t s.offset "#if without #endif") ∧
      ((process conditions source t).warnings = [] ↔ ∃ b' : Blocks, b'.lines = t.lines) := by
  obtain ⟨b, hlines, hkept⟩ := exists_blocks t
  refine ⟨b, hlines, fun b' hb' ↦ Blocks.lines_injective (hb'.trans hlines.symm),
    fun conditions source ↦ ⟨?_, fun _ ↦ directive?_of_mem_lines_process,
      warnings_process_eq conditions source t, warnings_process_eq_nil_iff⟩⟩
  rw [text_process_eq, hkept]

end Conditional

end ShaderLink
