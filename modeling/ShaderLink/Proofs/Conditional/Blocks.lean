import ShaderLink.Conditional

/-!
# Blocks of lines

Well-nested lines are a tree: plain lines and blocks one behind the other, each block with one
branch or more, in which there are lines and blocks again. What is left of such lines under
conditions is a recursion over the tree (`Conditional.Blocks.eval`).

The tree is in the lines (`Conditional.Blocks.lines_injective`), because it can be put together from
them, the last line first. On the way the branches of blocks that are opened further in front have
to be kept, which is what a `Conditional.Tail` is for.
-/

namespace ShaderLink

namespace Conditional

mutual

/-- Plain lines and blocks, one behind the other. -/
inductive Blocks where
  | done
  | plain (line : Text) (h : directive? line = none) (more : Blocks)
  | block (opening : Text) (name : String) (expected : Bool)
    (h : directive? opening = some (.start name expected)) (branches : Branches) (more : Blocks)

/-- The branches of a block, up to the line that closes it. -/
inductive Branches where
  | last (inside : Blocks) (closing : Text) (h : directive? closing = some .finish)
  | turned (inside : Blocks) (line : Text) (h : directive? line = some .turn) (more : Branches)

end

mutual

/-- The lines of blocks, those that are directives included. -/
def Blocks.lines : Blocks → List Text
  | .done => []
  | .plain line _ more => line :: more.lines
  | .block opening _ _ _ branches more => opening :: (branches.lines ++ more.lines)

/-- The lines of branches, up to the one that closes the block. -/
def Branches.lines : Branches → List Text
  | .last inside closing _ => inside.lines ++ [closing]
  | .turned inside line _ more => inside.lines ++ line :: more.lines

end

mutual

/-- The lines that are left. The first branch of a block counts if its condition has the value that
the block expects. -/
def Blocks.eval (conditions : String → Bool) : Blocks → List Text
  | .done => []
  | .plain line _ more => line :: more.eval conditions
  | .block _ name expected _ branches more =>
    branches.eval conditions (conditions name == expected) ++ more.eval conditions

/-- The lines that are left of branches, of which the first counts or does not. For each further one
it is the opposite. -/
def Branches.eval (conditions : String → Bool) (enabled : Bool) : Branches → List Text
  | .last inside _ _ => if enabled then inside.eval conditions else []
  | .turned inside _ _ more =>
    (if enabled then inside.eval conditions else []) ++ more.eval conditions !enabled

end

variable {conditions : String → Bool}

mutual

/-- No directive is left. -/
theorem Blocks.directive?_of_mem_eval {line : Text} :
    (b : Blocks) → line ∈ b.eval conditions → directive? line = none
  | .done, h => absurd h List.not_mem_nil
  | .plain _ hplain more, h => by
    rw [Blocks.eval] at h
    rcases List.mem_cons.1 h with rfl | h
    · exact hplain
    · exact more.directive?_of_mem_eval h
  | .block _ _ _ _ branches more, h => by
    rw [Blocks.eval] at h
    rcases List.mem_append.1 h with h | h
    · exact branches.directive?_of_mem_eval _ h
    · exact more.directive?_of_mem_eval h

theorem Branches.directive?_of_mem_eval {line : Text} :
    (b : Branches) → (enabled : Bool) → line ∈ b.eval conditions enabled → directive? line = none
  | .last inside _ _, enabled, h => by
    rw [Branches.eval] at h
    split at h
    · exact inside.directive?_of_mem_eval h
    · exact absurd h List.not_mem_nil
  | .turned inside _ _ more, enabled, h => by
    rw [Branches.eval] at h
    rcases List.mem_append.1 h with h | h
    · split at h
      · exact inside.directive?_of_mem_eval h
      · exact absurd h List.not_mem_nil
    · exact more.directive?_of_mem_eval _ h

end

/-! ### Inside of blocks -/

/-- Blocks in front of others. -/
def Blocks.append : Blocks → Blocks → Blocks
  | .done, next => next
  | .plain line h more, next => .plain line h (more.append next)
  | .block opening name expected h branches more, next =>
    .block opening name expected h branches (more.append next)

theorem Blocks.append_done : (b : Blocks) → b.append .done = b
  | .done => rfl
  | .plain line h more => congrArg (Blocks.plain line h) more.append_done
  | .block opening name expected h branches more =>
    congrArg (Blocks.block opening name expected h branches) more.append_done

/-- Changes what stands in the first branch. -/
def Branches.onFirst (f : Blocks → Blocks) : Branches → Branches
  | .last inside closing h => .last (f inside) closing h
  | .turned inside line h more => .turned (f inside) line h more

/-- What stands behind a place inside of blocks: what is left of their branches, of the innermost
block first, and what stands behind them all. -/
structure Tail where
  branches : List Branches
  rest : Blocks

namespace Tail

/-- All lines, those that are directives included. -/
def lines (p : Tail) : List Text :=
  p.branches.flatMap Branches.lines ++ p.rest.lines

/-- The lines that are left, given for each block whether it is enabled at the place. -/
def eval (conditions : String → Bool) : List Bool → Tail → List Text
  | e :: es, ⟨b :: bs, rest⟩ =>
    (if es.all id then b.eval conditions e else []) ++ eval conditions es ⟨bs, rest⟩
  | _, ⟨_, rest⟩ => rest.eval conditions

/-- Changes what stands next. -/
def onFirst (f : Blocks → Blocks) : Tail → Tail
  | ⟨[], rest⟩ => ⟨[], f rest⟩
  | ⟨b :: bs, rest⟩ => ⟨b.onFirst f :: bs, rest⟩

@[simp] theorem length_onFirst (f : Blocks → Blocks) (p : Tail) :
    (p.onFirst f).branches.length = p.branches.length := by
  obtain ⟨bs, rest⟩ := p
  cases bs <;> rfl

theorem onFirst_id (p : Tail) : p.onFirst id = p := by
  obtain ⟨bs, rest⟩ := p
  cases bs with
  | nil => rfl
  | cons b bs => cases b <;> rfl

theorem onFirst_onFirst (f g : Blocks → Blocks) (p : Tail) :
    (p.onFirst f).onFirst g = p.onFirst fun b ↦ g (f b) := by
  obtain ⟨bs, rest⟩ := p
  cases bs with
  | nil => rfl
  | cons b bs => cases b <;> rfl

/-- What puts lines in front of blocks puts them in front of what stands next. -/
theorem lines_onFirst {f : Blocks → Blocks} (front : List Text)
    (hf : ∀ b : Blocks, (f b).lines = front ++ b.lines) (p : Tail) :
    (p.onFirst f).lines = front ++ p.lines := by
  obtain ⟨bs, rest⟩ := p
  cases bs with
  | nil => exact hf rest
  | cons b bs =>
    have hb : (b.onFirst f).lines = front ++ b.lines := by
      cases b <;> simp [Branches.onFirst, Branches.lines, hf]
    simp [onFirst, lines, hb]

/-- What is put in front of what stands next is left if all blocks are enabled. -/
theorem eval_onFirst {f : Blocks → Blocks} (front : List Text)
    (hf : ∀ b : Blocks, (f b).eval conditions = front ++ b.eval conditions)
    {enabled : List Bool} (p : Tail) (hlength : p.branches.length = enabled.length) :
    (p.onFirst f).eval conditions enabled =
      (if enabled.all id then front else []) ++ p.eval conditions enabled := by
  obtain ⟨bs, rest⟩ := p
  cases bs with
  | nil =>
    obtain rfl := List.eq_nil_of_length_eq_zero hlength.symm
    exact hf rest
  | cons b bs =>
    cases enabled with
    | nil => cases hlength
    | cons e es =>
      have hb : (b.onFirst f).eval conditions e =
          (if e then front else []) ++ b.eval conditions e := by
        cases b <;> cases e <;> simp [Branches.onFirst, Branches.eval, hf]
      rw [onFirst, eval, eval, hb, List.all_cons]
      cases e <;> cases es.all id <;> simp

end Tail

/-! ### The tree of lines -/

/-- The lines make the tail. -/
inductive Tail.Made : List Text → Tail → Prop
  | done : Made [] ⟨[], .done⟩
  | plain {line : Text} {lines : List Text} {p : Tail} (h : directive? line = none)
    (hp : Made lines p) : Made (line :: lines) (p.onFirst (.plain line h))
  | start {line : Text} {lines : List Text} {name : String} {expected : Bool} {b : Branches}
    {bs : List Branches} {rest : Blocks} (h : directive? line = some (.start name expected))
    (hp : Made lines ⟨b :: bs, rest⟩) :
    Made (line :: lines) (onFirst (.block line name expected h b) ⟨bs, rest⟩)
  | turn {line : Text} {lines : List Text} {b : Branches} {bs : List Branches} {rest : Blocks}
    (h : directive? line = some .turn) (hp : Made lines ⟨b :: bs, rest⟩) :
    Made (line :: lines) ⟨.turned .done line h b :: bs, rest⟩
  | finish {line : Text} {lines : List Text} {bs : List Branches} {rest : Blocks}
    (h : directive? line = some .finish) (hp : Made lines ⟨bs, rest⟩) :
    Made (line :: lines) ⟨.last .done line h :: bs, rest⟩

/-- A tail has the lines that make it. -/
theorem Tail.Made.lines_eq {lines : List Text} {p : Tail} (h : Made lines p) : p.lines = lines := by
  induction h with
  | done => rfl
  | @plain line _ _ _ _ ih =>
    rw [lines_onFirst [line] fun _ ↦ rfl, ih, List.singleton_append]
  | @start line _ _ _ b _ _ _ _ ih =>
    rw [lines_onFirst (line :: b.lines) fun _ ↦ rfl, ← ih]
    simp [Tail.lines]
  | turn _ _ ih =>
    rw [← ih]
    simp [Tail.lines, Branches.lines, Blocks.lines]
  | finish _ _ ih =>
    rw [← ih]
    simp [Tail.lines, Branches.lines, Blocks.lines]

/-- Lines make at most one tail. -/
theorem Tail.Made.unique {lines : List Text} {p q : Tail} (hp : Made lines p) (hq : Made lines q) :
    p = q := by
  induction hp generalizing q with
  | done =>
    cases hq
    rfl
  | plain h _ ih =>
    cases hq with
    | plain _ hq => rw [ih hq]
    | start h' | turn h' | finish h' => cases h.symm.trans h'
  | start h _ ih =>
    cases hq with
    | start h' hq =>
      obtain ⟨rfl, rfl⟩ := Directive.start.inj (Option.some.inj (h.symm.trans h'))
      cases ih hq
      rfl
    | plain h' | turn h' | finish h' => cases h.symm.trans h'
  | turn h _ ih =>
    cases hq with
    | turn _ hq =>
      cases ih hq
      rfl
    | plain h' | start h' | finish h' => cases h.symm.trans h'
  | finish h _ ih =>
    cases hq with
    | finish _ hq =>
      cases ih hq
      rfl
    | plain h' | start h' | turn h' => cases h.symm.trans h'

mutual

/-- The lines of blocks make them, in front of what the lines behind make. -/
theorem Blocks.made_append {rest : List Text} {p : Tail} :
    (b : Blocks) → Tail.Made rest p → Tail.Made (b.lines ++ rest) (p.onFirst b.append)
  | .done, hp => p.onFirst_id.symm ▸ hp
  | .plain line h more, hp => by
    have hmade := (more.made_append hp).plain h
    rwa [p.onFirst_onFirst] at hmade
  | .block opening name expected h branches more, hp => by
    have hmade := (branches.made_append (more.made_append hp)).start h
    rwa [p.onFirst_onFirst, ← List.cons_append, ← List.append_assoc] at hmade

theorem Branches.made_append {rest : List Text} {p : Tail} :
    (b : Branches) → Tail.Made rest p → Tail.Made (b.lines ++ rest) ⟨b :: p.branches, p.rest⟩
  | .last inside closing h, hp => by
    have hmade := inside.made_append (hp.finish h)
    rw [Tail.onFirst, Branches.onFirst, inside.append_done] at hmade
    rwa [Branches.lines, List.append_assoc]
  | .turned inside line h more, hp => by
    have hmade := inside.made_append ((more.made_append hp).turn h)
    rw [Tail.onFirst, Branches.onFirst, inside.append_done] at hmade
    rwa [Branches.lines, List.append_assoc]

end

theorem Blocks.made (b : Blocks) : Tail.Made b.lines ⟨[], b⟩ := by
  have hmade := b.made_append .done
  rwa [List.append_nil, Tail.onFirst, b.append_done] at hmade

/-- The lines of blocks tell the blocks. -/
theorem Blocks.lines_injective {b b' : Blocks} (h : b.lines = b'.lines) : b = b' :=
  (Tail.mk.inj (b.made.unique (h ▸ b'.made))).2

end Conditional

end ShaderLink
