import ShaderLink.SourceMap.Compact
import ShaderLink.Warning
import ShaderLink.Text.Blank

/-!
# Conditional lines

The lines `#if name`, `#if !name`, `#else` and `#endif`, also behind `//`, enclose lines that are
kept only under a condition. A condition that nobody sets does not hold. Blocks nest, and a line is
kept if every block around it is enabled at that line; an `#else` turns its block over, each time
there is one. The directive lines themselves are never kept.

Directives without partner are pointed out and otherwise ignored, so that every text can be
processed. `Conditional.read` finds the lines to keep, `Conditional.process` makes a text and its
map of them.
-/

namespace ShaderLink

namespace Conditional

/-! ### Directive lines -/

/-- A line that controls which others are kept. -/
inductive Directive where
  /-- Opens a block, enabled if the condition has the value `expected`. -/
  | start (name : String) (expected : Bool)
  /-- Turns the innermost block over. -/
  | turn
  /-- Closes the innermost block. -/
  | finish
deriving DecidableEq, Repr

/-- The directive that a line is, if it is one. -/
def directive? (line : Text) : Option Directive := do
  let line := line.trim
  let line := ((line.dropPrefix? "//").map Text.trimStart).getD line
  let line ← line.dropPrefix? "#"
  let argument := Text.trim (line.dropWhile fun c ↦ !isBlank c)
  match String.ofList (line.takeWhile fun c ↦ !isBlank c) with
  | "if" =>
    match argument with
    | '!' :: name => some (.start (String.ofList (Text.trimStart name)) false)
    | name => some (.start (String.ofList name) true)
  | "else" => some .turn
  | "endif" => some .finish
  | _ => none

/-! ### The lines to keep -/

/-- An open block. -/
structure Block where
  enabled : Bool
  /-- The offset of the line that opened it. -/
  start : Nat
deriving DecidableEq, Repr

/-- What the lines read so far amount to. -/
structure Reading where
  /-- The open blocks, the innermost first. -/
  blocks : List Block
  /-- The lines to keep, with their offsets. -/
  kept : List (Nat × Text)
  /-- What is wrong, with the offset of the line. -/
  problems : List (Nat × String)
deriving DecidableEq, Repr

/-- Nothing read. -/
def Reading.empty : Reading :=
  ⟨[], [], []⟩

/-- Reads one line. -/
def Reading.line (conditions : String → Bool) (r : Reading) (offset : Nat) (line : Text) :
    Reading :=
  match directive? line, r.blocks with
  | some (.start name expected), blocks =>
    { r with blocks := ⟨conditions name == expected, offset⟩ :: blocks }
  | some .turn, block :: blocks =>
    { r with blocks := { block with enabled := !block.enabled } :: blocks }
  | some .turn, [] => { r with problems := r.problems ++ [(offset, "#else without #if")] }
  | some .finish, _ :: blocks => { r with blocks := blocks }
  | some .finish, [] => { r with problems := r.problems ++ [(offset, "#endif without #if")] }
  | none, blocks =>
    if blocks.all Block.enabled then { r with kept := r.kept ++ [(offset, line)] } else r

/-- Reads lines from an offset on. -/
def Reading.lines (conditions : String → Bool) (r : Reading) (offset : Nat) : List Text → Reading
  | [] => r
  | line :: rest => (r.line conditions offset line).lines conditions (offset + line.size) rest

/-- Points out the blocks that are still open, the outermost first. -/
def Reading.close (r : Reading) : Reading where
  blocks := []
  kept := r.kept
  problems := r.problems ++ r.blocks.reverse.map fun b ↦ (b.start, "#if without #endif")

/-- What the lines of a text amount to. -/
def read (conditions : String → Bool) (t : Text) : Reading :=
  (Reading.empty.lines conditions 0 t.lines).close

/-! ### Processed texts -/

/-- A text of which some lines are left, and what is wrong with it. -/
structure Processed where
  /-- The lines left, and where they come from. -/
  map : SourceMap
  warnings : List Warning
deriving DecidableEq, Repr

/-- Adds the kept lines of a source, each a copy. -/
def addLines (m : SourceMap) (source : SourceId) (lines : List (Nat × Text)) : SourceMap :=
  lines.foldl (fun m line ↦ m.add line.2 source ⟨line.1, line.2.size⟩) m

/-- The lines of a source to keep. -/
def process (conditions : String → Bool) (source : SourceId) (t : Text) : Processed :=
  let reading := read conditions t
  ⟨(addLines (.empty (source.derived "conditioned")) source reading.kept).compact,
    reading.problems.map fun problem ↦ Warning.ofOffset source t problem.1 problem.2⟩

end Conditional

end ShaderLink
