import ShaderLink.SourceMap.Basic

/-!
# Looking up origins

The entry at an offset is found by bisection, which takes the entries to be in the order of their
targets. On entries in any other order bisection still comes to an answer, which is then one entry
or none without being the first that fits.
-/

namespace ShaderLink

/-- Bisection among the `size` elements from `base` on, of which only the first is left when there
is one. -/
def bisectFrom {α : Type} (p : α → Bool) (xs : List α) (base size : Nat) : Nat :=
  if size ≤ 1 then
    base + if xs[base]?.any p then 1 else 0
  else
    bisectFrom p xs (if xs[base + size / 2]?.any p then base + size / 2 else base) (size - size / 2)
termination_by size
decreasing_by omega

/-- The number of elements in front that satisfy `p`, if none behind them does. -/
def bisect {α : Type} (p : α → Bool) (xs : List α) : Nat :=
  bisectFrom p xs 0 xs.length

namespace SourceMap

/-- The entry whose target holds the byte at an offset. -/
def entryAt? (m : SourceMap) (offset : Nat) : Option Entry :=
  (m.entries[bisect (fun e ↦ e.target.stop ≤ offset) m.entries]?).filter fun e ↦
    e.target.start ≤ offset

/-- The entry whose target holds the byte in front of an offset, or the first byte of all. -/
def entryBefore? (m : SourceMap) (offset : Nat) : Option Entry :=
  (m.entries[bisect (fun e ↦ e.target.stop < offset) m.entries]?).filter fun e ↦
    e.target.start < offset || offset == 0

/-- Where the byte at an offset comes from. The end of the text comes from the last entry. -/
def origin? (m : SourceMap) (offset : Nat) : Option Place :=
  let entry := (m.entryAt? offset).orElse fun _ ↦
    m.entries.getLast?.filter fun e ↦ e.target.stop == offset
  entry.map fun e ↦ e.placeAt offset e.origin.start

/-- The offset in the source that an offset comes from, or the offset itself if none is known. -/
def originOffset (m : SourceMap) (offset : Nat) : Nat :=
  ((m.origin? offset).map Place.offset).getD offset

end SourceMap

end ShaderLink
