import ShaderLink.SourceMap.Compact
import ShaderLink.SourceMap.Lookup
import ShaderLink.Fault

/-!
# Merging maps

If a text was made from another that was itself made from a source, two maps lead back one after the
other. Merging them gives one map that leads back all the way. A copy is followed piece by piece
through the inner map, a replacement only at its two ends, which must come from one source. Entries
that lead elsewhere stay as they are.
-/

namespace ShaderLink

namespace SourceMap

/-- Where the end of a span comes from. The end of a text without entries is a place in that
text. -/
def traceEnd (m : SourceMap) (offset : Nat) : Except Fault Place :=
  if m.text.isEmpty && m.entries.isEmpty then
    .ok ⟨m.id, 0⟩
  else
    match m.entryBefore? offset with
    | some e => .ok (e.placeAt offset e.origin.stop)
    | none => .error (.uncovered offset m.id)

/-- Where the start of a span comes from. -/
def traceStart (m : SourceMap) (offset : Nat) : Except Fault Place :=
  match m.entryAt? offset with
  | some e => .ok (e.placeAt offset e.origin.start)
  | none => m.traceEnd offset

/-- The part of a copy `outer` between two offsets of its source, which the entry `e` covers, as
coming from the source of `e`. -/
def piece (e outer : Entry) (start stop : Nat) : Entry where
  source := e.source
  origin := if e.isCopy then ⟨e.origin.start + (start - e.target.start), stop - start⟩ else e.origin
  target := ⟨outer.target.start + (start - outer.origin.start), stop - start⟩

/-- The pieces of a copy `outer` of this map's text, from an offset of its source on. -/
def tracePieces (m : SourceMap) (outer : Entry) (offset : Nat) : Except Fault (List Entry) :=
  if offset < outer.origin.stop then
    match m.entryAt? offset with
    | none => .error (.uncovered offset m.id)
    | some e =>
      let stop := min e.target.stop outer.origin.stop
      if offset < stop then do
        return piece e outer offset stop :: (← m.tracePieces outer stop)
      else
        .error (.uncovered offset m.id)
  else
    .ok []
termination_by outer.origin.stop - offset
decreasing_by omega

/-- What an entry of a later map becomes when this map leads back from its source. -/
def trace (m : SourceMap) (outer : Entry) : Except Fault (List Entry) :=
  if outer.source ≠ m.id then
    .ok [outer]
  else if outer.isCopy && !outer.origin.isEmpty then
    m.tracePieces outer outer.origin.start
  else do
    let start ← m.traceStart outer.origin.start
    let stop ← if outer.origin.isEmpty then pure start else m.traceEnd outer.origin.stop
    if start.source = stop.source then
      return [⟨start.source, Span.between start.offset (max stop.offset start.offset),
        outer.target⟩]
    else
      throw (.spread outer.target)

/-- The map from the text of `outer` to the sources of `inner`. -/
def merge (inner outer : SourceMap) : Except Fault SourceMap := do
  let entries ← outer.entries.mapM inner.compact.trace
  return compact { outer with entries := entries.flatten }

end SourceMap

end ShaderLink
