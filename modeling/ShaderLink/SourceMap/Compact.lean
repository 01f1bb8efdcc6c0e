import ShaderLink.Sort
import ShaderLink.SourceMap.Basic

/-!
# Compact maps

Building a map piece by piece leaves entries for nothing and copies of neighbouring bytes side by
side. A **compact** map has its entries in the order of their targets, none of them for the empty
span, and no two neighbours that one copy could stand for.
-/

namespace ShaderLink

namespace Entry

/-- The order of entries: by the start of their targets. -/
def before (e f : Entry) : Bool :=
  e.target.start ≤ f.target.start

/-- Whether two neighbouring entries are copies of neighbouring bytes. -/
def joins (e f : Entry) : Bool :=
  e.source == f.source && e.isCopy && f.isCopy && e.origin.stop == f.origin.start &&
    e.target.stop == f.target.start

/-- One copy for two. -/
def join (e f : Entry) : Entry where
  source := e.source
  origin := ⟨e.origin.start, e.origin.size + f.origin.size⟩
  target := ⟨e.target.start, e.target.size + f.target.size⟩

/-- Joins an entry with as many of the following as can be joined, and goes on behind them. -/
def joinFrom (e : Entry) : List Entry → List Entry
  | [] => [e]
  | f :: fs => if e.joins f then joinFrom (e.join f) fs else e :: joinFrom f fs

/-- Joins all neighbours that can be joined. -/
def joinAll : List Entry → List Entry
  | [] => []
  | e :: es => joinFrom e es

end Entry

/-- The compact map with the same text. Entries with equal targets stay in order. -/
def SourceMap.compact (m : SourceMap) : SourceMap :=
  let covering := m.entries.filter fun e ↦ !e.target.isEmpty
  { m with entries := Entry.joinAll (sortBy Entry.before covering) }

end ShaderLink
