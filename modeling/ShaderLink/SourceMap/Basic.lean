import ShaderLink.Text.Span

/-!
# Source maps

A source map is a text together with the knowledge where its parts come from. Each **entry** relates
a span of the map's text to a span of some source. An entry whose two spans have the same size is a
**copy** and relates them byte by byte; any other is a replacement and relates them only as wholes.

Maps are built from left to right, by `SourceMap.add` for one fragment and `SourceMap.append` for a
whole map, and these keep the entries in step with the text.
-/

namespace ShaderLink

/-- The name of a text that a map can point into. -/
structure SourceId where
  name : String
deriving DecidableEq, Repr, Inhabited

/-- The name of what a pass makes of a text. -/
def SourceId.derived (id : SourceId) (pass : String) : SourceId :=
  ⟨id.name ++ "#" ++ pass⟩

/-- A place in a named text. -/
structure Place where
  source : SourceId
  offset : Nat
deriving DecidableEq, Repr

/-- One correspondence between a source and the text of a map. -/
structure Entry where
  source : SourceId
  /-- The span of the source. -/
  origin : Span
  /-- The span of the map's text. -/
  target : Span
deriving DecidableEq, Repr

namespace Entry

/-- Whether the entry relates single bytes. -/
def isCopy (e : Entry) : Bool :=
  e.origin.size == e.target.size

/-- The place that a byte of the target comes from. The bytes of a replacement all come from
`whole`. -/
def placeAt (e : Entry) (offset whole : Nat) : Place :=
  ⟨e.source, if e.isCopy then e.origin.start + (offset - e.target.start) else whole⟩

/-- The same entry for a target `n` bytes further on. -/
def shift (e : Entry) (n : Nat) : Entry :=
  { e with target := e.target.shift n }

end Entry

/-- A text with the origins of its parts. -/
structure SourceMap where
  /-- The name of the text, by which other maps refer to it. -/
  id : SourceId
  text : Text
  entries : List Entry
deriving DecidableEq, Repr

namespace SourceMap

/-- The empty text. -/
def empty (id : SourceId) : SourceMap :=
  ⟨id, [], []⟩

/-- Adds a fragment that stands for a span of a source. -/
def add (m : SourceMap) (fragment : Text) (source : SourceId) (origin : Span) : SourceMap where
  id := m.id
  text := m.text ++ fragment
  entries := m.entries ++ [⟨source, origin, ⟨m.text.size, fragment.size⟩⟩]

/-- Adds a whole map. -/
def append (m n : SourceMap) : SourceMap where
  id := m.id
  text := m.text ++ n.text
  entries := m.entries ++ n.entries.map (Entry.shift · m.text.size)

/-- A text that is a copy of a source. -/
def identity (id source : SourceId) (t : Text) : SourceMap :=
  (empty id).add t source t.span

end SourceMap

end ShaderLink
