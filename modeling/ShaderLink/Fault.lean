import ShaderLink.SourceMap.Coverage

/-!
# Faults

A fault is a demand on a text or a map that makes no sense: to cut a text inside a character, to
replace one stretch twice, to follow a map where it leads nowhere. Faults are no errors of the
shader's author. They end the operation that was asked for them.
-/

namespace ShaderLink

/-- A demand that cannot be met. -/
inductive Fault where
  /-- A span does not start and end between characters of the text. -/
  | badSpan
  /-- A replaced span starts before the end of the one before it. -/
  | overlap (span : Span)
  /-- A map refers to a place of the text `id` that has no origin. -/
  | uncovered (offset : Nat) (id : SourceId)
  /-- The target of a replacement whose start and end come from different sources. -/
  | spread (target : Span)
  /-- A map that was put together does not cover its text. -/
  | incoherent (error : CoverageError)
deriving DecidableEq, Repr

/-- A span in messages. -/
def Span.render (s : Span) : String :=
  "Span \x7b start: " ++ toString s.start ++ ", end: " ++ toString s.stop ++ " \x7d"

/-- The fault in words, unless it is a plain cut at a wrong place. -/
def Fault.message? : Fault → Option String
  | badSpan => none
  | overlap span => some ("slice " ++ span.render ++ " overlaps the previous one")
  | uncovered offset id =>
    some ("source map merge: position " ++ toString offset ++ " of " ++ id.name ++
      " is not covered")
  | spread target =>
    some ("source map merge: replacement " ++ target.render ++ " spans multiple sources")
  | incoherent error => some ("linked source map is inconsistent: " ++ error.message)

end ShaderLink
