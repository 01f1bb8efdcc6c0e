import ShaderLink.Fault
import ShaderLink.Grammar.Error
import ShaderLink.SourceMap.Compact

/-!
# Splices

A splice puts a text in the place of a span. Splicing a text with several of them gives the new text
together with the map back. Their order does not matter, but two splices must not replace the same
byte; only where two insert at one place does the first of them come first.

A table of words is applied to a text by splices. The text is read as shader code is: only whole
words are replaced, nothing inside comments or numbers is, and neither is the name of a member
behind a dot.
-/

namespace ShaderLink

/-- A text to be put in the place of a span. An empty span inserts, an empty text deletes. -/
structure Splice where
  span : Span
  text : Text
deriving DecidableEq, Repr

/-- Adds a copy of a span of a source. -/
def SourceMap.addCopy (m : SourceMap) (t : Text) (source : SourceId) (span : Span) :
    Except Fault SourceMap :=
  match t.slice? span with
  | some fragment => .ok (m.add fragment source span)
  | none => .error .badSpan

namespace Splice

/-- The order of splices: by the start of their spans, then by their ends. -/
def before (s s' : Splice) : Bool :=
  (s.span.order s'.span).isLE

/-- Adds to a map the text between two offsets of a source, with splices in order. -/
def addSpliced (m : SourceMap) (t : Text) (source : SourceId) (start stop : Nat) :
    List Splice → Except Fault SourceMap
  | [] => m.addCopy t source (Span.between start stop)
  | s :: ss =>
    if s.span.start < start then
      .error (.overlap s.span)
    else do
      let m ← m.addCopy t source (Span.between start s.span.start)
      addSpliced (m.add s.text source s.span) t source s.span.stop stop ss

/-- The part of a text that the bounds leave, all of it without bounds, with splices applied.
Splices that are not inside the bounds are left out. -/
def applyAll (t : Text) (source : SourceId) (splices : List Splice) (bounds : Option Span) :
    Except Fault SourceMap := do
  let bounds := bounds.getD t.span
  let inside := splices.filter fun s ↦ bounds.contains s.span
  let m ← addSpliced (.empty (source.derived "sliced")) t source bounds.start bounds.stop
    (sortBy before inside)
  return m.compact

end Splice

/-! ### Replacing words -/

/-- The splices that a table of words means for tokens, of which the first may stand behind a
dot. -/
def wordSplices (table : String → Option Text) (behindDot : Bool) : List Token → List Splice
  | [] => []
  | t :: ts =>
    let rest := wordSplices table (t.kind == .symbol && t.text == ".") ts
    match if t.kind == .word && !behindDot then table t.text else none with
    | some replacement => ⟨t.span, replacement⟩ :: rest
    | none => rest

/-- Replaces the words of a text. A text that has no tokens, because one of them is broken, is left
as it is. -/
def replaceWords (table : String → Option Text) (t : Text) (source : SourceId) :
    Except Fault SourceMap :=
  let tokens := match tokenize t with
    | .ok tokens => tokens
    | .error _ => []
  Splice.applyAll t source (wordSplices table false tokens) none

end ShaderLink
