import ShaderLink.SourceMap.Basic

/-!
# Coverage

The entries of a map **cover** its text if their targets, in the order in which they stand, follow
one another without gap or overlap from the start of the text to its end. Entries for the empty span
do not count.
-/

namespace ShaderLink

/-- Why a text is not covered. -/
inductive CoverageError where
  /-- No entry covers the bytes from `start` to `stop`. -/
  | gap (start stop : Nat)
  /-- An entry starts at a byte that is covered already. -/
  | overlap (offset : Nat)
  /-- The entries cover more bytes than the text has. -/
  | overrun (covered size : Nat)
deriving DecidableEq, Repr

/-- The error in words. -/
def CoverageError.message : CoverageError → String
  | gap start stop =>
    "destination bytes " ++ toString start ++ ".." ++ toString stop ++
      " are not covered by any entry"
  | overlap offset => "entries overlap at destination byte " ++ toString offset
  | overrun covered size =>
    "entries cover " ++ toString covered ++ " bytes past the destination length " ++ toString size

/-- How far a list of entries covers a text that is covered up to `covered`. -/
def coverFrom (covered : Nat) : List Entry → Except CoverageError Nat
  | [] => .ok covered
  | e :: es =>
    if e.target.isEmpty then coverFrom covered es
    else if covered < e.target.start then .error (.gap covered e.target.start)
    else if e.target.start < covered then .error (.overlap e.target.start)
    else coverFrom e.target.stop es

/-- Checks that the entries cover the text. -/
def SourceMap.coverage (m : SourceMap) : Except CoverageError Unit := do
  let covered ← coverFrom 0 m.entries
  if covered < m.text.size then
    throw (.gap covered m.text.size)
  else if m.text.size < covered then
    throw (.overrun covered m.text.size)

end ShaderLink
