import ShaderLink.Text.Identifier
import ShaderLink.Grammar.Note

/-!
# Lexical rules

A lexical rule looks at the start of a text and splits off a lexeme of its sort if one stands there.
Most rules either match or do not. Two of them can also be **broken**: once a block comment has been
opened or the exponent of a hexadecimal number begun, a text that does not finish it has no other
reading.

Block comments nest. `closeComment` follows the nesting by calling itself, once for every comment
opened inside another.
-/

namespace ShaderLink

/-- What a lexical rule finds at the start of a text. -/
inductive Scan where
  /-- A lexeme, and what stands behind it. -/
  | matched (lexeme rest : Text)
  /-- No lexeme of this sort. -/
  | missed
  /-- A lexeme that was begun and cannot be finished. -/
  | broken (notes : List Note)
deriving DecidableEq, Repr

namespace Scan

/-! ### Building blocks -/

/-- The first rule unless it finds nothing, then the second. -/
def orElse (first second : Scan) : Scan :=
  match first with
  | missed => second
  | found => found

/-- One character of a class. -/
def one (p : Char → Bool) : Text → Scan
  | c :: t => if p c then matched [c] t else missed
  | [] => missed

/-- A nonempty run of characters of a class. -/
def run (p : Char → Bool) : Text → Scan
  | c :: t => if p c then matched (c :: t.takeWhile p) (t.dropWhile p) else missed
  | [] => missed

/-- A fixed lexeme. -/
def literal (lexeme : String) (t : Text) : Scan :=
  match t.dropPrefix? lexeme with
  | some rest => matched lexeme.toList rest
  | none => missed

/-- Splits off the characters of a class, which may be none. -/
def splitWhile (p : Char → Bool) (t : Text) : Text × Text :=
  (t.takeWhile p, t.dropWhile p)

/-- Splits off one of the given characters, if one stands in front. -/
def splitOne (cs : List Char) : Text → Text × Text
  | c :: t => if c ∈ cs then ([c], t) else ([], c :: t)
  | [] => ([], [])

/-! ### Layout -/

/-- One line break; a carriage return and the line feed behind it count as one. -/
def newLine : Text → Scan
  | '\r' :: '\n' :: t => matched ['\r', '\n'] t
  | t => one isLineBreak t

/-- A line comment, which is `//` and the rest of the line. -/
def lineComment : Text → Scan
  | '/' :: '/' :: t =>
    let line := splitWhile (fun c ↦ !isLineBreak c) t
    matched ('/' :: '/' :: line.1) line.2
  | _ => missed

/-- Splits an open block comment behind the place where it is closed. -/
def closeComment : (t : Text) → Option { p : Text × Text // p.2.length < t.length }
  | [] => none
  | '*' :: '/' :: t => some ⟨(['*', '/'], t), by simp only [List.length_cons]; omega⟩
  | '/' :: '*' :: t =>
    match closeComment t with
    | none => none
    | some ⟨(inside, t₁), hlt⟩ =>
      have : t₁.length < t.length := hlt
      match closeComment t₁ with
      | none => none
      | some ⟨(outside, rest), _⟩ =>
        some ⟨('/' :: '*' :: (inside ++ outside), rest), by
          simp only [List.length_cons] at *
          omega⟩
  | c :: t =>
    match closeComment t with
    | none => none
    | some ⟨(body, rest), _⟩ =>
      some ⟨(c :: body, rest), by
        simp only [List.length_cons] at *
        omega⟩
termination_by t => t.length

/-- A block comment with all comments inside it. -/
def blockComment : Text → Scan
  | '/' :: '*' :: t =>
    match closeComment t with
    | some p => matched ('/' :: '*' :: p.1.1) p.1.2
    | none => broken [.invalid .blockComment]
  | _ => missed

/-! ### Identifiers -/

/-- An identifier: an underscore with more behind it, or a character that starts identifiers and
whatever continues it. -/
def identifier : Text → Scan
  | c :: t =>
    let more := splitWhile isIdentifierRest t
    if c = '_' then if more.1.isEmpty then missed else matched (c :: more.1) more.2
    else if isIdentifierStart c then matched (c :: more.1) more.2
    else missed
  | [] => missed

/-! ### Numbers -/

/-- Whether a character is a hexadecimal digit. -/
def isHexDigit (c : Char) : Bool :=
  c.isDigit || ('a' ≤ c && c ≤ 'f') || ('A' ≤ c && c ≤ 'F')

/-- Splits off an exponent: one of the given letters, a sign if there is one, and digits. -/
def exponent? (letters : List Char) : Text → Option (Text × Text)
  | c :: t =>
    let sign := splitOne ['+', '-'] t
    let digits := splitWhile Char.isDigit sign.2
    if c ∈ letters ∧ digits.1 ≠ [] then some (c :: (sign.1 ++ digits.1), digits.2) else none
  | [] => none

/-- Splits off the digits, exponent and suffix behind the point of a decimal number, each of which
may be missing. -/
def splitFraction (t : Text) : Text × Text :=
  let digits := splitWhile Char.isDigit t
  let exponent := (exponent? ['e', 'E'] digits.2).getD ([], digits.2)
  let suffix := splitOne ['f', 'h'] exponent.2
  (digits.1 ++ (exponent.1 ++ suffix.1), suffix.2)

/-- A decimal number. A half-written exponent is not part of it. -/
def decimal (t : Text) : Scan :=
  let whole := splitWhile Char.isDigit t
  match whole.2 with
  | '.' :: rest =>
    let fraction := splitFraction rest
    if whole.1.isEmpty ∧ !(rest.head?.any Char.isDigit) then missed
    else matched (whole.1 ++ '.' :: fraction.1) fraction.2
  | rest =>
    if whole.1.isEmpty then missed
    else
      match exponent? ['e', 'E'] rest with
      | some exponent =>
        let suffix := splitOne ['f', 'h'] exponent.2
        matched (whole.1 ++ (exponent.1 ++ suffix.1)) suffix.2
      | none =>
        let suffix := splitOne ['f', 'h', 'i', 'u'] rest
        matched (whole.1 ++ suffix.1) suffix.2

/-- A hexadecimal number of which `read` has been read and only an exponent may follow. The letter
of an exponent without digits breaks the number. -/
def binaryExponent (read : Text) (t : Text) : Scan :=
  match exponent? ['p', 'P'] t with
  | some exponent =>
    let suffix := splitOne ['f', 'h'] exponent.2
    matched (read ++ (exponent.1 ++ suffix.1)) suffix.2
  | none => if t.head?.any (· ∈ ['p', 'P']) then broken [] else matched read t

/-- A hexadecimal number behind its mark, which is `0x` or `0X`. -/
def hexDigits (mark : Text) (t : Text) : Scan :=
  let whole := splitWhile isHexDigit t
  match whole.2 with
  | '.' :: rest =>
    let fraction := splitWhile isHexDigit rest
    if whole.1.isEmpty ∧ fraction.1.isEmpty then missed
    else binaryExponent (mark ++ (whole.1 ++ '.' :: fraction.1)) fraction.2
  | rest =>
    if whole.1.isEmpty then missed
    else if rest.head?.any (· ∈ ['i', 'u']) then
      matched (mark ++ (whole.1 ++ (splitOne ['i', 'u'] rest).1)) (splitOne ['i', 'u'] rest).2
    else binaryExponent (mark ++ whole.1) rest

/-- A hexadecimal number. -/
def hexadecimal : Text → Scan
  | '0' :: 'x' :: t => hexDigits ['0', 'x'] t
  | '0' :: 'X' :: t => hexDigits ['0', 'X'] t
  | _ => missed

/-- A number, hexadecimal if it can be. -/
def number (t : Text) : Scan :=
  (hexadecimal t).orElse (decimal t)

end Scan

end ShaderLink
