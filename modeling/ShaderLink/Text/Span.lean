import ShaderLink.Text.Basic

/-!
# Spans

A span is a stretch of a text, given by the byte it starts at and the number of bytes it covers.
With the length stored and the end computed, no span can end before it starts, so nothing that
uses spans has to rule that out.
-/

namespace ShaderLink

/-- A stretch of `size` bytes that starts at byte `start`. -/
structure Span where
  start : Nat
  size : Nat
deriving DecidableEq, Repr, Inhabited

namespace Span

/-- The first byte behind the span. -/
def stop (s : Span) : Nat :=
  s.start + s.size

/-- The span that starts at `start` and ends at `stop`. -/
def between (start stop : Nat) : Span :=
  ⟨start, stop - start⟩

/-- Whether a span covers no byte. -/
def isEmpty (s : Span) : Bool :=
  s.size == 0

/-- Whether `s` covers every byte of `t`, the borders included for an empty `t`. -/
def contains (s t : Span) : Bool :=
  s.start ≤ t.start && t.stop ≤ s.stop

/-- The order of spans: the earlier start first, of two equal starts the earlier end. -/
def order (s t : Span) : Ordering :=
  (compare s.start t.start).then (compare s.stop t.stop)

/-- The same span, `n` bytes further on. -/
def shift (s : Span) (n : Nat) : Span :=
  ⟨s.start + n, s.size⟩

@[simp] theorem start_between (a b : Nat) : (between a b).start = a := rfl

@[simp] theorem size_between (a b : Nat) : (between a b).size = b - a := rfl

@[simp] theorem stop_between {a b : Nat} (h : a ≤ b) : (between a b).stop = b := by
  simp only [stop, between]
  omega

@[simp] theorem between_start_stop (s : Span) : between s.start s.stop = s := by
  simp [between, stop]

@[simp] theorem start_shift (s : Span) (n : Nat) : (s.shift n).start = s.start + n := rfl

@[simp] theorem stop_shift (s : Span) (n : Nat) : (s.shift n).stop = s.stop + n := by
  simp only [stop, shift]
  omega

end Span

namespace Text

/-- The whole of a text. -/
def span (t : Text) : Span :=
  ⟨0, t.size⟩

/-- The characters in a span, if it starts and ends between characters of the text. -/
def slice? (t : Text) (s : Span) : Option Text := do
  let (_, rest) ← splitAt? t s.start
  let (inside, _) ← splitAt? rest s.size
  return inside

/-- A slice is what stands between the two parts of the text around it. -/
theorem slice?_append (before inside behind : Text) :
    slice? (before ++ inside ++ behind) ⟨size before, size inside⟩ = some inside := by
  simp [slice?, List.append_assoc]

/-- A slice has the size of its span. -/
theorem size_of_slice? {t : Text} {s : Span} {inside : Text} (h : t.slice? s = some inside) :
    inside.size = s.size := by
  simp only [slice?, Option.bind_eq_bind, Option.pure_def, Option.bind_eq_some_iff] at h
  obtain ⟨p, -, q, hq, hin⟩ := h
  obtain rfl := Option.some.inj hin
  exact (eq_append_of_splitAt? hq).2

end Text

end ShaderLink
