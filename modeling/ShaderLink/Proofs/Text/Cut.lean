import Mathlib.Order.Nat
import ShaderLink.Text.Span

/-!
# Cuts and stretches of a text

An offset is a **boundary** of a text if the text can be cut there, and a span **fits** a text if it
covers something and can be cut out. Both are stated by the parts of the text around them, and these
parts determine slices (`Text.slice?_eq_some_iff`).

Most facts about spans here are about several of them that stand in a text one behind the other,
which is `Text.Ascending`. The relation composes like the paths it describes: what ascends up to an
offset and what ascends from there on ascends together.

Offsets count bytes, so what stands at an offset is a byte. `Text.bytes` is the view of a text in
which a place of one text can be compared with a place of another: it turns putting texts together
into putting lists together, and cutting a text at boundaries into taking and dropping.
-/

namespace ShaderLink

namespace Text

/-- Every character takes at least one byte. -/
theorem length_le_size (t : Text) : t.length ≤ t.size := by
  induction t with
  | nil => exact Nat.le_refl 0
  | cons c t ih =>
    have hpos := c.utf8Size_pos
    rw [List.length_cons, size_cons]
    omega

/-! ### Boundaries -/

/-- The offset lies between two characters, or at one of the ends. -/
def IsBoundary (t : Text) (n : Nat) : Prop :=
  ∃ before after, t = before ++ after ∧ before.size = n

theorem isBoundary_zero (t : Text) : t.IsBoundary 0 :=
  ⟨[], t, rfl, rfl⟩

theorem isBoundary_size (t : Text) : t.IsBoundary t.size :=
  ⟨t, [], by simp, rfl⟩

theorem IsBoundary.le_size {t : Text} {n : Nat} (h : t.IsBoundary n) : n ≤ t.size := by
  obtain ⟨before, after, rfl, rfl⟩ := h
  simp

/-- An offset is a boundary if the text can be cut there. -/
theorem isBoundary_iff {t : Text} {n : Nat} :
    t.IsBoundary n ↔ (t.splitAt? n).isSome = true := by
  constructor
  · rintro ⟨before, after, rfl, rfl⟩
    rw [splitAt?_append]
    rfl
  · intro h
    obtain ⟨p, hp⟩ := Option.isSome_iff_exists.1 h
    exact ⟨p.1, p.2, eq_append_of_splitAt? hp⟩

instance (t : Text) (n : Nat) : Decidable (t.IsBoundary n) :=
  decidable_of_iff _ isBoundary_iff.symm

/-- A cut that is not in front of another is a cut of what is behind that one. -/
theorem IsBoundary.exists_cut {front rest : Text} {n : Nat} (h : (front ++ rest).IsBoundary n)
    (hle : front.size ≤ n) :
    ∃ inside behind, rest = inside ++ behind ∧ front.size + inside.size = n := by
  obtain ⟨before, after, hcut, rfl⟩ := h
  rcases List.append_eq_append_iff.1 hcut with ⟨inside, rfl, rfl⟩ | ⟨extra, rfl, rfl⟩
  · exact ⟨inside, after, rfl, by rw [size_append]⟩
  · rw [size_append] at hle
    obtain rfl : extra = [] := size_eq_zero_iff.1 (by omega)
    exact ⟨[], rest, rfl, by simp⟩

/-- What lies between two boundaries. -/
theorem exists_between {t : Text} {n m : Nat} (hn : t.IsBoundary n) (hm : t.IsBoundary m)
    (hle : n ≤ m) :
    ∃ before inside behind, t = before ++ inside ++ behind ∧ before.size = n ∧
      inside.size = m - n := by
  obtain ⟨before, after, rfl, rfl⟩ := hn
  obtain ⟨inside, behind, rfl, hsize⟩ := hm.exists_cut hle
  exact ⟨before, inside, behind, by simp, rfl, by omega⟩

/-! ### Slices -/

/-- A slice is what stands between two parts of the text of the right sizes. -/
theorem slice?_eq_some_iff {t inside : Text} {s : Span} :
    t.slice? s = some inside ↔
      ∃ before behind, t = before ++ inside ++ behind ∧ before.size = s.start ∧
        inside.size = s.size := by
  constructor
  · intro h
    simp only [slice?, Option.bind_eq_bind, Option.pure_def, Option.bind_eq_some_iff] at h
    obtain ⟨p, hp, q, hq, hin⟩ := h
    obtain rfl := Option.some.inj hin
    obtain ⟨ht, hstart⟩ := eq_append_of_splitAt? hp
    obtain ⟨hrest, hsize⟩ := eq_append_of_splitAt? hq
    exact ⟨p.1, q.2, by rw [ht, hrest, List.append_assoc], hstart, hsize⟩
  · rintro ⟨before, behind, rfl, hstart, hsize⟩
    obtain rfl : s = ⟨before.size, inside.size⟩ := by rw [hstart, hsize]
    exact slice?_append before inside behind

/-- There is a slice between any two boundaries. -/
theorem exists_slice? {t : Text} {s : Span} (hstart : t.IsBoundary s.start)
    (hstop : t.IsBoundary s.stop) : ∃ inside, t.slice? s = some inside := by
  obtain ⟨before, inside, behind, ht, hb, hi⟩ :=
    exists_between hstart hstop (by simp only [Span.stop]; omega)
  have hsize : inside.size = s.size := by
    simp only [Span.stop] at hi
    omega
  exact ⟨inside, slice?_eq_some_iff.2 ⟨before, behind, ht, hb, hsize⟩⟩

theorem slice?_span (t : Text) : t.slice? t.span = some t :=
  slice?_eq_some_iff.2 ⟨[], [], by simp, rfl, rfl⟩

/-! ### Spans that fit -/

/-- The span covers something, and both its ends are boundaries. -/
structure Fits (t : Text) (s : Span) : Prop where
  start : t.IsBoundary s.start
  stop : t.IsBoundary s.stop
  size_pos : 0 < s.size

theorem Fits.start_lt_stop {t : Text} {s : Span} (h : t.Fits s) : s.start < s.stop := by
  have := h.size_pos
  simp only [Span.stop]
  omega

theorem Fits.exists_slice? {t : Text} {s : Span} (h : t.Fits s) :
    ∃ inside, t.slice? s = some inside :=
  Text.exists_slice? h.start h.stop

/-! ### Ascending spans -/

/-- The spans fit the text and stand one behind the other between the offsets `lo` and `hi`. -/
structure Ascending (t : Text) (lo : Nat) (spans : List Span) (hi : Nat) : Prop where
  le : lo ≤ hi
  fits : ∀ s ∈ spans, t.Fits s
  inside : ∀ s ∈ spans, lo ≤ s.start ∧ s.stop ≤ hi
  ordered : spans.Pairwise fun s s' ↦ s.stop ≤ s'.start

namespace Ascending

variable {t : Text} {lo mid hi : Nat} {xs ys : List Span}

theorem nil (h : lo ≤ hi) : t.Ascending lo [] hi :=
  ⟨h, by simp, by simp, .nil⟩

theorem singleton {s : Span} (h : t.Fits s) : t.Ascending s.start [s] s.stop :=
  ⟨h.start_lt_stop.le, by simpa using h, by simp, List.pairwise_singleton _ _⟩

theorem append (hx : t.Ascending lo xs mid) (hy : t.Ascending mid ys hi) :
    t.Ascending lo (xs ++ ys) hi where
  le := hx.le.trans hy.le
  fits s hs := (List.mem_append.1 hs).elim (hx.fits s) (hy.fits s)
  inside s hs := by
    rcases List.mem_append.1 hs with hs | hs
    · exact ⟨(hx.inside s hs).1, (hx.inside s hs).2.trans hy.le⟩
    · exact ⟨hx.le.trans (hy.inside s hs).1, (hy.inside s hs).2⟩
  ordered := List.pairwise_append.2 ⟨hx.ordered, hy.ordered, fun a ha b hb ↦
    (hx.inside a ha).2.trans (hy.inside b hb).1⟩

/-- Fewer spans ascend as well. -/
theorem sublist (h : t.Ascending lo ys hi) (hsub : xs.Sublist ys) : t.Ascending lo xs hi :=
  ⟨h.le, fun s hs ↦ h.fits s (hsub.subset hs), fun s hs ↦ h.inside s (hsub.subset hs),
    h.ordered.sublist hsub⟩

/-- The offsets around ascending spans can be moved apart. -/
theorem weaken {lo' hi' : Nat} (h : t.Ascending lo xs hi) (hlo : lo' ≤ lo) (hhi : hi ≤ hi') :
    t.Ascending lo' xs hi' :=
  ⟨hlo.trans (h.le.trans hhi), h.fits, fun s hs ↦
    ⟨hlo.trans (h.inside s hs).1, (h.inside s hs).2.trans hhi⟩, h.ordered⟩

/-- The first of ascending spans can be told apart from the others. -/
theorem uncons {s : Span} (h : t.Ascending lo (s :: xs) hi) :
    t.Ascending lo [s] s.stop ∧ t.Ascending s.stop xs hi := by
  have hs : s ∈ s :: xs := List.mem_cons_self
  obtain ⟨hfirst, hrest⟩ := List.pairwise_cons.1 h.ordered
  refine ⟨(singleton (h.fits s hs)).weaken (h.inside s hs).1 le_rfl, (h.inside s hs).2,
    fun s' hs' ↦ h.fits s' (List.mem_cons_of_mem s hs'), fun s' hs' ↦ ⟨hfirst s' hs', ?_⟩, hrest⟩
  exact (h.inside s' (List.mem_cons_of_mem s hs')).2

/-- Where one part of ascending spans ends, the other can begin. -/
theorem split (h : t.Ascending lo (xs ++ ys) hi) :
    ∃ mid, t.Ascending lo xs mid ∧ t.Ascending mid ys hi := by
  induction xs generalizing lo with
  | nil => exact ⟨lo, .nil le_rfl, h⟩
  | cons s xs ih =>
    obtain ⟨hfirst, hrest⟩ := h.uncons
    obtain ⟨mid, hxs, hys⟩ := ih hrest
    exact ⟨mid, hfirst.append hxs, hys⟩

/-- The first of ascending spans and any of them are the ends of one span. -/
theorem merge {s last : Span} (h : t.Ascending lo (s :: xs) hi) (hlast : last ∈ s :: xs) :
    t.Ascending lo [Span.between s.start last.stop] hi := by
  have hs : s ∈ s :: xs := List.mem_cons_self
  have hlt : s.start < last.stop := by
    rcases List.mem_cons.1 hlast with rfl | hmem
    · exact (h.fits _ hs).start_lt_stop
    · have hstop := (List.pairwise_cons.1 h.ordered).1 last hmem
      have hfirst := (h.fits s hs).start_lt_stop
      have hnext := (h.fits last hlast).start_lt_stop
      omega
  have hfits : t.Fits (Span.between s.start last.stop) :=
    ⟨(h.fits s hs).start, by rw [Span.stop_between hlt.le]; exact (h.fits last hlast).stop, by
      rw [Span.size_between]; omega⟩
  refine (singleton hfits).weaken (h.inside s hs).1 ?_
  rw [Span.stop_between hlt.le]
  exact (h.inside last hlast).2

/-- A span in front of another can be drawn out to the start of it. -/
theorem extend {s s' : Span} (h : t.Ascending lo [s] mid) (h' : t.Ascending mid [s'] hi) :
    t.Ascending lo [Span.between s.start s'.start, s'] hi := by
  have hs := h.fits s (List.mem_singleton_self s)
  have hs' := h'.fits s' (List.mem_singleton_self s')
  have hin := h.inside s (List.mem_singleton_self s)
  have hin' := h'.inside s' (List.mem_singleton_self s')
  have hlt : s.start < s'.start := by
    have := hs.start_lt_stop
    omega
  have hstop : (Span.between s.start s'.start).stop = s'.start := Span.stop_between hlt.le
  have hfits : t.Fits (Span.between s.start s'.start) :=
    ⟨hs.start, by rw [hstop]; exact hs'.start, by rw [Span.size_between]; omega⟩
  have hfront := (singleton hfits).append ((singleton hs').weaken hstop.le hin'.2)
  exact hfront.weaken hin.1 le_rfl

/-- What ascends from `lo` to `hi` around a stretch of spans is covered by one span from `lo` to
`hi`. -/
theorem cover (h : t.Ascending lo xs hi) (hne : xs ≠ []) (hlo : t.IsBoundary lo)
    (hhi : t.IsBoundary hi) : t.Fits (Span.between lo hi) where
  start := hlo
  stop := by rwa [Span.stop_between h.le]
  size_pos := by
    obtain ⟨s, hs⟩ := List.exists_mem_of_ne_nil xs hne
    have hin := h.inside s hs
    have hlt := (h.fits s hs).start_lt_stop
    rw [Span.size_between]
    omega

end Ascending

/-! ### Bytes -/

/-- A text in UTF-8, byte by byte. -/
def bytes (t : Text) : List UInt8 :=
  t.flatMap String.utf8EncodeChar

@[simp] theorem bytes_nil : bytes [] = [] := rfl

@[simp] theorem bytes_cons (c : Char) (t : Text) :
    bytes (c :: t) = String.utf8EncodeChar c ++ bytes t := by
  simp [bytes]

@[simp] theorem bytes_append (s t : Text) : bytes (s ++ t) = bytes s ++ bytes t := by
  simp [bytes]

@[simp] theorem length_bytes (t : Text) : t.bytes.length = t.size := by
  induction t with
  | nil => rfl
  | cons c t ih => simp [ih]

/-- The bytes of a slice are those of the span. -/
theorem bytes_of_slice? {t inside : Text} {s : Span} (h : t.slice? s = some inside) :
    inside.bytes = (t.bytes.drop s.start).take s.size := by
  obtain ⟨before, behind, rfl, hstart, hsize⟩ := slice?_eq_some_iff.1 h
  rw [List.append_assoc, bytes_append, bytes_append,
    List.drop_left' (by rw [length_bytes, hstart]), List.take_left' (by rw [length_bytes, hsize])]

end Text

end ShaderLink
