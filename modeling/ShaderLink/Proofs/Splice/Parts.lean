import ShaderLink.Proofs.SourceMap.Fragments
import ShaderLink.Proofs.Splice.Order

/-!
# Splicing character by character

What splices should make of a text can be said without putting them in order: at each offset stands
what is inserted there, then the text for the span that starts there, and a character of the text
itself stays unless a span covers it (`Splice.parts`). Applying splices that do not overlap gives
just this, and every byte of it comes from where it should (`Splice.applyAll_spec`). Splices that
overlap cannot be applied.

The proof goes along the splices in order. What stands in front of the first of them is a copy
(`Splice.parts_append`), the first one makes way for its text (`Splice.parts_cons`), and from where
it stops it has no part any more in what is left.
-/

namespace ShaderLink

namespace Splice

variable {s : Splice} {ss : List Splice} {front inside rest t : Text} {n start : Nat}
  {source : SourceId} {m : SourceMap} {fs : List Fragment}

/-! ### The parts of a spliced text -/

/-- A part of a spliced text. -/
inductive Part where
  /-- A character of the text that stays, with its offset. -/
  | kept (offset : Nat) (c : Char)
  /-- The text of a splice. -/
  | put (s : Splice)
deriving DecidableEq, Repr

namespace Part

def text : Part → Text
  | kept _ c => [c]
  | put s => s.text

/-- The byte at an offset of the part comes from `place`. A byte that stays comes from where it was,
and one of a splice from somewhere in the span, or from the start of an empty one. -/
def From (place : Nat) (k : Nat) : Part → Prop
  | kept offset _ => place = offset + k
  | put s => place = s.span.start ∨ s.span.start ≤ place ∧ place < s.span.stop

/-- The part as it is added to a map. -/
def fragment (source : SourceId) : Part → Fragment
  | kept offset c => ⟨[c], source, ⟨offset, c.utf8Size⟩⟩
  | put s => ⟨s.text, source, s.span⟩

theorem text_fragment (source : SourceId) (part : Part) :
    (part.fragment source).text = part.text := by
  cases part <;> rfl

theorem exists_placeAt_fragment (source : SourceId) {part : Part} {k : Nat}
    (h : k < part.text.size) :
    ∃ place, (part.fragment source).placeAt k = ⟨source, place⟩ ∧ part.From place k := by
  cases part with
  | kept offset c => exact ⟨_, rfl, if_pos (Nat.add_zero _).symm⟩
  | put s =>
    have hk : k < s.text.size := h
    by_cases hsize : s.span.size = s.text.size
    · refine ⟨_, congrArg (Place.mk source) (if_pos hsize), .inr ?_⟩
      simp only [fragment, Span.stop]
      omega
    · exact ⟨_, congrArg (Place.mk source) (if_neg hsize), .inl rfl⟩

end Part

/-- What is put at an offset: first the insertions, in the order in which they are given, then what
takes the place of the text from there on. -/
def startingAt (ss : List Splice) (n : Nat) : List Splice :=
  ss.filter (fun s ↦ s.span.start == n && s.span.isEmpty) ++
    ss.filter fun s ↦ s.span.start == n && !s.span.isEmpty

/-- Whether a byte makes way for the text of a splice. -/
def covers (ss : List Splice) (n : Nat) : Bool :=
  ss.any fun s ↦ s.span.start ≤ n && n < s.span.stop

/-- The parts that splices make of a text that starts at an offset. -/
def parts (ss : List Splice) (n : Nat) : Text → List Part
  | [] => (startingAt ss n).map .put
  | c :: rest =>
    (startingAt ss n).map .put ++ (if covers ss n then [] else [.kept n c]) ++
      parts ss (n + c.utf8Size) rest

/-! ### Where splices stand -/

theorem startingAt_cons_of_ne (h : s.span.start ≠ n) :
    startingAt (s :: ss) n = startingAt ss n := by
  simp [startingAt, h]

theorem startingAt_cons_of_isEmpty (h : s.span.start = n) (hsize : s.span.size = 0) :
    startingAt (s :: ss) n = s :: startingAt ss n := by
  simp [startingAt, Span.isEmpty, h, hsize]

theorem startingAt_eq_nil (h : ∀ s ∈ ss, s.span.start ≠ n) : startingAt ss n = [] := by
  rw [startingAt, List.append_eq_nil_iff, List.filter_eq_nil_iff, List.filter_eq_nil_iff]
  constructor <;> intro s hs <;> simp [h s hs]

theorem covers_cons_of_not (h : ¬(s.span.start ≤ n ∧ n < s.span.stop)) :
    covers (s :: ss) n = covers ss n := by
  simpa [covers] using fun h' h'' ↦ absurd ⟨h', h''⟩ h

theorem covers_cons_of (h : s.span.start ≤ n) (h' : n < s.span.stop) :
    covers (s :: ss) n = true := by
  simp [covers, h, h']

theorem covers_eq_false (h : ∀ s ∈ ss, n < s.span.start) : covers ss n = false := by
  refine List.any_eq_false.2 fun s hs ↦ ?_
  simp [Nat.not_le.2 (h s hs)]

/-! ### Parts in the order of the text -/

theorem parts_of_startingAt_eq_nil (c : Char) (h : startingAt ss n = []) :
    parts ss n (c :: rest) =
      (if covers ss n then [] else [.kept n c]) ++ parts ss (n + c.utf8Size) rest := by
  rw [parts, h]
  rfl

/-- In front of all splices the text stays. -/
theorem parts_append (h : ∀ s ∈ ss, n + front.size ≤ s.span.start) :
    parts ss n (front ++ rest) = parts [] n front ++ parts ss (n + front.size) rest := by
  induction front generalizing n with
  | nil => rfl
  | cons c front ih =>
    have hfirst : ∀ s ∈ ss, n < s.span.start := fun s hs ↦ by
      have hle := h s hs
      have hpos := c.utf8Size_pos
      rw [Text.size_cons] at hle
      omega
    have hnil : startingAt ss n = [] := startingAt_eq_nil fun s hs ↦ (hfirst s hs).ne'
    rw [List.cons_append, parts_of_startingAt_eq_nil c hnil, covers_eq_false hfirst,
      ih fun s hs ↦ by rw [Nat.add_assoc]; exact h s hs, Text.size_cons, Nat.add_assoc]
    rfl

/-- Behind a splice it has no part any more. -/
theorem parts_cons_of_stop_le (hstart : s.span.start < n) (hstop : s.span.stop ≤ n) :
    parts (s :: ss) n rest = parts ss n rest := by
  induction rest generalizing n with
  | nil => rw [parts, parts, startingAt_cons_of_ne hstart.ne]
  | cons c rest ih =>
    rw [parts, parts, startingAt_cons_of_ne hstart.ne, covers_cons_of_not (by omega),
      ih (by omega) (by omega)]

/-- What a splice covers makes way. -/
theorem parts_cons_of_covers (hstart : s.span.start < n) (hstop : n + inside.size = s.span.stop)
    (hbehind : ∀ s' ∈ ss, s.span.stop ≤ s'.span.start) :
    parts (s :: ss) n (inside ++ rest) = parts ss s.span.stop rest := by
  induction inside generalizing n with
  | nil =>
    obtain rfl : n = s.span.stop := hstop
    exact parts_cons_of_stop_le hstart le_rfl
  | cons c inside ih =>
    have hpos := c.utf8Size_pos
    rw [Text.size_cons] at hstop
    have hnil : startingAt (s :: ss) n = [] := startingAt_eq_nil fun s' hs' ↦ by
      rcases List.mem_cons.1 hs' with rfl | hs'
      · exact hstart.ne
      · have hle := hbehind s' hs'
        omega
    rw [List.cons_append, parts_of_startingAt_eq_nil c hnil, covers_cons_of hstart.le (by omega),
      ih (by omega) (by omega)]
    rfl

/-- What is inserted at the start comes first. -/
theorem parts_cons_of_isEmpty (hstart : s.span.start = n) (hsize : s.span.size = 0) :
    parts (s :: ss) n rest = .put s :: parts ss n rest := by
  cases rest with
  | nil =>
    rw [parts, startingAt_cons_of_isEmpty hstart hsize]
    rfl
  | cons c rest =>
    have hpos := c.utf8Size_pos
    have hstop : s.span.stop = n := by rw [Span.stop, hstart, hsize, Nat.add_zero]
    rw [parts, parts, startingAt_cons_of_isEmpty hstart hsize, covers_cons_of_not (by omega),
      parts_cons_of_stop_le (by omega) (by omega)]
    rfl

/-- The first splice puts its text in the place of its span. -/
theorem parts_cons (hfront : n + front.size = s.span.start) (hinside : inside.size = s.span.size)
    (hbehind : ∀ s' ∈ ss, s.span.stop ≤ s'.span.start) :
    parts (s :: ss) n (front ++ (inside ++ rest)) =
      parts [] n front ++ .put s :: parts ss s.span.stop rest := by
  have hle : ∀ s' ∈ s :: ss, n + front.size ≤ s'.span.start := by
    refine List.forall_mem_cons.2 ⟨hfront.le, fun s' hs' ↦ ?_⟩
    have hlater := hbehind s' hs'
    simp only [Span.stop] at hlater
    omega
  rw [parts_append hle, hfront]
  congr 1
  -- an insertion takes no text, and a replacement takes some and hides nothing behind it
  cases inside with
  | nil =>
    have hsize : s.span.size = 0 := hinside.symm
    have hstop : s.span.stop = s.span.start := by rw [Span.stop, hsize, Nat.add_zero]
    rw [List.nil_append, parts_cons_of_isEmpty rfl hsize, hstop]
  | cons c inside =>
    have hpos := c.utf8Size_pos
    rw [Text.size_cons] at hinside
    have hlt : s.span.start < s.span.stop := by
      simp only [Span.stop]
      omega
    have hone : startingAt (s :: ss) s.span.start = [s] := by
      have hnil : startingAt ss s.span.start = [] := startingAt_eq_nil fun s' hs' ↦
        (hlt.trans_le (hbehind s' hs')).ne'
      rw [startingAt, List.append_eq_nil_iff] at hnil
      have hne : s.span.isEmpty = false := by
        simp only [Span.isEmpty, beq_eq_false_iff_ne]
        omega
      simp [startingAt, hne, hnil.1, hnil.2]
    rw [List.cons_append, parts, hone, covers_cons_of le_rfl hlt,
      parts_cons_of_covers (by omega) (by simp only [Span.stop]; omega) hbehind]
    rfl

/-- Splices that lie apart make the same parts in the order of their spans. -/
theorem parts_sortBy (h : ss.Pairwise fun s s' ↦ s.span.Apart s'.span) (n : Nat) (t : Text) :
    parts (sortBy before ss) n t = parts ss n t := by
  have hstarting (n : Nat) : startingAt (sortBy before ss) n = startingAt ss n := by
    rw [startingAt, filter_sortBy, filter_sortBy, startingAt]
    · -- only one of them can replace the text from there on
      refine h.imp fun {s s'} hapart hs hs' ↦ ?_
      simp only [Span.isEmpty, Bool.and_eq_true, beq_iff_eq, Bool.not_eq_true',
        beq_eq_false_iff_ne] at hs hs'
      simp only [Span.Apart, Span.stop] at hapart
      omega
    · refine List.pairwise_of_forall fun s s' hs hs' ↦ ?_
      simp only [Span.isEmpty, Bool.and_eq_true, beq_iff_eq] at hs hs'
      simp only [before_iff, Span.stop]
      omega
  have hcovers (n : Nat) : covers (sortBy before ss) n = covers ss n :=
    (sortBy_perm before ss).any_eq
  induction t generalizing n with
  | nil => rw [parts, parts, hstarting]
  | cons c t ih => rw [parts, parts, hstarting, hcovers, ih]

/-! ### Applying splices -/

/-- A byte of a text that stays comes from where it was. -/
theorem gives_parts_nil (source : SourceId) {k : Nat} (h : k < t.size) :
    Fragment.Gives ((parts [] n t).map (Part.fragment source)) k ⟨source, n + k⟩ := by
  induction t generalizing n k with
  | nil => exact absurd h (Nat.not_lt_zero k)
  | cons c t ih =>
    have hcons : (parts [] n (c :: t)).map (Part.fragment source) =
        [⟨[c], source, ⟨n, c.utf8Size⟩⟩] ++
          (parts [] (n + c.utf8Size) t).map (Part.fragment source) := rfl
    rw [hcons]
    by_cases hk : k < c.utf8Size
    · refine ⟨[], ⟨[c], source, ⟨n, c.utf8Size⟩⟩, _, rfl, Nat.zero_le k, ?_, ?_⟩
      · simpa [Fragment.join] using hk
      · exact congrArg (Place.mk source) (if_pos (Nat.add_zero _).symm).symm
    · obtain ⟨j, rfl⟩ := Nat.exists_eq_add_of_le (Nat.le_of_not_lt hk)
      have hgives := ih (n := n + c.utf8Size) (k := j) (by rw [Text.size_cons] at h; omega)
      rw [Nat.add_assoc] at hgives
      simpa using hgives.append_left [⟨[c], source, ⟨n, c.utf8Size⟩⟩]

theorem join_parts_nil (source : SourceId) (n : Nat) (t : Text) :
    Fragment.join ((parts [] n t).map (Part.fragment source)) = t := by
  induction t generalizing n with
  | nil => rfl
  | cons c t ih => exact congrArg (c :: ·) (ih (n + c.utf8Size))

/-- A copy is as good as one for each character. -/
theorem refines_add_copy (hm : m.Refines fs) (source : SourceId) (n : Nat) (t : Text) :
    (m.add t source ⟨n, t.size⟩).Refines (fs ++ (parts [] n t).map (Part.fragment source)) := by
  rw [SourceMap.add_eq_append m ⟨t, source, ⟨n, t.size⟩⟩]
  have hcopy := SourceMap.refines_singleton m.id ⟨t, source, ⟨n, t.size⟩⟩
  refine hm.append ⟨hcopy.tiled, (join_parts_nil source n t).symm, fun k hk ↦ ?_⟩
  have hk : k < t.size := hk
  refine ⟨_, ?_, gives_parts_nil source hk⟩
  rw [hcopy.tiled.origin?_eq (List.mem_singleton_self _) (Nat.zero_le k)
    (by simpa [Span.stop, SourceMap.empty] using hk)]
  simp [Entry.placeAt, Entry.isCopy, SourceMap.empty]

/-- The splices can be applied to a text between two offsets in the order in which they stand. -/
structure Ready (t : Text) (lo : Nat) (ss : List Splice) (hi : Nat) : Prop where
  le : lo ≤ hi
  boundary : ∀ s ∈ ss, t.IsBoundary s.span.start ∧ t.IsBoundary s.span.stop
  inside : ∀ s ∈ ss, lo ≤ s.span.start ∧ s.span.stop ≤ hi
  ordered : ss.Pairwise fun s s' ↦ s.span.stop ≤ s'.span.start

theorem Ready.tail {lo hi : Nat} (h : Ready t lo (s :: ss) hi) : Ready t s.span.stop ss hi where
  le := (h.inside s List.mem_cons_self).2
  boundary s' hs' := h.boundary s' (List.mem_cons_of_mem s hs')
  inside s' hs' := ⟨(List.pairwise_cons.1 h.ordered).1 s' hs',
    (h.inside s' (List.mem_cons_of_mem s hs')).2⟩
  ordered := (List.pairwise_cons.1 h.ordered).2

/-- Applying splices adds their parts. -/
theorem exists_addSpliced_parts {stop : Nat} (source : SourceId) (hm : m.Refines fs)
    (hready : Ready (front ++ rest) front.size ss stop)
    (hstop : (front ++ rest).IsBoundary stop) :
    ∃ old behind m', rest = old ++ behind ∧ front.size + old.size = stop ∧
      addSpliced m (front ++ rest) source front.size stop ss = .ok m' ∧
      m'.Refines (fs ++ (parts ss front.size old).map (Part.fragment source)) := by
  induction ss generalizing front rest m fs with
  | nil =>
    obtain ⟨old, behind, rfl, hsize⟩ := hstop.exists_cut hready.le
    refine ⟨old, behind, _, rfl, hsize, ?_, refines_add_copy hm source front.size old⟩
    have hspan : Span.between front.size stop = ⟨front.size, old.size⟩ := by
      rw [← hsize, Span.between, Nat.add_sub_cancel_left]
    rw [addSpliced, SourceMap.addCopy, hspan, ← List.append_assoc, Text.slice?_append]
  | cons s ss ih =>
    obtain ⟨hfrom, hto⟩ := hready.boundary s List.mem_cons_self
    have hlo := (hready.inside s List.mem_cons_self).1
    -- cut off what stands in front of the splice, and what it replaces
    obtain ⟨gap, rest, rfl, hgap⟩ := hfrom.exists_cut hlo
    have hle : (front ++ gap).size ≤ s.span.stop := by
      rw [Text.size_append, hgap]
      exact Nat.le_add_right _ _
    rw [← List.append_assoc] at hto
    obtain ⟨old, rest, rfl, hold⟩ := hto.exists_cut hle
    have hsize : (front ++ gap ++ old).size = s.span.stop := by rw [Text.size_append, hold]
    have htext : front ++ (gap ++ (old ++ rest)) = (front ++ gap ++ old) ++ rest := by simp
    have hcopy : m.addCopy (front ++ (gap ++ (old ++ rest))) source
        (Span.between front.size s.span.start) =
          .ok (m.add gap source ⟨front.size, gap.size⟩) := by
      have hspan : Span.between front.size s.span.start = ⟨front.size, gap.size⟩ := by
        rw [← hgap, Span.between, Nat.add_sub_cancel_left]
      rw [SourceMap.addCopy, hspan, ← List.append_assoc, Text.slice?_append]
    have hadded := (refines_add_copy hm source front.size gap).add (Part.fragment source (.put s))
    have htail := hready.tail
    rw [htext, ← hsize] at htail
    rw [htext] at hstop
    obtain ⟨behind, back, m', rfl, hbehind, hm', hrefines⟩ := ih hadded htail hstop
    refine ⟨gap ++ (old ++ behind), back, m', by simp, ?_, ?_, ?_⟩
    · simpa [Nat.add_assoc] using hbehind
    · rw [addSpliced, if_neg (Nat.not_lt.2 hlo), hcopy, ← hm', htext, hsize]
      rfl
    · have hinside : old.size = s.span.size := by
        rw [Text.size_append, hgap] at hold
        simp only [Span.stop] at hold
        omega
      rw [parts_cons hgap hinside (List.pairwise_cons.1 hready.ordered).1, ← hsize]
      simpa [List.append_assoc] using hrefines

/-- Where spans overlap, applying the splices ends at the first that starts too early. -/
theorem addSpliced_of_firstOverlap? {stop : Nat} {span : Span} (hstart : t.IsBoundary start)
    (hboundary : ∀ s ∈ ss, t.IsBoundary s.span.start ∧ t.IsBoundary s.span.stop)
    (h : Span.firstOverlap? start (ss.map Splice.span) = some span) :
    addSpliced m t source start stop ss = .error (.overlap span) := by
  induction ss generalizing start m with
  | nil => exact absurd h nofun
  | cons s ss ih =>
    obtain ⟨hs, hss⟩ := List.forall_mem_cons.1 hboundary
    rw [List.map_cons, Span.firstOverlap?] at h
    rw [addSpliced]
    split at h
    · rename_i hlt
      obtain rfl := Option.some.inj h
      rw [if_pos hlt]
    · rename_i hle
      have hstop : (Span.between start s.span.start).stop = s.span.start :=
        Span.stop_between (Nat.le_of_not_lt hle)
      obtain ⟨gap, hgap⟩ := Text.exists_slice? (s := Span.between start s.span.start) hstart
        (by rw [hstop]; exact hs.1)
      rw [if_neg hle, SourceMap.addCopy, hgap]
      exact ih hs.2 hss h

theorem applyAll_eq_map (t : Text) (source : SourceId) (splices : List Splice)
    (given : Option Span) :
    applyAll t source splices given =
      (addSpliced (.empty (source.derived "sliced")) t source (given.getD t.span).start
        (given.getD t.span).stop (sortBy before (splices.filter fun s ↦
          (given.getD t.span).contains s.span))).map SourceMap.compact := by
  rw [applyAll]
  cases addSpliced (.empty (source.derived "sliced")) t source (given.getD t.span).start
    (given.getD t.span).stop (sortBy before (splices.filter fun s ↦
      (given.getD t.span).contains s.span)) <;> rfl

theorem join_map_fragment (source : SourceId) (ps : List Part) :
    Fragment.join (ps.map (Part.fragment source)) = ps.flatMap Part.text := by
  rw [Fragment.join, List.flatMap_map]
  simp only [Part.text_fragment]

/-- A map that refines parts leads to where their bytes come from. -/
theorem exists_from {ps : List Part} {p : Nat} (h : m.Refines (ps.map (Part.fragment source)))
    (hp : p < m.text.size) :
    ∃ front part behind k place, ps = front ++ part :: behind ∧
      p = Text.size (front.flatMap Part.text) + k ∧ k < part.text.size ∧
      m.origin? p = some ⟨source, place⟩ ∧ part.From place k := by
  obtain ⟨_, horigin, front, f, behind, hps, hstart, hstop, rfl⟩ := h.origin p hp
  obtain ⟨front, tail, rfl, rfl, htail⟩ := List.map_eq_append_iff.1 hps
  obtain ⟨part, behind, rfl, rfl, rfl⟩ := List.map_eq_cons_iff.1 htail
  rw [join_map_fragment] at hstart hstop horigin
  rw [Part.text_fragment] at hstop
  obtain ⟨k, rfl⟩ := Nat.exists_eq_add_of_le hstart
  have hk : k < part.text.size := by omega
  obtain ⟨place, hplace, hfrom⟩ := Part.exists_placeAt_fragment source hk
  rw [Nat.add_sub_cancel_left, hplace] at horigin
  exact ⟨front, part, behind, k, place, rfl, rfl, hk, horigin, hfrom⟩

/-- Splices inside bounds that lie apart can be applied in the order of their spans. -/
theorem ready_sortBy {bounds : Span}
    (hboundary : ∀ s ∈ ss, t.IsBoundary s.span.start ∧ t.IsBoundary s.span.stop)
    (hinside : ∀ s ∈ ss, bounds.contains s.span = true)
    (hapart : ss.Pairwise fun s s' ↦ s.span.Apart s'.span) :
    Ready t bounds.start (sortBy before ss) bounds.stop where
  le := Nat.le_add_right _ _
  boundary s hs := hboundary s ((sortBy_perm before ss).mem_iff.1 hs)
  inside s hs := by
    simpa [Span.contains] using hinside s ((sortBy_perm before ss).mem_iff.1 hs)
  ordered := ordered_iff.2 hapart

section Bounds

variable {given : Option Span} {splices : List Splice}

/-- Splices inside the bounds that lie apart leave their parts. -/
theorem exists_applyAll_parts (hstart : t.IsBoundary (given.getD t.span).start)
    (hstop : t.IsBoundary (given.getD t.span).stop)
    (hboundary : ∀ s ∈ splices, t.IsBoundary s.span.start ∧ t.IsBoundary s.span.stop)
    (hapart : (splices.filter fun s ↦ (given.getD t.span).contains s.span).Pairwise
      fun s s' ↦ s.span.Apart s'.span) (source : SourceId) :
    ∃ old m, t.slice? (given.getD t.span) = some old ∧
      applyAll t source splices given = .ok m ∧
      m.Refines ((parts (splices.filter fun s ↦ (given.getD t.span).contains s.span)
        (given.getD t.span).start old).map (Part.fragment source)) := by
  have hready := ready_sortBy (fun s hs ↦ hboundary s (List.mem_filter.1 hs).1)
    (fun s hs ↦ (List.mem_filter.1 hs).2) hapart
  rw [applyAll_eq_map]
  obtain ⟨front, rest, rfl, hfront⟩ := hstart
  rw [← hfront] at hready ⊢
  obtain ⟨old, behind, m, rfl, hold, hm, hrefines⟩ :=
    exists_addSpliced_parts source
      (SourceMap.refines_empty (source.derived "sliced")) hready hstop
  have hsize : old.size = (given.getD (Text.span (front ++ (old ++ behind)))).size := by
    simp only [Span.stop] at hold
    omega
  refine ⟨old, m.compact, ?_, by rw [hm]; rfl, ?_⟩
  · exact Text.slice?_eq_some_iff.2 ⟨front, behind, by simp, hfront, hsize⟩
  · rw [parts_sortBy hapart] at hrefines
    exact hrefines.compact

/-- Where spans overlap, nothing is left of the text. -/
theorem applyAll_of_firstOverlap? {span : Span}
    (hstart : t.IsBoundary (given.getD t.span).start)
    (hboundary : ∀ s ∈ splices, t.IsBoundary s.span.start ∧ t.IsBoundary s.span.stop)
    (h : Span.firstOverlap? (given.getD t.span).start
      ((sortBy before (splices.filter fun s ↦ (given.getD t.span).contains s.span)).map
        Splice.span) = some span) (source : SourceId) :
    applyAll t source splices given = .error (.overlap span) := by
  have hsorted : ∀ s ∈ sortBy before (splices.filter fun s ↦ (given.getD t.span).contains s.span),
      t.IsBoundary s.span.start ∧ t.IsBoundary s.span.stop := fun s hs ↦
    hboundary s (List.mem_filter.1 ((sortBy_perm before _).mem_iff.1 hs)).1
  rw [applyAll_eq_map, addSpliced_of_firstOverlap? hstart hsorted h]
  rfl

/-- Among splices that do not all lie apart, one starts too early. -/
theorem exists_firstOverlap? (h : ¬ss.Pairwise fun s s' ↦ s.span.Apart s'.span) (start : Nat) :
    ∃ s ∈ ss, Span.firstOverlap? start ((sortBy before ss).map Splice.span) = some s.span := by
  cases hfirst : Span.firstOverlap? start ((sortBy before ss).map Splice.span) with
  | none =>
    have hordered := (Span.firstOverlap?_eq_none_iff.1 hfirst).2
    exact absurd (ordered_iff.1 (List.pairwise_map.1 hordered)) h
  | some span =>
    obtain ⟨s, hs, rfl⟩ := List.mem_map.1 (Span.firstOverlap?_mem hfirst)
    exact ⟨s, (sortBy_perm before ss).mem_iff.1 hs, rfl⟩

end Bounds

/-- Splices that do not overlap, as far as they are inside the bounds, can be applied, and what they
leave is the text in the bounds with the text of each splice in the place of its span. It is
covered, each byte that stays comes from just where it was, and each byte of a splice from its span.
Splices that overlap cannot be applied. The order in which splices are given changes nothing, unless
two insert at one place. -/
theorem applyAll_spec {given : Option Span} {splices : List Splice}
    (hstart : t.IsBoundary (given.getD t.span).start)
    (hstop : t.IsBoundary (given.getD t.span).stop)
    (hboundary : ∀ s ∈ splices, t.IsBoundary s.span.start ∧ t.IsBoundary s.span.stop)
    (source : SourceId) :
    let bounds := given.getD t.span
    let inside := splices.filter fun s ↦ bounds.contains s.span
    ((inside.Pairwise fun s s' ↦ ¬s.span.Overlaps s'.span) →
      ∃ old m, t.slice? bounds = some old ∧ applyAll t source splices given = .ok m ∧
        m.text = (parts inside bounds.start old).flatMap Part.text ∧ m.coverage = .ok () ∧
        ∀ p < m.text.size, ∃ front part behind k place,
          parts inside bounds.start old = front ++ part :: behind ∧
            p = Text.size (front.flatMap Part.text) + k ∧ k < part.text.size ∧
            m.origin? p = some ⟨source, place⟩ ∧ part.From place k) ∧
    ((¬inside.Pairwise fun s s' ↦ ¬s.span.Overlaps s'.span) →
      ∃ s ∈ inside, applyAll t source splices given = .error (.overlap s.span)) ∧
    ∀ splices' : List Splice, splices'.Perm splices → (inside.Pairwise fun s s' ↦ ¬s.Meet s') →
      applyAll t source splices' given = applyAll t source splices given := by
  intro bounds inside
  have hapart : (inside.Pairwise fun s s' ↦ ¬s.span.Overlaps s'.span) ↔
      inside.Pairwise fun s s' ↦ s.span.Apart s'.span := by
    simp only [Span.apart_iff_not_overlaps]
  rw [hapart]
  refine ⟨fun h ↦ ?_, fun h ↦ ?_, fun splices' hperm hmeet ↦ ?_⟩
  · obtain ⟨old, m, hold, hm, hrefines⟩ :=
      exists_applyAll_parts hstart hstop hboundary h source
    refine ⟨old, m, hold, hm, ?_, hrefines.tiled.coverage, fun p hp ↦ exists_from hrefines hp⟩
    rw [hrefines.text, join_map_fragment]
  · obtain ⟨s, hs, hfirst⟩ := exists_firstOverlap? h bounds.start
    exact ⟨s, hs, applyAll_of_firstOverlap? hstart hboundary hfirst source⟩
  · have hinside : (splices'.filter fun s ↦ bounds.contains s.span).Perm inside := hperm.filter _
    -- where splices overlap, both orders fail with the same one
    by_cases h : inside.Pairwise fun s s' ↦ s.span.Apart s'.span
    · rw [applyAll_eq_map, applyAll_eq_map, sortBy_eq_of_perm hinside h hmeet]
    · obtain ⟨s, -, hfirst⟩ := exists_firstOverlap? h bounds.start
      rw [applyAll_of_firstOverlap? hstart hboundary hfirst source]
      refine applyAll_of_firstOverlap? hstart (fun s hs ↦ hboundary s (hperm.mem_iff.1 hs)) ?_
        source
      rw [map_span_sortBy_eq_of_perm hinside]
      exact hfirst

/-- Two statements. -/
def constants : Text :=
  "const a = 1;\nconst b = a;\n".toList

/-- Splices for both of them: a word in the first, and in the second a word as long as what was
there, an insertion in front of it and one behind what is replaced last. -/
def renamings : List Splice :=
  [⟨⟨23, 1⟩, "a0".toList⟩, ⟨⟨6, 1⟩, "x".toList⟩, ⟨⟨24, 0⟩, "!".toList⟩, ⟨⟨19, 1⟩, "c".toList⟩,
    ⟨⟨19, 0⟩, "_".toList⟩]

theorem applyAll_spec_constants :
    (∃ m, applyAll constants ⟨"a"⟩ renamings (some ⟨13, 12⟩) = .ok m ∧
      m.text = "const _c = a0!;".toList ∧ m.coverage = .ok () ∧
      applyAll constants ⟨"a"⟩ renamings.reverse (some ⟨13, 12⟩) = .ok m) ∧
    ∃ s, applyAll constants ⟨"a"⟩ (⟨⟨19, 5⟩, []⟩ :: renamings) (some ⟨13, 12⟩) =
      .error (.overlap s) := by
  have hstart : constants.IsBoundary ((some ⟨13, 12⟩ : Option Span).getD constants.span).start := by
    decide
  have hstop : constants.IsBoundary ((some ⟨13, 12⟩ : Option Span).getD constants.span).stop := by
    decide
  have hboundary : ∀ s ∈ renamings, constants.IsBoundary s.span.start ∧
      constants.IsBoundary s.span.stop := by decide
  have hboundary' : ∀ s ∈ (⟨⟨19, 5⟩, []⟩ :: renamings : List Splice),
      constants.IsBoundary s.span.start ∧ constants.IsBoundary s.span.stop := by decide
  obtain ⟨happly, -, hperm⟩ := applyAll_spec hstart hstop hboundary ⟨"a"⟩
  obtain ⟨old, m, hold, hm, htext, hcoverage, -⟩ := happly (by decide)
  have hparts : Text.slice? constants ⟨13, 12⟩ = some "const b = a;".toList := by decide
  obtain rfl : old = "const b = a;".toList := Option.some.inj (hold.symm.trans hparts)
  obtain ⟨-, hoverlap, -⟩ := applyAll_spec hstart hstop hboundary' ⟨"a"⟩
  obtain ⟨s, -, hs⟩ := hoverlap (by decide)
  refine ⟨⟨m, hm, htext.trans (by decide), hcoverage, ?_⟩, s.span, hs⟩
  rw [hperm _ (List.reverse_perm _) (by decide), hm]

end Splice

end ShaderLink
