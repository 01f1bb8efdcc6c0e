import Mathlib.Data.List.Perm.Basic
import ShaderLink.Proofs.Provenance.Segment

/-!
# What stands in the place of a span

Splices that suit a text cut it into segments (`Segment.exists_of_ascending`). So what stands in the
end in the place of a span is known in two cases: in the place of a span that is spliced stands what
is put there (`Traced.shows_of_mem`), and a span that lies apart from all that is spliced stands as
it was (`Traced.shows_of_apart`).
-/

namespace ShaderLink

namespace Segment

/-- Splices in the order of a text cut it into segments. -/
theorem exists_of_ascending (front : Text) {rest : Text} {splices : List Splice} {stop : Nat}
    (h : (front ++ rest).Ascending front.size (splices.map Splice.span) stop)
    (hstop : (front ++ rest).IsBoundary stop) :
    ∃ ss back, rest = join ss ++ back ∧ front.size + (join ss).size = stop ∧
      Segment.splices front.size ss = splices ∧ ∀ s ∈ ss, s.new?.isSome → s.old ≠ [] := by
  induction splices generalizing front rest with
  | nil =>
    obtain ⟨inside, behind, rfl, hsize⟩ := hstop.exists_cut h.le
    exact ⟨[⟨inside, none⟩], behind, by simp, by simpa using hsize, rfl, by simp⟩
  | cons s splices ih =>
    obtain ⟨hfirst, hrest⟩ := h.uncons
    have hfits := hfirst.fits s.span (List.mem_singleton_self _)
    have hpos := hfits.size_pos
    -- cut off what stands in front of the first span, and what is at it
    obtain ⟨gap, rest, rfl, hgap⟩ := hfits.start.exists_cut
      (hfirst.inside s.span (List.mem_singleton_self _)).1
    rw [← List.append_assoc] at hfits hrest hstop
    obtain ⟨old, rest, rfl, hold⟩ := hfits.stop.exists_cut
      (by rw [Text.size_append, hgap]; exact hfits.start_lt_stop.le)
    rw [← List.append_assoc] at hrest hstop
    rw [Text.size_append] at hold
    have hfront : (front ++ gap ++ old).size = s.span.stop := by
      rw [Text.size_append, Text.size_append, hold]
    obtain ⟨ss, back, rfl, hsize, hsplices, hne⟩ := ih _ (hfront ▸ hrest) hstop
    have hspan : (⟨front.size + gap.size, old.size⟩ : Span) = s.span := by
      rw [Span.stop] at hold
      rw [hgap, show old.size = s.span.size by omega]
    refine ⟨⟨gap, none⟩ :: ⟨old, some s.text⟩ :: ss, back, by simp, ?_, ?_, ?_⟩
    · rw [← hsize]
      simp only [join_cons, Text.size_append]
      omega
    · rw [Text.size_append, Text.size_append] at hsplices
      simp only [Segment.splices, hsplices, hspan]
    · refine List.forall_mem_cons.2 ⟨by simp, List.forall_mem_cons.2 ⟨fun _ hnil ↦ ?_, hne⟩⟩
      rw [Span.stop] at hold
      rw [show old = [] from hnil, Text.size_nil] at hold
      omega

/-- Splices in the order of a text cut all of it into segments. -/
theorem exists_of_ascending_size {t : Text} {splices : List Splice}
    (h : t.Ascending 0 (splices.map Splice.span) t.size) :
    ∃ ss, t = join ss ∧ Segment.splices 0 ss = splices ∧ ∀ s ∈ ss, s.new?.isSome → s.old ≠ [] := by
  obtain ⟨ss, back, htext, hsize, hsplices, hne⟩ := exists_of_ascending [] h t.isBoundary_size
  have hwhole := congrArg Text.size htext
  rw [Text.size_append] at hwhole
  rw [Text.size_nil] at hsize
  obtain rfl : back = [] := Text.size_eq_zero_iff.1 (by omega)
  exact ⟨ss, by rw [htext, List.append_nil], hsplices, hne⟩

theorem splices_cons (offset : Nat) (s : Segment) (ss : List Segment) :
    splices offset (s :: ss) =
      s.new?.toList.map (Splice.mk ⟨offset, s.old.size⟩) ++ splices (offset + s.old.size) ss := by
  rw [splices]
  cases s.new? <;> rfl

/-- One of the splices of segments is that of a segment with the others around it. -/
theorem exists_of_splices_eq {offset : Nat} {ss : List Segment} {before behind : List Splice}
    {s : Splice} (h : splices offset ss = before ++ s :: behind) :
    ∃ ss₁ segment ss₂, ss = ss₁ ++ segment :: ss₂ ∧ splices offset ss₁ = before ∧
      segment.new? = some s.text ∧ s.span = ⟨offset + (join ss₁).size, segment.old.size⟩ ∧
      splices (offset + (join ss₁).size + segment.old.size) ss₂ = behind := by
  induction ss generalizing offset before with
  | nil => simp [splices] at h
  | cons first ss ih =>
    -- what holds of the segments behind the first one holds of all
    have hbehind {before : List Splice}
        (h : splices (offset + first.old.size) ss = before ++ s :: behind) :
        ∃ ss₁ segment ss₂, first :: ss = ss₁ ++ segment :: ss₂ ∧
          splices offset ss₁ =
            first.new?.toList.map (Splice.mk ⟨offset, first.old.size⟩) ++ before ∧
          segment.new? = some s.text ∧ s.span = ⟨offset + (join ss₁).size, segment.old.size⟩ ∧
          splices (offset + (join ss₁).size + segment.old.size) ss₂ = behind := by
      obtain ⟨ss₁, segment, ss₂, rfl, hbefore, htext, hspan, hrest⟩ := ih h
      have hoffset : offset + first.old.size + (join ss₁).size =
          offset + (join (first :: ss₁)).size := by
        rw [join_cons, Text.size_append, Nat.add_assoc]
      rw [hoffset] at hspan hrest
      exact ⟨first :: ss₁, segment, ss₂, rfl, by rw [splices_cons, hbefore], htext, hspan, hrest⟩
    rw [splices_cons] at h
    cases hnew : first.new? with
    | none =>
      rw [hnew] at h hbehind
      exact hbehind h
    | some new =>
      rw [hnew] at h hbehind
      cases before with
      | nil =>
        obtain ⟨rfl, rfl⟩ := List.cons.inj h
        exact ⟨[], first, ss, rfl, rfl, hnew, rfl, rfl⟩
      | cons s' before =>
        obtain ⟨rfl, hrest⟩ := List.cons.inj h
        exact hbehind hrest

end Segment

namespace Splice

/-- Only one order of splices that suit a text is that of the text. -/
theorem Suit.sortBy_eq {t : Text} {bounds : Span} {splices splices' : List Splice}
    (h : Suit t bounds splices) (hperm : splices'.Perm splices)
    (hordered : splices'.Pairwise fun s s' ↦ s.span.stop ≤ s'.span.start) :
    sortBy before splices = splices' := by
  have hsorted := sortBy_perm before splices
  refine List.Perm.eq_of_pairwise (fun s s' hs hs' hle hle' ↦ ?_)
    (List.pairwise_map.1 h.ascending.ordered) hordered (hsorted.trans hperm.symm)
  have hlt := (h.fits s (hsorted.mem_iff.1 hs)).start_lt_stop
  have hlt' := (h.fits s' (hperm.mem_iff.1 hs')).start_lt_stop
  omega

end Splice

namespace Traced

variable {file : SourceText} {splices before behind : List Splice} {span : Span} {shown old : Text}

/-- In a copy each part of the text stands in its own place. -/
theorem showsBetween_copy {front back : Text} (h : file.text = front ++ shown ++ back) :
    (copy file 0 file.text).ShowsBetween file ⟨front.size, shown.size⟩ front shown back := by
  have hfront : (copy file 0 file.text).text = [] ++ (front ++ (shown ++ back)) ++ [] := by
    rw [show (copy file 0 file.text).text = _ from h]
    simp
  have hback :
      (copy file 0 file.text).text = front ++ (shown ++ back) ++ [] := by simpa using hfront
  have hwhole : (copy file 0 file.text).slice ⟨Text.size [], (front ++ (shown ++ back)).size⟩ =
      copy file 0 file.text := by
    rw [← List.append_assoc, ← h]
    exact slice_span _
  have hsplit : (copy file 0 file.text).text = front ++ shown ++ (back ++ []) := by
    simpa using hfront
  have hrest :
      (copy file 0 file.text).text = (front ++ shown) ++ back ++ [] := by simpa using hfront
  rw [slice_append hfront, Text.size_nil, Nat.zero_add, slice_append hback,
    ← append_assoc] at hwhole
  refine ⟨_, _, _, hwhole.symm, ?_, (slice_eq hsplit).1, ?_, ?_, from_slice_copy file _, ?_⟩
  · have hfirst : (copy file 0 file.text).text = [] ++ front ++ (shown ++ back) := by
      simpa using hfront
    exact (slice_eq hfirst).1
  · rw [← Text.size_append]
    exact (slice_eq hrest).1
  · exact (from_slice_copy file _).mono le_rfl (by simp [Span.stop])
  · refine (from_slice_copy file _).mono le_rfl ?_
    have hsize := congrArg Text.size h
    simp only [Text.size_append] at hsize
    simp only [Span.stop, Span.between]
    omega

/-- Splices in front of a span, perhaps one for the span itself, and splices behind it leave in its
place what takes it, or what stood there. -/
theorem shows_of_sorted (new? : Option Text)
    (h : file.text.Ascending 0 ((before ++ ⟨span, []⟩ :: behind).map Splice.span) file.text.size)
    (hsorted : sortBy Splice.before splices =
      before ++ (new?.toList.map (Splice.mk span) ++ behind))
    (hold : file.text.slice? span = some old) :
    ((copy file 0 file.text).splice file.text.span splices).Shows file span (new?.getD old) := by
  obtain ⟨ss, htext, hsplices, hne⟩ := Segment.exists_of_ascending_size h
  obtain ⟨ss₁, segment, ss₂, rfl, rfl, hnew, hspan, rfl⟩ := Segment.exists_of_splices_eq hsplices
  rw [Nat.zero_add] at hspan
  obtain rfl : span = _ := hspan
  have hparts : file.text = Segment.join ss₁ ++ segment.old ++ Segment.join ss₂ := by
    rw [htext, Segment.join_append, Segment.join_cons, List.append_assoc]
  obtain rfl : segment.old = old := by
    rw [hparts, Text.slice?_append] at hold
    exact Option.some.inj hold
  -- the segments, with what takes the place of the span in fact
  have hcopied : (copy file 0 file.text).text =
      [] ++ Segment.join (ss₁ ++ ⟨segment.old, new?⟩ :: ss₂) ++ [] := by
    rw [show (copy file 0 file.text).text = _ from hparts]
    simp
  have hsegments : sortBy Splice.before splices =
      Segment.splices (Text.size []) (ss₁ ++ ⟨segment.old, new?⟩ :: ss₂) := by
    rw [hsorted, Segment.splices_append, Segment.splices_cons, Text.size_nil, Nat.zero_add]
  have hspan : file.text.span =
      ⟨Text.size [], (Segment.join (ss₁ ++ ⟨segment.old, new?⟩ :: ss₂)).size⟩ := by
    rw [hparts]
    simp [Text.span]
  rw [hspan, splice_of_segments hcopied hsegments]
  refine (showsBetween_copy hparts).patched rfl rfl rfl fun s hs hsome ↦ ?_
  rcases List.mem_append.1 hs with hs | hs
  · exact hne s (List.mem_append_left _ hs) hsome
  · rcases List.mem_cons.1 hs with rfl | hs
    · exact hne segment (by simp) (by rw [hnew]; rfl)
    · exact hne s (by simp [hs]) hsome

/-- In the place of a span that is spliced stands what is put there. -/
theorem shows_of_mem (h : Splice.Suit file.text file.text.span splices)
    (hmem : ⟨span, shown⟩ ∈ splices) :
    ((copy file 0 file.text).splice file.text.span splices).Shows file span shown := by
  obtain ⟨before, behind, hsorted⟩ :=
    List.append_of_mem ((sortBy_perm Splice.before splices).mem_iff.2 hmem)
  have hascending := h.ascending
  rw [hsorted] at hascending
  obtain ⟨old, hold⟩ := (h.fits _ hmem).exists_slice?
  refine shows_of_sorted (some shown) ?_ hsorted hold
  rw [List.map_append, List.map_cons] at hascending ⊢
  rwa [Text.span, Span.stop, Nat.zero_add] at hascending

/-- A span that lies apart from all that is spliced stands as it was. -/
theorem shows_of_apart (h : Splice.Suit file.text file.text.span splices)
    (hfits : file.text.Fits span) (hapart : ∀ s ∈ splices, span.Apart s.span)
    (hold : file.text.slice? span = some old) :
    ((copy file 0 file.text).splice file.text.span splices).Shows file span old := by
  have hall : Splice.Suit file.text file.text.span (⟨span, []⟩ :: splices) :=
    { h with
      fits := List.forall_mem_cons.2 ⟨hfits, h.fits⟩
      inside := List.forall_mem_cons.2
        ⟨⟨Nat.zero_le _, by simpa [Text.span, Span.stop] using hfits.stop.le_size⟩, h.inside⟩
      apart := List.pairwise_cons.2 ⟨hapart, h.apart⟩ }
  have hascending := hall.ascending
  have hperm := sortBy_perm Splice.before (⟨span, []⟩ :: splices)
  obtain ⟨before, behind, hsorted⟩ := List.append_of_mem (hperm.mem_iff.2 List.mem_cons_self)
  rw [hsorted] at hascending hperm
  -- without the span the order of the others is the same
  have hordered := List.pairwise_map.1 hascending.ordered
  have hothers : sortBy Splice.before splices = before ++ behind :=
    h.sortBy_eq (List.perm_middle.symm.trans hperm).cons_inv
      (hordered.sublist ((List.sublist_cons_self _ _).append_left before))
  refine shows_of_sorted none ?_ hothers hold
  rwa [Text.span, Span.stop, Nat.zero_add] at hascending

end Traced

end ShaderLink
