import ShaderLink.Proofs.Grammar.Cover
import ShaderLink.Proofs.Provenance.Excerpt
import ShaderLink.Proofs.Provenance.Segment

/-!
# Renaming and then replacing words

In a stretch of shader code names are put in the place of groups of lexemes, and in what comes of
this words are replaced. Both are splicing by segments, first by the groups and then by the lexemes
of the new text, which are known because names take the place of words. So what stands in the place
of a group in the end is the name that was put there, or what this name is replaced by, if the table
has it and no dot stands in front (`Traced.shows_excerpt`).
-/

namespace ShaderLink

namespace Lexeme

variable {x : Lexeme} {xs ys : List Lexeme} {ps : List Patch} {gs : List Group} {w rest : Text}

/-! ### Names in the place of groups -/

/-- A group with what takes its place, as a segment of the text. -/
def Patch.segment (p : Patch) : Segment :=
  ⟨join p.lexemes, p.word?⟩

theorem join_segments (ps : List Patch) :
    Segment.join (ps.map Patch.segment) = join (ps.flatMap fun p ↦ p.lexemes) := by
  induction ps with
  | nil => rfl
  | cons p ps ih =>
    rw [List.map_cons, Segment.join_cons, ih, List.flatMap_cons, join_append]
    rfl

theorem Patch.shown_segment (p : Patch) : p.segment.shown = join p.result := by
  obtain ⟨g, word?, fits⟩ := p
  cases word? with
  | none => rfl
  | some w => exact (List.append_nil w).symm

theorem shown_segments (ps : List Patch) :
    (ps.map Patch.segment).flatMap Segment.shown = join (ps.flatMap Patch.result) := by
  induction ps with
  | nil => rfl
  | cons p ps ih =>
    rw [List.map_cons, List.flatMap_cons, ih, List.flatMap_cons, join_append, p.shown_segment]

/-- Splices with identifiers in the place of groups are those of patches. -/
theorem exists_patches {offset : Nat} {splices : List Splice}
    (hspans : (splices.map Splice.span).Sublist (namedSpans offset gs))
    (htexts : ∀ s ∈ splices, s.text.IsIdentifier) :
    ∃ ps : List Patch, ps.map Patch.toGroup = gs ∧
      Segment.splices offset (ps.map Patch.segment) = splices := by
  induction gs generalizing offset splices with
  | nil =>
    obtain rfl := List.map_eq_nil_iff.1 (List.sublist_nil.1 hspans)
    exact ⟨[], rfl, rfl⟩
  | cons g gs ih =>
    -- a group without a splice stays
    have hkept (h : (splices.map Splice.span).Sublist
        (namedSpans (offset + (join g.lexemes).size) gs)) :
        ∃ ps : List Patch, ps.map Patch.toGroup = g :: gs ∧
          Segment.splices offset (ps.map Patch.segment) = splices := by
      obtain ⟨ps, hps, hsplices⟩ := ih h htexts
      exact ⟨⟨g, none, nofun⟩ :: ps, congrArg (g :: ·) hps, hsplices⟩
    rw [namedSpans] at hspans
    split at hspans
    · rename_i hnamed
      rcases List.sublist_cons_iff.1 hspans with hskipped | ⟨spans, hcons, hrest⟩
      · exact hkept hskipped
      · obtain ⟨s, splices, rfl, hs, rfl⟩ := List.map_eq_cons_iff.1 hcons
        obtain ⟨hs', htexts⟩ := List.forall_mem_cons.1 htexts
        obtain ⟨ps, hps, hsplices⟩ := ih hrest htexts
        refine ⟨⟨g, some s.text, fun w hw ↦ ?_⟩ :: ps, congrArg (g :: ·) hps, ?_⟩
        · obtain rfl : s.text = w := Option.some.inj hw
          exact ⟨hnamed, hs'⟩
        · rw [List.map_cons, Segment.splices]
          show (⟨⟨offset, (join g.lexemes).size⟩, s.text⟩ : Splice) :: _ = _
          rw [← hs]
          exact congrArg (s :: ·) hsplices
    · exact hkept hspans

/-- A span of the groups is that of one of them. -/
theorem exists_of_mem_namedSpans {offset : Nat} {s : Span} (h : s ∈ namedSpans offset gs) :
    ∃ front g behind, gs = front ++ g :: behind ∧ g.named = true ∧
      s = ⟨offset + (join (front.flatMap Group.lexemes)).size, (join g.lexemes).size⟩ := by
  induction gs generalizing offset with
  | nil => exact absurd h List.not_mem_nil
  | cons g gs ih =>
    have hbehind (h : s ∈ namedSpans (offset + (join g.lexemes).size) gs) :
        ∃ front g' behind, g :: gs = front ++ g' :: behind ∧ g'.named = true ∧
          s = ⟨offset + (join (front.flatMap Group.lexemes)).size, (join g'.lexemes).size⟩ := by
      obtain ⟨front, g', behind, rfl, hnamed, rfl⟩ := ih h
      refine ⟨g :: front, g', behind, rfl, hnamed, ?_⟩
      rw [List.flatMap_cons, join_append, Text.size_append, Nat.add_assoc]
    rw [namedSpans] at h
    split at h
    · rename_i hnamed
      rcases List.mem_cons.1 h with rfl | h
      · exact ⟨[], g, gs, rfl, hnamed, rfl⟩
      · exact hbehind h
    · exact hbehind h

/-- The named groups stand one behind the other. -/
theorem pairwise_namedSpans (offset : Nat) (gs : List Group) :
    (∀ s ∈ namedSpans offset gs, offset ≤ s.start) ∧
      (namedSpans offset gs).Pairwise fun s s' ↦ s.stop ≤ s'.start := by
  induction gs generalizing offset with
  | nil => exact ⟨List.forall_mem_nil _, .nil⟩
  | cons g gs ih =>
    obtain ⟨hstart, hpairwise⟩ := ih (offset + (join g.lexemes).size)
    rw [namedSpans]
    split
    · refine ⟨List.forall_mem_cons.2 ⟨Nat.le_refl _, fun s hs ↦ ?_⟩,
        List.pairwise_cons.2 ⟨fun s hs ↦ hstart s hs, hpairwise⟩⟩
      have := hstart s hs
      omega
    · refine ⟨fun s hs ↦ ?_, hpairwise⟩
      have := hstart s hs
      omega

/-- Lexemes that make an identifier are a word, if the last of them is one. -/
theorem eq_of_join_eq (h : Along Heads xs rest) (hlast : ∃ x ∈ xs.getLast?, x.kind = .word)
    (hjoin : join xs = w) (hw : w.IsIdentifier) : xs = [⟨.word, w⟩] := by
  obtain ⟨x, hx, hword⟩ := hlast
  obtain ⟨front, rfl⟩ := List.getLast?_eq_some_iff.1 hx
  have hrest := ((along_append.1 h).2.1.isIdentifier hword).2
  have hlexes : (⟨join (front ++ [x]) ++ rest, 0⟩ : Cursor).Lexes (front ++ [x])
      ⟨rest, (join (front ++ [x])).size⟩ := ⟨rfl, (Nat.zero_add _).symm, h⟩
  have hsingle : (⟨join (front ++ [x]) ++ rest, 0⟩ : Cursor).Lexes [⟨.word, w⟩]
      ⟨rest, (join (front ++ [x])).size⟩ := by
    refine ⟨?_, ?_, heads_word hw hrest, trivial⟩
    · simp [hjoin]
    · simp [hjoin]
  generalize front ++ [x] = zs at *
  cases zs with
  | nil => cases hx
  | cons z zs =>
    obtain ⟨rfl, c₃, hzs, hnil⟩ := hlexes.unique hsingle
    obtain rfl := hnil.eq_of_nil
    cases zs with
    | nil => rfl
    | cons y zs =>
      -- nothing is left for another lexeme
      have hempty : join (y :: zs) = [] := List.append_right_eq_self.1 hjoin
      rw [join_cons, List.append_eq_nil_iff] at hempty
      exact absurd hempty.1 hzs.along.1.ne_nil

/-! ### Words replaced -/

/-- Whether the lexeme is a dot. -/
def isDot (x : Lexeme) : Bool :=
  x.kind == .symbol && String.ofList x.text == "."

/-- Whether a dot stands behind the lexemes, given whether one stands in front of them. -/
def dotBehind (behindDot : Bool) (xs : List Lexeme) : Bool :=
  ((significant xs).getLast?.map isDot).getD behindDot

theorem dotBehind_append (behindDot : Bool) (xs ys : List Lexeme) :
    dotBehind behindDot (xs ++ ys) = dotBehind (dotBehind behindDot xs) ys := by
  rw [dotBehind, dotBehind, dotBehind, significant_append, List.getLast?_append]
  cases (significant ys).getLast? with
  | none => rfl
  | some y => rfl

/-- What takes the place of a lexeme when words are replaced. -/
def replacement? (table : String → Option Text) (behindDot : Bool) (x : Lexeme) : Option Text :=
  if x.kind == .word && !behindDot then table (String.ofList x.text) else none

/-- The segments of the lexemes when words are replaced. -/
def wordSegments (table : String → Option Text) (behindDot : Bool) : List Lexeme → List Segment
  | [] => []
  | x :: xs =>
    ⟨x.text, replacement? table behindDot x⟩ :: wordSegments table (dotBehind behindDot [x]) xs

variable (table : String → Option Text) (behindDot : Bool)

theorem join_wordSegments (xs : List Lexeme) :
    Segment.join (wordSegments table behindDot xs) = join xs := by
  induction xs generalizing behindDot with
  | nil => rfl
  | cons x xs ih => exact congrArg (x.text ++ ·) (ih _)

theorem wordSegments_append (xs ys : List Lexeme) :
    wordSegments table behindDot (xs ++ ys) =
      wordSegments table behindDot xs ++ wordSegments table (dotBehind behindDot xs) ys := by
  induction xs generalizing behindDot with
  | nil => rfl
  | cons x xs ih =>
    rw [List.cons_append, wordSegments, ih, ← dotBehind_append, wordSegments]
    rfl

theorem old_mem_of_mem_wordSegments {s : Segment} (h : s ∈ wordSegments table behindDot xs) :
    ∃ x ∈ xs, s.old = x.text := by
  induction xs generalizing behindDot with
  | nil => exact absurd h List.not_mem_nil
  | cons x xs ih =>
    rcases List.mem_cons.1 h with rfl | h
    · exact ⟨x, List.mem_cons_self, rfl⟩
    · obtain ⟨y, hy, hs⟩ := ih _ h
      exact ⟨y, List.mem_cons_of_mem x hy, hs⟩

/-- Nothing takes the place of an ignored lexeme. -/
theorem replacement?_of_ignored {x : Lexeme} (h : Lexicon.shader.ignores x.kind = true) :
    replacement? table behindDot x = none := by
  rw [replacement?, if_neg]
  cases hx : x.kind with
  | word =>
    rw [hx] at h
    cases h
  | _ => exact Bool.false_ne_true

/-- An ignored lexeme does not change whether a dot stands in front. -/
theorem dotBehind_of_ignored {x : Lexeme} (h : Lexicon.shader.ignores x.kind = true) :
    dotBehind behindDot [x] = behindDot := by
  rw [dotBehind, significant, List.filter_cons_of_neg (by simp [h])]
  rfl

theorem dotBehind_of_kept {x : Lexeme} (h : ¬Lexicon.shader.ignores x.kind = true) :
    dotBehind behindDot [x] = isDot x := by
  rw [dotBehind, significant_singleton (Bool.eq_false_iff.2 h)]
  rfl

/-- The splices for words are those of the segments. -/
theorem splices_wordSegments (offset : Nat) (xs : List Lexeme) :
    Segment.splices offset (wordSegments table behindDot xs) =
      wordSplices table behindDot (tokensFrom offset xs) := by
  induction xs generalizing offset behindDot with
  | nil => rfl
  | cons x xs ih =>
    rw [wordSegments, Segment.splices, tokensFrom]
    by_cases hignored : Lexicon.shader.ignores x.kind = true
    · rw [if_pos hignored, replacement?_of_ignored table behindDot hignored,
        dotBehind_of_ignored behindDot hignored]
      exact ih behindDot _
    · rw [if_neg hignored, dotBehind_of_kept behindDot hignored, wordSplices]
      have hreplacement : (if (x.token offset).kind == .word && !behindDot then
          table (x.token offset).text else none) = replacement? table behindDot x := rfl
      rw [hreplacement]
      cases replacement? table behindDot x with
      | none => exact ih _ _
      | some new => exact congrArg (_ :: ·) (ih _ _)

/-- Behind a word stands no dot. -/
theorem dotBehind_of_getLast? (hlast : ∃ x ∈ xs.getLast?, x.kind = .word) :
    dotBehind behindDot xs = false := by
  obtain ⟨x, hx, hword⟩ := hlast
  obtain ⟨front, rfl⟩ := List.getLast?_eq_some_iff.1 hx
  rw [dotBehind_append, dotBehind, significant_singleton (by rw [hword]; rfl)]
  show isDot x = false
  rw [isDot, hword]
  rfl

/-- Names in the place of groups do not change where dots stand. -/
theorem dotBehind_result (ps : List Patch) :
    dotBehind behindDot (ps.flatMap Patch.result) =
      dotBehind behindDot (ps.flatMap fun p ↦ p.lexemes) := by
  induction ps generalizing behindDot with
  | nil => rfl
  | cons p ps ih =>
    rw [List.flatMap_cons, List.flatMap_cons, dotBehind_append, dotBehind_append, ih]
    congr 1
    obtain ⟨g, word?, fits⟩ := p
    cases word? with
    | none => rfl
    | some w =>
      have hnamed := (fits w rfl).1
      have hword : ∃ x ∈ [(⟨.word, w⟩ : Lexeme)].getLast?, x.kind = .word := ⟨_, rfl, rfl⟩
      exact (dotBehind_of_getLast? behindDot hword).trans
        (dotBehind_of_getLast? behindDot (g.words hnamed).2).symm

end Lexeme

namespace Traced

open Lexeme

variable {file : SourceText} {front back name : Text} {gs front' behind : List Group} {g : Group}
  {splices : List Splice}

/-- The splices put identifiers in the place of groups that the file has behind the text `front`, in
the order of their spans. -/
structure Renaming (file : SourceText) (front : Text) (gs : List Group) (back : Text)
    (splices : List Splice) : Prop where
  text : file.text = front ++ join (gs.flatMap Group.lexemes) ++ back
  along : Along Loose (gs.flatMap Group.lexemes) []
  spans : ((sortBy Splice.before splices).map Splice.span).Sublist (namedSpans front.size gs)
  texts : ∀ s ∈ splices, s.text.IsIdentifier

/-- The splices leave the name in a place, where it may stand already. -/
structure Named (t : Text) (splices : List Splice) (place : Span) (name : Text) : Prop where
  isIdentifier : name.IsIdentifier
  eq_of_mem : ∀ w, ⟨place, w⟩ ∈ splices → w = name
  mem_or : ⟨place, name⟩ ∈ splices ∨ t.slice? place = some name

theorem Renaming.join_ne_nil (h : Renaming file front gs back splices) (hmem : g ∈ gs)
    (hg : g.named = true) : join g.lexemes ≠ [] := by
  intro hnil
  obtain ⟨before, after, hsplit⟩ := List.append_of_mem hmem
  obtain ⟨⟨x, hx, -⟩, -⟩ := g.words hg
  obtain ⟨xs, hxs⟩ := List.head?_eq_some_iff.1 hx
  have halong := h.along
  rw [hsplit, List.flatMap_append, List.flatMap_cons, hxs] at halong
  rw [hxs, join_cons, List.append_eq_nil_iff] at hnil
  exact (along_append.1 halong).2.1.1.ne_nil hnil.1

/-- The splices are those of patches, and the patch in the place is the name. -/
theorem Renaming.exists_patches (h : Renaming file front (front' ++ g :: behind) back splices)
    (hg : g.named = true)
    (hname : Named file.text splices
      ⟨front.size + (join (front'.flatMap Group.lexemes)).size, (join g.lexemes).size⟩ name) :
    ∃ (ps₁ : List Patch) (p : Patch) (ps₂ : List Patch), ps₁.map Patch.toGroup = front' ∧
      p.toGroup = g ∧ ps₂.map Patch.toGroup = behind ∧
      Segment.splices front.size ((ps₁ ++ p :: ps₂).map Patch.segment) =
        sortBy Splice.before splices ∧
      p.result = [⟨.word, name⟩] := by
  obtain ⟨hidentifier, heq, hmem⟩ := hname
  have hperm := sortBy_perm Splice.before splices
  obtain ⟨ps, hps, hsplices⟩ := Lexeme.exists_patches h.spans
    fun s hs ↦ h.texts s (hperm.mem_iff.1 hs)
  obtain ⟨ps₁, rest, rfl, rfl, hrest⟩ := List.map_eq_append_iff.1 hps
  obtain ⟨p, ps₂, rfl, rfl, rfl⟩ := List.map_eq_cons_iff.1 hrest
  refine ⟨ps₁, p, ps₂, rfl, rfl, rfl, hsplices, ?_⟩
  have hne := h.join_ne_nil (g := p.toGroup) (by simp) hg
  rw [List.map_append, List.map_cons] at hsplices
  rw [List.flatMap_map, ← join_segments] at heq hmem
  have hnew {w : Text} (hw : ⟨⟨front.size + (Segment.join (ps₁.map Patch.segment)).size,
      (join p.lexemes).size⟩, w⟩ ∈ splices) : p.word? = some w :=
    Segment.new?_of_mem_splices (s := p.segment) (hsplices ▸ hperm.mem_iff.2 hw) hne
  rw [Patch.result]
  cases hword : p.word? with
  | some w =>
    -- the only splice for the place is the one with the name
    rw [heq w]
    rw [← hperm.mem_iff, ← hsplices, Segment.splices_append, Segment.splices,
      show p.segment.new? = some w from hword]
    exact List.mem_append_right _ List.mem_cons_self
  | none =>
    have hslice := hmem.resolve_left fun hin ↦ by
      rw [hnew hin] at hword
      cases hword
    have htext := h.text
    have halong := h.along.heads
    rw [List.flatMap_append, List.flatMap_cons] at htext halong
    have hsame := Text.slice?_append (front ++ join ((ps₁.map Patch.toGroup).flatMap Group.lexemes))
      (join p.lexemes) (join ((ps₂.map Patch.toGroup).flatMap Group.lexemes) ++ back)
    rw [show _ ++ _ = file.text by rw [htext]; simp, Text.size_append, List.flatMap_map,
      ← join_segments, hslice] at hsame
    rw [along_append, along_append] at halong
    exact eq_of_join_eq halong.2.1 (p.words hg).2 (Option.some.inj hsame).symm hidentifier

/-- In the place of a group stands the name, with lexemes around it behind which dots stand where
they stood. -/
theorem Renaming.exists_showsBetween
    (h : Renaming file front (front' ++ g :: behind) back splices) (hg : g.named = true)
    (hname : Named file.text splices
      ⟨front.size + (join (front'.flatMap Group.lexemes)).size, (join g.lexemes).size⟩ name) :
    ∃ xs ys, Along Loose (xs ++ ⟨.word, name⟩ :: ys) [] ∧
      dotBehind false xs = dotBehind false (front'.flatMap Group.lexemes) ∧
      ((copy file 0 file.text).splice
        ⟨front.size, (join ((front' ++ g :: behind).flatMap Group.lexemes)).size⟩
        splices).ShowsBetween file
          ⟨front.size + (join (front'.flatMap Group.lexemes)).size, (join g.lexemes).size⟩
          (join xs) name (join ys) := by
  obtain ⟨ps₁, p, ps₂, rfl, rfl, rfl, hsplices, hresult⟩ := h.exists_patches hg hname
  have hlexemes : (ps₁.map Patch.toGroup ++ p.toGroup :: ps₂.map Patch.toGroup).flatMap
      Group.lexemes = (ps₁ ++ p :: ps₂).flatMap fun p ↦ p.lexemes := by
    rw [← List.map_cons, ← List.map_append, List.flatMap_map]
  have halong := h.along
  have htext := h.text
  rw [hlexemes] at halong htext ⊢
  rw [List.flatMap_map]
  refine ⟨ps₁.flatMap Patch.result, ps₂.flatMap Patch.result, ?_, dotBehind_result false ps₁, ?_⟩
  · have hloose := (Patch.along_result halong).1
    rwa [List.flatMap_append, List.flatMap_cons, hresult] at hloose
  · -- the patches are segments of the file, of which one shows the name
    have hsegments : (ps₁ ++ p :: ps₂).map Patch.segment =
        ps₁.map Patch.segment ++ p.segment :: ps₂.map Patch.segment := by simp
    have hshown : p.segment.shown = name := by
      rw [p.shown_segment, hresult, join_cons, join_nil, List.append_nil]
    rw [← join_segments] at htext
    have hcopied : (copy file 0 file.text).text = _ := htext
    rw [← join_segments (ps₁ ++ p :: ps₂), ← join_segments ps₁,
      splice_of_segments hcopied hsplices.symm]
    rw [hsegments] at hcopied htext ⊢
    rw [← hshown, ← shown_segments, ← shown_segments]
    refine showsBetween_patched hcopied (fun s hs hnew ↦ ?_) ?_ ?_ ?_
    · rw [← hsegments] at hs
      obtain ⟨q, hq, rfl⟩ := List.mem_map.1 hs
      obtain ⟨w, hw⟩ := Option.isSome_iff_exists.1 hnew
      refine h.join_ne_nil (g := q.toGroup) ?_ (q.fits w hw).1
      rw [← List.map_cons, ← List.map_append]
      exact List.mem_map_of_mem hq
    · -- in front of the place, at the place and behind it
      exact (from_slice_copy file _).mono (Nat.zero_le _) (by simp [Span.stop])
    · exact from_slice_copy file _
    · refine (from_slice_copy file _).mono (Nat.le_refl _) ?_
      have hsize := congrArg Text.size htext
      have hold : p.segment.old = join p.lexemes := rfl
      rw [Segment.join_append, Segment.join_cons, Text.size_append, Text.size_append,
        Text.size_append, Text.size_append, hold] at hsize
      rw [hold]
      simp only [Span.stop, Span.between]
      omega

/-- Replacing words in a text puts the segments of its lexemes together. -/
theorem splice_replacements {tr : Traced} {xs : List Lexeme} {tokens : List Token}
    (htext : tr.text = join xs) (halong : Along Heads xs [])
    (htokens : tokenize tr.text = .ok tokens)
    (table : String → Option Text) :
    tr.text = [] ++ Segment.join (wordSegments table false xs) ++ [] ∧
      tr.splice tr.text.span (replacements table tr.text) =
        tr.patched 0 (wordSegments table false xs) := by
  have hwords : tr.text = [] ++ Segment.join (wordSegments table false xs) ++ [] := by
    rw [join_wordSegments, htext]
    simp
  have hsplice := splice_of_segments hwords (Segment.sortBy_splices _ _)
  rw [join_wordSegments, ← htext, Text.size_nil, splices_wordSegments,
    ← tokens_eq_of_tokenize halong (htext ▸ htokens)] at hsplice
  rw [replacements, htokens]
  exact ⟨hwords, hsplice⟩

/-- Where words are replaced, in the place of a word stands its replacement, if it has one and no
dot stands in front. -/
theorem ShowsBetween.shows_words {tr : Traced} {place : Span} {xs ys : List Lexeme}
    (h : tr.ShowsBetween file place (join xs) name (join ys))
    (halong : Along Heads (xs ++ ⟨.word, name⟩ :: ys) []) {tokens : List Token}
    (htokens : tokenize tr.text = .ok tokens) (table : String → Option Text) :
    (tr.splice tr.text.span (replacements table tr.text)).Shows file place
      ((if dotBehind false xs then none else table (String.ofList name)).getD name) := by
  have htext : tr.text = join (xs ++ ⟨.word, name⟩ :: ys) := by
    obtain ⟨a, b, c, rfl, ha, hb, hc, -⟩ := h
    simp [ha, hb, hc]
  have hsegments := wordSegments_append table false xs (⟨.word, name⟩ :: ys)
  rw [(splice_replacements htext halong htokens table).2, hsegments, wordSegments]
  have hshown : (if dotBehind false xs then none else table (String.ofList name)).getD name =
      Segment.shown ⟨name, replacement? table (dotBehind false xs) ⟨.word, name⟩⟩ := by
    rw [Segment.shown, replacement?]
    cases dotBehind false xs <;> rfl
  rw [hshown]
  refine h.patched (join_wordSegments _ _ _) rfl (join_wordSegments _ _ _) fun s hs _ hnil ↦ ?_
  obtain ⟨x, hx, hold⟩ := old_mem_of_mem_wordSegments _ _ (hsegments ▸ hs)
  obtain ⟨before, after, hsplit⟩ := List.append_of_mem hx
  rw [hsplit] at halong
  exact (along_append.1 halong).2.1.ne_nil (hold.symm.trans hnil)

/-- The name is what stands in the place in the end, unless it has a value of its own. Where a dot
stands in front, or the renamed text has no tokens, values do not matter. -/
theorem Renaming.shows_excerpt_iff
    (h : Renaming file front (front' ++ g :: behind) back splices) (hg : g.named = true)
    (hname : Named file.text splices
      ⟨front.size + (join (front'.flatMap Group.lexemes)).size, (join g.lexemes).size⟩ name)
    (args : Args) {bounds : Span}
    (hbounds : bounds = ⟨front.size, (join ((front' ++ g :: behind).flatMap Group.lexemes)).size⟩) :
    ((copy file 0 file.text).excerpt bounds splices args).Shows file
        ⟨front.size + (join (front'.flatMap Group.lexemes)).size, (join g.lexemes).size⟩ name ↔
      ∀ tokens value, tokenize ((copy file 0 file.text).splice bounds splices).text = .ok tokens →
        dotBehind false (front'.flatMap Group.lexemes) = false →
        (OrderedMap.ofList args).get? (String.ofList name) = some value → value.toList = name := by
  subst hbounds
  obtain ⟨xs, ys, halong, hdot, hcut⟩ := h.exists_showsBetween hg hname
  rw [← hdot, excerpt]
  generalize (copy file 0 file.text).splice _ splices = cut at hcut ⊢
  generalize (⟨_, _⟩ : Span) = place at hcut ⊢
  by_cases hnone : args.isEmpty = true
  · rw [if_pos hnone]
    obtain rfl := List.isEmpty_iff.1 hnone
    refine ⟨fun _ _ value _ _ hvalue ↦ ?_, fun _ ↦ ⟨_, _, hcut⟩⟩
    cases hvalue
  · rw [if_neg hnone]
    cases htokens : tokenize cut.text with
    | error e =>
      -- a text without tokens is left as it is
      have hsame : cut.splice cut.text.span [] = cut := by
        show cut.slice (Span.between cut.text.span.start cut.text.span.stop) = cut
        rw [Span.between, Text.span, Span.stop, Nat.zero_add]
        exact cut.slice_span
      rw [replacements, htokens, hsame]
      refine ⟨fun _ _ _ heq ↦ ?_, fun _ ↦ ⟨_, _, hcut⟩⟩
      cases heq
    | ok tokens =>
      have hshows := hcut.shows_words halong.heads htokens
        fun word ↦ ((OrderedMap.ofList args).get? word).map String.toList
      constructor
      · intro hname' tokens' value _ hbehind hvalue
        have heq := hshows.unique hname'
        rwa [hbehind, hvalue] at heq
      · intro hall
        refine (congrArg (Shows file place · _) ?_).mp hshows
        split
        · rfl
        · rename_i hbehind
          cases hvalue : (OrderedMap.ofList args).get? (String.ofList name) with
          | none => rfl
          | some value => exact hall _ value rfl (Bool.eq_false_iff.2 hbehind) hvalue

end Traced

end ShaderLink
