import ShaderLink.Link.Excerpt
import ShaderLink.Proofs.Grammar.Reads
import ShaderLink.Proofs.Module.Splices
import ShaderLink.Proofs.Provenance.Conditional
import ShaderLink.Proofs.Provenance.Splice
import ShaderLink.Splice

/-!
# Excerpts keep provenance

A module is **sound** if its elements are in order and its map leads rightly from the text that was
parsed to the source. Parsing only makes sound modules. An excerpt of a sound module with splices
that suit it can always be made, and its map leads to the source through conditional lines, splices
and the values of parameters. The latter are put in the place of words. Words are tokens, and tokens
stand one behind the other, so that this can always be done.
-/

namespace ShaderLink

/-! ### Replacing words -/

/-- The tokens of a text stand in it one behind the other. -/
theorem ascending_tokenize {t : Text} {tokens : List Token} (h : tokenize t = .ok tokens) :
    t.Ascending 0 (tokens.map Token.span) t.size := by
  simp only [tokenize] at h
  split at h
  · rename_i tokens' c' e hrun
    obtain rfl := Except.ok.inj h
    have hreads := (Parser.Yields.of_run hrun).many.reads (t := t)
      (fun token ↦ [token.span]) fun _ _ _ htoken ↦ htoken.reads_token
    obtain ⟨hin, hascending⟩ := hreads (Cursor.In.start t)
    rw [← List.map_eq_flatMap] at hascending
    exact hascending.weaken le_rfl hin.isBoundary.le_size
  · cases h
  · cases h

/-- Only tokens are replaced, each at most once. -/
theorem sublist_wordSplices (table : String → Option Text) (behindDot : Bool)
    (tokens : List Token) :
    ((wordSplices table behindDot tokens).map Splice.span).Sublist (tokens.map Token.span) := by
  induction tokens generalizing behindDot with
  | nil => exact .refl _
  | cons token tokens ih =>
    rw [wordSplices]
    split
    · exact (ih _).cons_cons token.span
    · exact (ih _).cons token.span

/-- The splices that replace the words of a text. -/
def replacements (table : String → Option Text) (t : Text) : List Splice :=
  match tokenize t with
  | .ok tokens => wordSplices table false tokens
  | .error _ => []

/-- Words are replaced by splices. -/
theorem replaceWords_eq (table : String → Option Text) (t : Text) (source : SourceId) :
    replaceWords table t source = Splice.applyAll t source (replacements table t) none := by
  rw [replaceWords, replacements]
  cases tokenize t <;> rfl

namespace Splice

/-- Splices in order suit the text. -/
theorem Suit.of_ascending {t : Text} {bounds : Span} {splices : List Splice}
    (hstart : t.IsBoundary bounds.start) (hstop : t.IsBoundary bounds.stop)
    (h : t.Ascending bounds.start (splices.map Splice.span) bounds.stop) :
    Suit t bounds splices where
  start := hstart
  stop := hstop
  fits _ hs := h.fits _ (List.mem_map_of_mem hs)
  inside _ hs := h.inside _ (List.mem_map_of_mem hs)
  apart := (List.pairwise_map.1 h.ordered).imp .inl

/-- Replacing words suits every text. -/
theorem suit_replacements (table : String → Option Text) (t : Text) :
    Suit t t.span (replacements table t) := by
  have hstop : t.IsBoundary t.span.stop := by
    rw [Text.span, Span.stop, Nat.zero_add]
    exact t.isBoundary_size
  refine Suit.of_ascending t.isBoundary_zero hstop ?_
  rw [Text.span, Span.stop, Nat.zero_add]
  cases htokens : tokenize t with
  | ok tokens =>
    rw [replacements, htokens]
    exact (ascending_tokenize htokens).sublist (sublist_wordSplices table false tokens)
  | error e =>
    rw [replacements, htokens]
    exact .nil (Nat.zero_le _)

end Splice

/-! ### Modules -/

namespace Module

/-- The source of a module as a text that maps lead into. -/
def file (m : Module) : SourceText :=
  ⟨m.sourceId, m.source⟩

/-- The parsed text, as what conditional lines leave of the source. -/
def traced (conditions : String → Bool) (m : Module) : Traced :=
  Conditional.traced conditions m.file

/-- The elements of the module are in order, and its map traces the parsed text. -/
structure Sound (m : Module) (tr : Traced) : Prop where
  inOrder : m.InOrder
  exact : m.map.Exact
  traces : m.map.Traces tr
  inFile : tr.InFile m.file
  faithful : tr.Faithful

variable {m : Module} {tr : Traced}

/-- The text of a module is what its conditions leave of its file. -/
theorem sound_of_parse {options : ParseOptions} {file : String} {source : Text}
    (h : parse options file source = .ok m) : m.Sound (m.traced options.conditions) := by
  have hlayout := elementsInOrder_of_parse h
  obtain ⟨items, c', e, -, rfl⟩ := exists_items h
  obtain ⟨hexact, htraces, -⟩ := Conditional.traces_process options.conditions ⟨⟨file⟩, source⟩
  exact ⟨hlayout, hexact, htraces, (Conditional.copied_traced _ _).inFile,
    Conditional.faithful_traced _ _⟩

theorem Sound.text_eq (h : m.Sound tr) : m.text = tr.text :=
  h.traces.text

end Module

namespace Traced

/-- The part of a text in the bounds, with splices applied and words replaced by the values of
parameters. -/
def excerpt (tr : Traced) (bounds : Span) (splices : List Splice) (args : Args) : Traced :=
  let cut := tr.splice bounds splices
  if args.isEmpty then cut
  else cut.splice cut.text.span (replacements
    (fun word ↦ ((OrderedMap.ofList args).get? word).map String.toList) cut.text)

variable {tr : Traced} {file : SourceText} {bounds : Span} {splices : List Splice}

/-- A text that is spliced comes from the file that it came from. -/
theorem InFile.splice (h : tr.InFile file) (hsplices : Splice.Suit tr.text bounds splices) :
    (tr.splice bounds splices).InFile file :=
  h.spliced fun s hs ↦ hsplices.fits s ((sortBy_perm Splice.before splices).mem_iff.1 hs)

/-- It goes on to say the truth about its copies. -/
theorem Faithful.splice (h : tr.Faithful) (hfile : tr.InFile file)
    (hsplices : Splice.Suit tr.text bounds splices) : (tr.splice bounds splices).Faithful :=
  h.spliced hfile fun s hs ↦ hsplices.fits s ((sortBy_perm Splice.before splices).mem_iff.1 hs)

/-- An excerpt comes from the file of the module, -/
theorem InFile.excerpt (h : tr.InFile file) (hsplices : Splice.Suit tr.text bounds splices)
    (args : Args) : (tr.excerpt bounds splices args).InFile file := by
  rw [Traced.excerpt]
  split
  · exact h.splice hsplices
  · exact (h.splice hsplices).splice (Splice.suit_replacements _ _)

/-- and it says the truth about its copies. -/
theorem Faithful.excerpt (h : tr.Faithful) (hfile : tr.InFile file)
    (hsplices : Splice.Suit tr.text bounds splices) (args : Args) :
    (tr.excerpt bounds splices args).Faithful := by
  have hcut := h.splice hfile hsplices
  rw [Traced.excerpt]
  split
  · exact hcut
  · exact hcut.splice (hfile.splice hsplices) (Splice.suit_replacements _ _)

end Traced

namespace SourceMap

variable {inner : SourceMap} {tr : Traced} {file : SourceText}

/-- Splicing the text of a map and merging with the map leads back all the way. -/
theorem exists_merge_applyAll (hexact : inner.Exact) (htraces : inner.Traces tr)
    (hfile : tr.InFile file) {bounds : Span} {splices : List Splice}
    (hsplices : Splice.Suit tr.text bounds splices) (given : Option Span)
    (hgiven : given.getD tr.text.span = bounds) :
    ∃ outer m, Splice.applyAll inner.text inner.id splices given = .ok outer ∧
      inner.merge outer = .ok m ∧ m.Exact ∧ m.Traces (tr.splice bounds splices) := by
  obtain ⟨outer, houter, -, hthrough⟩ := exists_applyAll hfile hsplices hgiven inner.id
  obtain ⟨m, hm, -, hexact', htraces'⟩ := exists_merge hexact htraces hthrough
  rw [← htraces.text] at houter
  exact ⟨outer, m, houter, hm, hexact', htraces'⟩

end SourceMap

namespace Module

variable {m : Module} {tr : Traced} {span : Span} {splices : List Splice}

/-- An excerpt of a sound module can be made and traces the excerpt of its text. -/
theorem Sound.exists_excerpt (h : m.Sound tr) (hsplices : Splice.Suit m.text span splices)
    (args : Args) : ∃ map, m.excerpt span splices args = .ok map ∧ map.Exact ∧
      map.Traces (tr.excerpt span splices args) := by
  rw [h.text_eq] at hsplices
  obtain ⟨outer, mapped, houter, hmapped, hexact, htraces⟩ :=
    SourceMap.exists_merge_applyAll h.exact h.traces h.inFile hsplices (some span) rfl
  have hcut : Splice.applyAll m.text m.map.id splices (some span) = .ok outer := houter
  by_cases hargs : args.isEmpty
  · refine ⟨mapped, ?_, hexact, ?_⟩
    · simp only [Module.excerpt, hcut, hmapped, hargs, Bind.bind, Except.bind, if_true]
      rfl
    · rwa [Traced.excerpt, if_pos hargs]
  · obtain ⟨outer', map, houter', hmap, hexact', htraces'⟩ :=
      SourceMap.exists_merge_applyAll hexact htraces (h.inFile.splice hsplices)
        (Splice.suit_replacements
          (fun word ↦ ((OrderedMap.ofList args).get? word).map String.toList) _)
        none rfl
    refine ⟨map, ?_, hexact', ?_⟩
    · rw [← htraces.text, ← replaceWords_eq] at houter'
      simp only [Module.excerpt, hcut, hmapped, hargs, Bind.bind, Except.bind]
      rw [if_neg (by simp), houter']
      exact hmap
    · rwa [Traced.excerpt, if_neg hargs]

end Module

end ShaderLink
