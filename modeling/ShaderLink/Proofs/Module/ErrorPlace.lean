import ShaderLink.Proofs.Module.StepLimit
import ShaderLink.Proofs.Provenance.Order

/-!
# Where parse errors point

An error is reported at the furthest token that was found. Such a token has a first character, which
stands in one of the lines that are kept (`Conditional.exists_kept_line`), so the error points to
the same character in the text as written (`Module.parse_error_place`).
-/

namespace ShaderLink

/-! ### The furthest token -/

/-- The furthest token that lexings find, or the start of the text. -/
def furthest (log : List Lexing) : Nat :=
  (log.filterMap Lexing.found?).foldl max 0

/-- A token that is found has a first character. -/
theorem Lexing.exists_first {x : Lexing} {t : Text} {n : Nat} (hx : x.place.In t)
    (h : n ∈ x.found?) : ∃ front c rest, t = front ++ c :: rest ∧ Text.size front = n := by
  obtain ⟨front, rfl, hsize⟩ := hx
  rw [found?] at h
  split at h
  · rename_i token next hlex
    split at h
    · cases h
    · obtain rfl := Option.some.inj h
      obtain ⟨lexeme, hrest, hne, -⟩ := Lexicon.passes_of_lex hlex
      obtain ⟨c, lexeme, rfl⟩ := List.exists_cons_of_ne_nil hne
      exact ⟨front, c, lexeme ++ next.rest, by rw [hrest, List.cons_append], hsize⟩
  · cases h

/-- What is furthest is a start, or nothing has been found. -/
theorem foldl_max_mem_cons (n : Nat) (ns : List Nat) : ns.foldl max n ∈ n :: ns := by
  induction ns generalizing n with
  | nil => exact List.mem_singleton_self n
  | cons m ns ih =>
    rw [List.foldl_cons]
    rcases List.mem_cons.1 (ih (max n m)) with h | h
    · rw [h]
      rcases max_choice n m with h | h <;> simp [h]
    · exact List.mem_cons_of_mem _ (List.mem_cons_of_mem _ h)

/-- A character stands at the furthest token, if there is any in the text. -/
theorem exists_first_furthest {t : Text} {log : List Lexing} (hlog : ∀ x ∈ log, x.place.In t) :
    (t = [] ∧ furthest log = 0) ∨
      ∃ front c rest, t = front ++ c :: rest ∧ Text.size front = furthest log := by
  rcases List.mem_cons.1 (foldl_max_mem_cons 0 (log.filterMap Lexing.found?)) with hzero | hmem
  · cases t with
    | nil => exact .inl ⟨rfl, hzero⟩
    | cons c rest => exact .inr ⟨[], c, rest, rfl, hzero.symm⟩
  · obtain ⟨x, hx, hfound⟩ := List.mem_filterMap.1 hmem
    exact .inr (Lexing.exists_first (hlog x hx) hfound)

/-- What a run reports as the furthest token is the furthest one that its lexings find. -/
theorem Parser.Follows.furthest_run {α : Type} {p : Parser α} {t : Text} {log : List Lexing}
    {o : Outcome α} (h : p.Follows (t.size + 1) (.start t) log o) (steps : Nat) :
    (p.run steps t).2.furthest = furthest (log.take steps) := by
  rcases Nat.lt_or_ge steps log.length with hlt | hge
  · obtain ⟨notes, -, hrun⟩ := h.exists_run_of_lt hlt
    rw [hrun]
    rfl
  · rw [h.run_of_le hge, List.take_of_length_le hge]
    rfl

/-! ### Characters of kept lines -/

namespace Conditional

variable {conditions : String → Bool} {t : Text} {kept before behind : List (Nat × Text)}
  {line : Nat × Text} {front left right rest : Text} {c : Char}

/-- A character of lines put together is one of a line. -/
theorem exists_line_of_flatten (h : (kept.map Prod.snd).flatten = front ++ c :: rest) :
    ∃ before line behind left right, kept = before ++ line :: behind ∧ line.2 = left ++ c :: right ∧
      front = (before.map Prod.snd).flatten ++ left := by
  induction kept generalizing front with
  | nil => cases front <;> cases h
  | cons line kept ih =>
    rw [List.map_cons, List.flatten_cons, List.append_eq_append_iff] at h
    rcases h with ⟨front', rfl, hkept⟩ | ⟨right, hline, hrest⟩
    · obtain ⟨before, line', behind, left, right, rfl, hline', rfl⟩ := ih hkept
      exact ⟨line :: before, line', behind, left, right, rfl, hline', by simp⟩
    · cases right with
      | nil =>
        have hkept : (kept.map Prod.snd).flatten = [] ++ c :: rest := hrest.symm
        obtain ⟨before, line', behind, left, right, rfl, hline', hleft⟩ := ih hkept
        refine ⟨line :: before, line', behind, left, right, rfl, hline', ?_⟩
        rw [List.map_cons, List.flatten_cons, List.append_assoc, ← hleft, hline, List.append_nil,
          List.append_nil]
      | cons d right =>
        obtain ⟨rfl, -⟩ := List.cons.inj hrest
        exact ⟨[], line, kept, front, right, rfl, hline, rfl⟩

theorem length_keptOffsets (kept : List (Nat × Text)) :
    (keptOffsets kept).length = Text.size (kept.map Prod.snd).flatten := by
  have hlength := (Traced.lines ⟨⟨""⟩, []⟩ kept).length_origins
  rwa [origins_lines, List.length_map, text_lines] at hlength

/-- The offset of a character among lines is its offset in its line. -/
theorem getElem?_keptOffsets (h : line.2 = left ++ c :: right) :
    (keptOffsets (before ++ line :: behind))[Text.size ((before.map Prod.snd).flatten ++ left)]? =
      some (line.1 + left.size) := by
  have hlt : left.size < line.2.size := by
    have hpos := c.utf8Size_pos
    rw [h, Text.size_append, Text.size_cons]
    omega
  rw [keptOffsets, List.flatMap_append, List.flatMap_cons, ← keptOffsets, Text.size_append,
    ← length_keptOffsets, List.getElem?_append_right (Nat.le_add_right _ _),
    Nat.add_sub_cancel_left, List.getElem?_append_left (by rwa [List.length_range']),
    List.getElem?_range' hlt, Nat.one_mul]

/-- A character of a processed text is one of a kept line, and comes from where it is in it. -/
theorem exists_kept_line {source : SourceId}
    (h : (process conditions source t).map.text = front ++ c :: rest) :
    ∃ ls line ls' left right, t.lines = ls ++ line :: ls' ∧
      (Text.size ls.flatten, line) ∈ (read conditions t).kept ∧ line = left ++ c :: right ∧
      (process conditions source t).map.originOffset front.size =
        Text.size (ls.flatten ++ left) := by
  rw [(traces_process conditions ⟨source, t⟩).2.1.text, traced, text_lines] at h
  obtain ⟨before, ⟨offset, line⟩, behind, left, right, hkept, hline, rfl⟩ :=
    exists_line_of_flatten h
  have horigin := origin?_process conditions source t (hkept ▸ getElem?_keptOffsets hline)
  have hmem : (offset, line) ∈ (read conditions t).kept :=
    hkept ▸ List.mem_append_right _ List.mem_cons_self
  obtain ⟨ls, ls', hlines, rfl⟩ := exists_lines_of_mem_kept hmem
  refine ⟨ls, line, ls', left, right, hlines, hmem, hline, ?_⟩
  rw [SourceMap.originOffset, horigin]
  exact (Text.size_append _ _).symm

/-- Where there is nothing left, the place is the start of the text. -/
theorem originOffset_of_nil {source : SourceId} (h : (process conditions source t).map.text = []) :
    (process conditions source t).map.originOffset 0 = 0 := by
  obtain ⟨htiled, hpos⟩ := (traces_process conditions ⟨source, t⟩).1
  have hnone : (process conditions source t).map.entries = [] := by
    refine List.eq_nil_iff_forall_not_mem.2 fun e he ↦ ?_
    have hbounds := Tiles.bounds htiled he
    have hsize := hpos e he
    rw [h, Text.size_nil, Span.stop] at hbounds
    omega
  simp [SourceMap.originOffset, SourceMap.origin?, SourceMap.entryAt?, hnone]

end Conditional

/-! ### Reports -/

namespace ParseError

/-- The error says where in the text it is, by offset and by position, and what stands there. -/
structure Shows (error : ParseError) (t : Text) : Prop where
  isBoundary : t.IsBoundary error.offset
  le_size : error.offset ≤ t.size
  position_eq : error.position = t.position error.offset
  excerpt : ∃ before behind, t = before ++ (error.excerpt.toList ++ behind) ∧
    Text.size before = error.offset
  oneLine : '\n' ∉ error.excerpt.toList
  length_le : error.excerpt.length ≤ 40

/-- An excerpt is the beginning of what stands there, without line feeds and not too long. -/
theorem exists_excerptAt {t : Text} {offset : Nat} (h : t.IsBoundary offset) :
    ∃ before behind, t = before ++ (excerptAt t offset ++ behind) ∧ Text.size before = offset ∧
      '\n' ∉ excerptAt t offset ∧ (excerptAt t offset).length ≤ excerptLength := by
  obtain ⟨before, rest, rfl, rfl⟩ := h
  have hexcerpt : excerptAt (before ++ rest) before.size =
      (Text.trimEnd (rest.takeWhile (· ≠ '\n'))).take excerptLength := by
    rw [excerptAt, Text.splitAt?_append]
  obtain ⟨blanks, hblanks⟩ := Text.exists_trimEnd (rest.takeWhile (· ≠ '\n'))
  have hprefix : excerptAt (before ++ rest) before.size <+: rest := by
    rw [hexcerpt]
    exact (List.take_prefix _ _).trans
      (List.IsPrefix.trans ⟨blanks, hblanks.symm⟩ (List.takeWhile_prefix _))
  obtain ⟨behind, hbehind⟩ := hprefix
  refine ⟨before, behind, by rw [hbehind], rfl, fun hmem ↦ ?_, ?_⟩
  · rw [hexcerpt] at hmem
    have hline := Text.mem_of_mem_trimEnd (List.mem_of_mem_take hmem)
    simpa using List.mem_takeWhile_imp hline
  · rw [hexcerpt]
    exact List.length_take_le _ _

/-- A report shows the place that its furthest token comes from. -/
theorem shows_report {file : String} {t : Text} {map : SourceMap} {limit : Nat} {effort : Effort}
    {notes : List Note} (h : t.IsBoundary (map.originOffset effort.furthest)) :
    (report file t map limit effort notes).Shows t ∧
      (report file t map limit effort notes).offset = map.originOffset effort.furthest := by
  have hoffset : (report file t map limit effort notes).offset = map.originOffset effort.furthest :=
    Nat.min_eq_left h.le_size
  have hexcerpt : (report file t map limit effort notes).excerpt.toList =
      excerptAt t (report file t map limit effort notes).offset := String.toList_ofList
  rw [← hoffset] at h
  obtain ⟨before, behind, htext, hsize, hline, hlength⟩ := exists_excerptAt h
  rw [← hexcerpt] at htext hline hlength
  exact ⟨⟨h, h.le_size, rfl, ⟨before, behind, htext, hsize⟩, hline, hlength⟩, hoffset⟩

end ParseError

namespace Module

variable {options : ParseOptions} {file : String} {source : Text}

/-- An error shows its place in the text as written. Unless no line is left, this is in a line that
is kept, at the character that stands in the parsed text where the furthest token was found. -/
theorem parse_error_place {error : ParseError} (h : parse options file source = .error error) :
    error.Shows source ∧
    ∃ log o, Parser.items.Follows ((keptText options.conditions file source).size + 1)
        (.start (keptText options.conditions file source)) log o ∧
      (∀ x ∈ log, x.place.In (keptText options.conditions file source)) ∧
      (keptText options.conditions file source ≠ [] →
        ∃ ls line ls' left c right front rest,
          source.lines = ls ++ line :: ls' ∧
          (Text.size ls.flatten, line) ∈ (Conditional.read options.conditions source).kept ∧
          line = left ++ c :: right ∧ error.offset = Text.size (ls.flatten ++ left) ∧
          keptText options.conditions file source = front ++ c :: rest ∧
          Text.size front = furthest (log.take options.maxSteps)) := by
  obtain ⟨log, o, hfollows, hlog, -⟩ := Parser.metered_items
    ((keptText options.conditions file source).size + 1) _
    (Cursor.In.start (keptText options.conditions file source))
  obtain ⟨o', effort, notes, houtcome, -, rfl⟩ := exists_failure_of_parse h
  have hfurthest : effort.furthest = furthest (log.take options.maxSteps) := by
    rw [← hfollows.furthest_run]
    exact congrArg (fun r ↦ r.2.furthest) houtcome.symm
  -- nothing is kept of the text, or the furthest token starts with a character that is
  rcases exists_first_furthest fun x hx ↦ hlog x (List.mem_of_mem_take hx) with
    ⟨hnil, hzero⟩ | ⟨front, c, rest, htext, hfront⟩
  · have horigin : (Conditional.process options.conditions ⟨file⟩ source).map.originOffset
        effort.furthest = 0 := by
      rw [hfurthest, hzero]
      exact Conditional.originOffset_of_nil hnil
    obtain ⟨hshows, -⟩ := ParseError.shows_report ⟨[], source, rfl, horigin.symm⟩
    exact ⟨hshows, log, o, hfollows, hlog, fun hne ↦ absurd hnil hne⟩
  · obtain ⟨ls, line, ls', left, right, hlines, hkept, hline, horigin⟩ :=
      Conditional.exists_kept_line htext
    rw [hfront, ← hfurthest] at horigin
    have hsource : source = (ls.flatten ++ left) ++ (c :: right ++ ls'.flatten) := by
      rw [← Text.flatten_lines source, hlines, hline]
      simp
    obtain ⟨hshows, hoffset⟩ := ParseError.shows_report ⟨_, _, hsource, horigin.symm⟩
    exact ⟨hshows, log, o, hfollows, hlog, fun _ ↦ ⟨ls, line, ls', left, c, right, front, rest,
      hlines, hkept, hline, hoffset.trans horigin, htext, hfront⟩⟩

/-- The name of a function that is no name, behind lines that are not kept. -/
theorem parse_error_place_name :
    ∃ error, parse .default "main"
        "// é\n#if a\nfn g( \x7b \x7d\n#else\nfn 1() \x7b \x7d\n#endif\n".toList = .error error ∧
      error.offset = 31 ∧
      error.Shows "// é\n#if a\nfn g( \x7b \x7d\n#else\nfn 1() \x7b \x7d\n#endif\n".toList ∧
      ∃ line ∈ (Conditional.read (fun _ ↦ false)
          "// é\n#if a\nfn g( \x7b \x7d\n#else\nfn 1() \x7b \x7d\n#endif\n".toList).kept,
        line.1 ≤ error.offset ∧ error.offset < line.1 + line.2.size := by
  have hfailure : (outcome .default "main"
      "// é\n#if a\nfn g( \x7b \x7d\n#else\nfn 1() \x7b \x7d\n#endif\n".toList).1.failure? =
        some [.expected "function name"] := by decide +kernel
  have hparse := parse_of_failure (Prod.eta _).symm hfailure
  obtain ⟨hshows, log, o, -, -, hkept⟩ := parse_error_place hparse
  obtain ⟨ls, line, -, left, c, right, -, -, -, hmem, rfl, hoffset, -⟩ := hkept (by decide +kernel)
  refine ⟨_, hparse, by decide +kernel, hshows, _, hmem, ?_⟩
  rw [hoffset, Text.size_append, Text.size_append, Text.size_cons]
  have hpos := c.utf8Size_pos
  exact ⟨Nat.le_add_right _ _, by dsimp only; omega⟩

end Module

end ShaderLink
