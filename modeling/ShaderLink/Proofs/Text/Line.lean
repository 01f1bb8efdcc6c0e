import Mathlib.Data.List.Basic
import ShaderLink.Text.Blank

/-!
# Trimming and lines

Trimming a text and cutting it into lines leave parts of it. What stands in front of a text, and has
no blanks at its end and no line feeds in it, does not matter to either. A line is known by where
its first visible character stands (`Text.LineAt`).
-/

namespace ShaderLink

namespace Text

variable {t : Text} {c : Char}

/-! ### Trimming -/

theorem mem_of_mem_trimEnd (h : c ∈ t.trimEnd) : c ∈ t := by
  have hmem := (List.dropWhile_sublist _).subset (List.mem_reverse.1 h)
  exact List.mem_reverse.1 hmem

theorem mem_of_mem_trim (h : c ∈ t.trim) : c ∈ t :=
  (List.dropWhile_sublist _).subset (mem_of_mem_trimEnd h)

theorem dropPrefix?_eq_some_iff {start : String} {rest : Text} :
    t.dropPrefix? start = some rest ↔ t = start.toList ++ rest := by
  rw [dropPrefix?]
  split
  · rename_i hprefix
    obtain ⟨rest', rfl⟩ := List.isPrefixOf_iff_prefix.1 hprefix
    rw [List.drop_left, Option.some_inj, List.append_cancel_left_eq]
  · rename_i hnot
    refine iff_of_false nofun fun heq ↦ hnot ?_
    rw [heq]
    exact List.isPrefixOf_iff_prefix.2 (List.prefix_append _ _)

theorem mem_of_mem_dropPrefix? {start : String} {rest : Text} (h : t.dropPrefix? start = some rest)
    (hc : c ∈ rest) : c ∈ t := by
  rw [dropPrefix?_eq_some_iff.1 h]
  exact List.mem_append_right _ hc

/-- Blanks behind visible characters are trimmed as they would be by themselves. -/
theorem trimEnd_append {s : Text} (h : s.any isBlank = false) (t : Text) :
    trimEnd (s ++ t) = s ++ trimEnd t := by
  have hs : s.reverse.dropWhile isBlank = s.reverse := by
    cases hr : s.reverse with
    | nil => rfl
    | cons c r =>
      have hc : c ∈ s := List.mem_reverse.1 (hr ▸ List.mem_cons_self)
      rw [List.dropWhile_cons_of_neg (List.any_eq_false.1 h c hc)]
  rw [trimEnd, trimEnd, List.reverse_append, List.dropWhile_append]
  split
  · rename_i hempty
    rw [hs, List.reverse_reverse, List.isEmpty_iff.1 hempty, List.reverse_nil, List.append_nil]
  · rw [List.reverse_append, List.reverse_reverse]

/-- Trimming the end leaves the beginning. -/
theorem exists_trimEnd (t : Text) : ∃ s, t = t.trimEnd ++ s := by
  obtain ⟨s, hs⟩ := List.dropWhile_suffix (l := t.reverse) isBlank
  exact ⟨s.reverse, by rw [trimEnd, ← List.reverse_append, hs, List.reverse_reverse]⟩

/-- The text starts as before, if anything is left. -/
theorem head?_trimEnd (h : t.trimEnd ≠ []) : t.trimEnd.head? = t.head? := by
  obtain ⟨s, hsplit⟩ := exists_trimEnd t
  obtain ⟨c, u, hu⟩ := List.exists_cons_of_ne_nil h
  rw [hu] at hsplit ⊢
  rw [hsplit]
  rfl

/-- Dropping characters of a class from the end takes what consists of them. -/
theorem reverse_dropWhile_append {p : Char → Bool} {s t : Text} (ht : ∀ c ∈ t, p c = true)
    (hs : ∀ c ∈ s.getLast?, p c = false) : ((s ++ t).reverse.dropWhile p).reverse = s := by
  rw [List.reverse_append,
    List.dropWhile_append_of_pos fun c hc ↦ ht c (List.mem_reverse.1 hc)]
  rcases List.eq_nil_or_concat s with rfl | ⟨s, c, rfl⟩
  · rfl
  · rw [List.concat_eq_append] at hs ⊢
    rw [List.getLast?_concat] at hs
    rw [List.reverse_append, List.reverse_singleton, List.singleton_append,
      List.dropWhile_cons_of_neg (by rw [hs c rfl]; nofun), List.reverse_cons, List.reverse_reverse]

/-- What all characters of a text are, the last one is as well. Without any, it is the last one in
front that counts. -/
theorem forall_mem_getLast?_append {P : Char → Prop} {s t : Text} (ht : ∀ c ∈ t, P c)
    (hs : t = [] → ∀ c ∈ s.getLast?, P c) : ∀ c ∈ (s ++ t).getLast?, P c := by
  by_cases hnil : t = []
  · rw [hnil, List.append_nil]
    exact hs hnil
  · rw [List.getLast?_append_of_ne_nil _ hnil]
    exact fun c hc ↦ ht c (List.mem_of_getLast? hc)

/-- What starts and ends with visible characters is left of a text with blanks around it. -/
theorem trim_append {r s t : Text} (hr : ∀ c ∈ r, isBlank c = true) (ht : ∀ c ∈ t, isBlank c = true)
    (hhead : s.head?.any isBlank = false) (hlast : ∀ c ∈ s.getLast?, isBlank c = false)
    (hne : s ≠ []) : trim (r ++ (s ++ t)) = s := by
  have hstart : (s ++ t).dropWhile isBlank = s ++ t := by
    obtain ⟨c, s, rfl⟩ := List.exists_cons_of_ne_nil hne
    exact List.dropWhile_cons_of_neg (Bool.eq_false_iff.1 hhead)
  rw [trim, trimStart, List.dropWhile_append_of_pos hr, hstart]
  exact reverse_dropWhile_append ht hlast

/-! ### Lines -/

theorem mem_of_mem_lines {line : Text} (h : line ∈ t.lines) (hc : c ∈ line) : c ∈ t := by
  rw [← flatten_lines t]
  exact List.mem_flatten_of_mem h hc

theorem exists_lines_cons (hc : c ≠ '\n') (t : Text) :
    ∃ line more, lines (c :: t) = (c :: line) :: more := by
  rw [lines, if_neg hc]
  cases t.lines with
  | nil => exact ⟨[], [], rfl⟩
  | cons line more => exact ⟨line, more, rfl⟩

/-- The lines of a text go on from what stands in front of it on the first. -/
theorem lines_append {s : Text} (hs : '\n' ∉ s) {line : Text} {lines : List Text}
    (ht : t.lines = line :: lines) : (s ++ t).lines = (s ++ line) :: lines := by
  induction s with
  | nil => exact ht
  | cons c s ih =>
    rw [List.mem_cons, not_or] at hs
    rw [List.cons_append, Text.lines, if_neg (Ne.symm hs.1), ih hs.2]
    rfl

/-- Every line but the last ends with a line feed. -/
theorem getLast?_line {ls ls' : List Text} {line : Text} (h : t.lines = ls ++ line :: ls')
    (hne : ls' ≠ []) : line.getLast? = some '\n' := by
  induction t generalizing ls line with
  | nil => cases ls <;> cases h
  | cons c t ih =>
    rw [Text.lines] at h
    split at h
    · rename_i hc
      cases ls with
      | nil =>
        obtain ⟨rfl, -⟩ := List.cons.inj h
        rw [hc]
        rfl
      | cons first ls => exact ih (List.cons.inj h).2
    · split at h
      · cases ls with
        | nil => exact absurd (List.cons.inj h).2.symm hne
        | cons first ls => cases ls <;> cases (List.cons.inj h).2
      · rename_i first more hlines
        cases ls with
        | nil =>
          obtain ⟨rfl, rfl⟩ := List.cons.inj h
          have hlast : first.getLast? = some '\n' :=
            ih (show Text.lines t = [] ++ first :: more from hlines)
          rw [List.getLast?_cons, hlast]
          rfl
        | cons l ls =>
          rw [(List.cons.inj h).2] at hlines
          exact ih (show Text.lines t = (first :: ls) ++ line :: ls' from hlines)

/-- Each of the lines is something, with a line feed in no other place than at its end, and all but
the last have one there. -/
structure Lined (ls : List Text) : Prop where
  ends : ls.Pairwise fun line _ ↦ line.getLast? = some '\n'
  single : ∀ line ∈ ls, line ≠ [] ∧ '\n' ∉ line.dropLast

theorem Lined.sublist {ls ls' : List Text} (h : Lined ls') (hsub : ls.Sublist ls') : Lined ls :=
  ⟨h.ends.sublist hsub, fun line hline ↦ h.single line (hsub.subset hline)⟩

theorem lined_lines (t : Text) : Lined t.lines := by
  induction t with
  | nil => exact ⟨.nil, List.forall_mem_nil _⟩
  | cons c t ih =>
    rw [lines]
    split
    · rename_i hc
      exact ⟨List.pairwise_cons.2 ⟨fun _ _ ↦ by rw [hc]; rfl, ih.ends⟩,
        List.forall_mem_cons.2 ⟨⟨List.cons_ne_nil _ _, List.not_mem_nil⟩, ih.single⟩⟩
    · rename_i hc
      cases hlines : Text.lines t with
      | nil =>
        exact ⟨List.pairwise_singleton _ _,
          List.forall_mem_singleton.2 ⟨List.cons_ne_nil _ _, List.not_mem_nil⟩⟩
      | cons line more =>
        rw [hlines] at ih
        obtain ⟨⟨hne, hsingle⟩, hmore⟩ := List.forall_mem_cons.1 ih.single
        obtain ⟨hends, hpairwise⟩ := List.pairwise_cons.1 ih.ends
        refine ⟨List.pairwise_cons.2 ⟨fun line' hline' ↦ ?_, hpairwise⟩,
          List.forall_mem_cons.2 ⟨⟨List.cons_ne_nil c line, ?_⟩, hmore⟩⟩
        · rw [List.getLast?_cons, hends line' hline']
          rfl
        · rw [List.dropLast_cons_of_ne_nil hne, List.mem_cons, not_or]
          exact ⟨Ne.symm hc, hsingle⟩

/-- Put together, the lines are cut again where they were. -/
theorem Lined.lines_flatten {ls : List Text} (h : Lined ls) : lines ls.flatten = ls := by
  induction ls with
  | nil => rfl
  | cons line ls ih =>
    obtain ⟨⟨hne, hsingle⟩, hmore⟩ := List.forall_mem_cons.1 h.single
    obtain ⟨hends, hpairwise⟩ := List.pairwise_cons.1 h.ends
    have hline := List.dropLast_append_getLast hne
    have hrest := ih ⟨hpairwise, hmore⟩
    rw [List.flatten_cons, ← hline, List.append_assoc]
    refine lines_append hsingle ?_
    rw [List.singleton_append, lines]
    cases ls with
    | nil =>
      split
      · rfl
      · rfl
    | cons next ls =>
      have hlast := hends next List.mem_cons_self
      rw [List.getLast?_eq_some_getLast hne] at hlast
      rw [if_pos (Option.some.inj hlast), hrest]

/-- The line is one of the text's, and its first visible character stands at the offset. -/
def LineAt (t : Text) (offset : Nat) (line : Text) : Prop :=
  ∃ ls ls', t.lines = ls ++ line :: ls' ∧ offset = size (ls.flatten ++ line.takeWhile isBlank)

namespace LineAt

variable {offset : Nat} {line line' : Text}

/-- From the offset on, there is what is visible of the line, and then the lines behind it. -/
theorem exists_behind (h : t.LineAt offset line) :
    ∃ front behind, t = front ++ (line.trimStart ++ behind) ∧ front.size = offset ∧
      (behind = [] ∨ line.getLast? = some '\n') := by
  obtain ⟨ls, ls', hlines, rfl⟩ := h
  refine ⟨ls.flatten ++ line.takeWhile isBlank, ls'.flatten, ?_, rfl, ?_⟩
  · have hline : line.takeWhile isBlank ++ line.trimStart = line := List.takeWhile_append_dropWhile
    rw [← flatten_lines t, hlines, List.flatten_append, List.flatten_cons, List.append_assoc,
      ← List.append_assoc (line.takeWhile isBlank), hline]
  · by_cases hne : ls' = []
    · exact .inl (by rw [hne]; rfl)
    · exact .inr (getLast?_line hlines hne)

/-- What is visible of a line ends in front of the lines behind it. -/
theorem size_lt (ls ls' : List Text) (hne : line.trimStart ≠ []) :
    size (ls.flatten ++ line.takeWhile isBlank) < size (ls ++ line :: ls').flatten := by
  have hline : line.takeWhile isBlank ++ line.trimStart = line := List.takeWhile_append_dropWhile
  have hpos : 0 < line.trimStart.size :=
    Nat.pos_of_ne_zero fun hzero ↦ hne (size_eq_zero_iff.1 hzero)
  have hsize := congrArg size hline
  simp only [size_append, List.flatten_append, List.flatten_cons] at hsize ⊢
  omega

/-- Of two lines of a text that are not the same, one stands in front of the other. -/
theorem cases_of_lines {ls ls' more more' : List Text} (h : t.lines = ls ++ line :: more)
    (h' : t.lines = ls' ++ line' :: more') :
    (ls = ls' ∧ line = line') ∨ (∃ xs, ls' = ls ++ line :: xs) ∨ ∃ xs, ls = ls' ++ line' :: xs := by
  rw [h, List.append_eq_append_iff] at h'
  rcases h' with ⟨xs, rfl, hmore⟩ | ⟨xs, rfl, hmore⟩
  · cases xs with
    | nil => exact .inl ⟨(List.append_nil _).symm, (List.cons.inj hmore).1⟩
    | cons x xs =>
      obtain ⟨rfl, -⟩ := List.cons.inj hmore
      exact .inr (.inl ⟨xs, rfl⟩)
  · cases xs with
    | nil => exact .inl ⟨List.append_nil _, (List.cons.inj hmore).1.symm⟩
    | cons x xs =>
      obtain ⟨rfl, -⟩ := List.cons.inj hmore
      exact .inr (.inr ⟨xs, rfl⟩)

/-- At an offset there is only one line with something visible. -/
theorem unique (h : t.LineAt offset line) (h' : t.LineAt offset line')
    (hne : line.trimStart ≠ []) (hne' : line'.trimStart ≠ []) : line = line' := by
  obtain ⟨ls, more, hlines, rfl⟩ := h
  obtain ⟨ls', more', hlines', hoffset⟩ := h'
  rcases cases_of_lines hlines hlines' with ⟨-, heq⟩ | ⟨xs, rfl⟩ | ⟨xs, rfl⟩
  · exact heq
  · have hlt := size_lt ls xs hne
    rw [hoffset, size_append] at hlt
    omega
  · have hlt := size_lt ls' xs hne'
    rw [← hoffset, size_append] at hlt
    omega

/-- The first line with a property stands in front of all others that have it. -/
theorem exists_first {α : Type} {f : Text → Option α} {a : α} (h : t.lines.findSome? f = some a)
    (hf : ∀ line, (f line).isSome → line.trimStart ≠ []) :
    ∃ offset line, t.LineAt offset line ∧ f line = some a ∧
      ∀ offset' line', t.LineAt offset' line' → (f line').isSome → offset ≤ offset' := by
  obtain ⟨ls, line, more, hlines, ha, hnone⟩ := List.findSome?_eq_some_iff.1 h
  refine ⟨_, line, ⟨ls, more, hlines, rfl⟩, ha, ?_⟩
  rintro _ line' ⟨ls', more', hlines', rfl⟩ hsome
  rcases cases_of_lines hlines hlines' with ⟨rfl, rfl⟩ | ⟨xs, rfl⟩ | ⟨xs, rfl⟩
  · exact Nat.le_refl _
  · have hlt := size_lt ls xs (hf line (by rw [ha]; rfl))
    rw [size_append (ls ++ line :: xs).flatten]
    omega
  · rw [hnone line' (List.mem_append_right _ List.mem_cons_self)] at hsome
    cases hsome

end LineAt

end Text

end ShaderLink
