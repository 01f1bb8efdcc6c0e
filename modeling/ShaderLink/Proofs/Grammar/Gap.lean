import ShaderLink.Proofs.Grammar.Cover
import ShaderLink.Proofs.Token.Comment

/-!
# Gaps between lexemes

Where a part of a text is cut out, what stood in front of it meets what stood behind, and blanks may
run together there. So a **gap** is not a list of lexemes. It is a text in front of which reading on
behind ignored lexemes starts earlier, whatever stands behind (`Text.IsGap`). Gaps one behind the
other are a gap. Blanks are one, and so are comments, but a line comment only with the line break
behind it.

All that is ignored between two lexemes is a gap, except that the last line of a text may be a
comment without a line break (`Cursor.Skips.exists_gap`).
-/

namespace ShaderLink

open Lexeme

/-! ### Skipping -/

namespace Cursor

variable {c c₁ c₂ c' : Cursor} {x : Lexeme} {xs : List Lexeme}

/-- Ignored lexemes stand between the cursors, and no more of them behind. -/
def Skips (c c' : Cursor) : Prop :=
  ∃ ys, c.Lexes ys c' ∧ Ignored ys ∧
    (c'.rest = [] ∨ ∃ x c₁, c'.Lexes [x] c₁ ∧ Lexicon.shader.ignores x.kind = false)

theorem Skips.length_rest_le (h : c.Skips c') : c'.rest.length ≤ c.rest.length := by
  obtain ⟨ys, hys, -⟩ := h
  exact hys.length_le

/-- The next lexeme is reached by skipping what is ignored. -/
theorem Next.exists_skips (h : c.Next x c') : ∃ c₁, c.Skips c₁ ∧ c₁.Next x c' := by
  obtain ⟨ys, hlexes, hignored, hx⟩ := h
  obtain ⟨c₁, hys, hlast⟩ := hlexes.split
  exact ⟨c₁, ⟨ys, hys, hignored, .inr ⟨x, c', hlast, hx⟩⟩, [], hlast, List.forall_mem_nil _, hx⟩

theorem Spells.exists_skips (h : c.Spells (x :: xs) c') :
    ∃ c₁, c.Skips c₁ ∧ c₁.Spells (x :: xs) c' := by
  obtain ⟨c₂, hx, hxs⟩ := h.uncons
  obtain ⟨c₁, hskips, hx⟩ := hx.exists_skips
  exact ⟨c₁, hskips, .cons hx hxs⟩

theorem Ends.exists_skips (h : c.Ends) : ∃ c₁, c.Skips c₁ ∧ c₁.Ends := by
  obtain ⟨ys, c₁, hlexes, hignored, hend⟩ := h
  exact ⟨c₁, ⟨ys, hlexes, hignored, .inl hend⟩, [], c₁, .refl c₁, List.forall_mem_nil _, hend⟩

/-- What is ignored may be skipped in front of what is spelled out. -/
theorem Skips.spells (h : c.Skips c₁) (hspells : c₁.Spells (x :: xs) c') :
    c.Spells (x :: xs) c' := by
  obtain ⟨ys, hys, hignored, -⟩ := h
  obtain ⟨c₂, hx, hxs⟩ := hspells.uncons
  exact .cons (hx.behind hys hignored) hxs

/-- Where nothing but what is ignored is left, the text ends. -/
theorem Skips.ends (h : c.Skips c₁) (hends : c₁.Ends) : c.Ends := by
  obtain ⟨ys, hys, hignored, -⟩ := h
  obtain ⟨zs, c', hzs, hignored', hend⟩ := hends
  exact ⟨ys ++ zs, c', hys.trans hzs, List.forall_mem_append.2 ⟨hignored, hignored'⟩, hend⟩

/-- One more ignored lexeme is skipped. -/
theorem Skips.cons (hx : c.Lexes [x] c₁) (hignored : Lexicon.shader.ignores x.kind = true)
    (h : c₁.Skips c') : c.Skips c' := by
  obtain ⟨ys, hys, hall, hend⟩ := h
  exact ⟨x :: ys, hx.trans hys, List.forall_mem_cons.2 ⟨hignored, hall⟩, hend⟩

/-- The first lexeme, which is ignored, is one of those that are skipped. -/
theorem Skips.tail (h : c.Skips c') (hx : c.Lexes [x] c₁)
    (hignored : Lexicon.shader.ignores x.kind = true) : c₁.Skips c' := by
  obtain ⟨ys, hys, hall, hend⟩ := h
  cases ys with
  | nil =>
    obtain rfl := hys.eq_of_nil
    rcases hend with hend | ⟨y, c₂, hy, hkept⟩
    · have hlength := hx.length_le_length_rest
      rw [hend] at hlength
      exact absurd hlength (Nat.not_succ_le_zero 0)
    · obtain ⟨rfl, -⟩ := hx.unique hy
      rw [hignored] at hkept
      cases hkept
  | cons y ys =>
    obtain ⟨rfl, c₂, hnil, hys⟩ := hx.unique hys
    obtain rfl := hnil.eq_of_nil
    exact ⟨ys, hys, (List.forall_mem_cons.1 hall).2, hend⟩

end Cursor

/-! ### Ignored lexemes -/

namespace Lexeme

variable {x : Lexeme} {w v rest : Text}

theorem run_eq_missed {c : Char} {t : Text} (hc : isBlank c = false) :
    Scan.run isBlank (c :: t) = .missed := by
  rw [Scan.run, hc]
  rfl

/-- Blanks up to the next visible character are a lexeme. -/
theorem heads_space (hne : w ≠ []) (hw : ∀ c ∈ w, isBlank c = true)
    (hrest : rest.head?.any isBlank = false) : (⟨.space, w⟩ : Lexeme).Heads rest := by
  refine .inl ⟨rfl, ?_⟩
  cases w with
  | nil => exact absurd rfl hne
  | cons c w =>
    obtain ⟨hc, hw⟩ := List.forall_mem_cons.1 hw
    obtain ⟨htake, hdrop⟩ := Prod.mk.inj (Scan.splitWhile_eq_iff.2 ⟨hw, hrest⟩)
    show Scan.run isBlank (c :: (w ++ rest)) = .matched (c :: w) rest
    rw [Scan.run, if_pos hc, htake, hdrop]

/-- A comment is a lexeme, whichever of the rules finds it. -/
theorem heads_comment (h : (Scan.lineComment (w ++ rest)).orElse (Scan.blockComment (w ++ rest)) =
    .matched w rest) (hw : w.head? = some '/') : (⟨.comment, w⟩ : Lexeme).Heads rest := by
  obtain ⟨v, rfl⟩ := List.head?_eq_some_iff.1 hw
  have hmissed : Scan.run isBlank ('/' :: (v ++ rest)) = .missed := run_eq_missed (by decide)
  exact .inr ⟨hmissed, .inl ⟨rfl, h⟩⟩

/-- A line comment goes on up to the line break. -/
theorem lineComment_cons (hv : ∀ c ∈ v, isLineBreak c = false)
    (hrest : ∀ c ∈ rest.head?, isLineBreak c = true) :
    Scan.lineComment ('/' :: '/' :: (v ++ rest)) = .matched ('/' :: '/' :: v) rest := by
  have hline : Scan.splitWhile (fun c ↦ !isLineBreak c) (v ++ rest) = (v, rest) := by
    refine Scan.splitWhile_eq_iff.2 ⟨fun c hc ↦ by rw [hv c hc]; rfl, ?_⟩
    cases rest with
    | nil => rfl
    | cons c rest => simp [hrest c rfl]
  rw [Scan.lineComment, hline]

/-- What a line comment is followed by is a line break or nothing. -/
theorem of_lineComment {t : Text} (h : Scan.lineComment t = .matched w rest) :
    ∃ v, w = '/' :: '/' :: v ∧ (∀ c ∈ v, isLineBreak c = false) ∧
      ∀ c ∈ rest.head?, isLineBreak c = true := by
  unfold Scan.lineComment at h
  split at h
  · rename_i t
    obtain ⟨rfl, rfl⟩ := Scan.matched.inj h
    refine ⟨_, rfl, fun c hc ↦ ?_, fun c hc ↦ ?_⟩
    · simpa using List.mem_takeWhile_imp hc
    · have hnot := List.head?_dropWhile_not (fun c ↦ !isLineBreak c) t
      rw [show (t.dropWhile fun c ↦ !isLineBreak c).head? = some c from hc] at hnot
      simpa using hnot
  · cases h

theorem heads_lineComment (hv : ∀ c ∈ v, isLineBreak c = false)
    (hrest : ∀ c ∈ rest.head?, isLineBreak c = true) :
    (⟨.comment, '/' :: '/' :: v⟩ : Lexeme).Heads rest := by
  refine heads_comment ?_ rfl
  show (Scan.lineComment ('/' :: '/' :: (v ++ rest))).orElse _ = _
  rw [lineComment_cons hv hrest]
  rfl

/-- A lexeme of blanks is blank, and no blank is behind it. -/
theorem Heads.blanks (h : x.Heads rest) (hkind : x.kind = .space) :
    (∀ c ∈ x.text, isBlank c = true) ∧ rest.head?.any isBlank = false := by
  have hrun : Scan.run isBlank (x.text ++ rest) = .matched x.text rest :=
    h.matched (by rw [hkind]; simp [Lexicon.rules])
  have hne := h.ne_nil
  cases htext : x.text with
  | nil => exact absurd htext hne
  | cons c w =>
    rw [htext, List.cons_append, Scan.run] at hrun
    split at hrun
    · rename_i hc
      obtain ⟨hw, hdrop⟩ := Scan.matched.inj hrun
      obtain ⟨hall, hrest⟩ := Scan.splitWhile_eq_iff.1 (Prod.ext (List.cons.inj hw).2 hdrop)
      exact ⟨List.forall_mem_cons.2 ⟨hc, hall⟩, hrest⟩
    · cases hrun

/-- A text that starts with a blank starts with a run of blanks. -/
theorem Heads.kind_eq_space (h : x.Heads rest)
    (hblank : (x.text ++ rest).head?.any isBlank = true) : x.kind = .space := by
  rcases h with ⟨hkind, -⟩ | ⟨hmissed, -⟩
  · exact hkind
  · cases hall : x.text ++ rest with
    | nil =>
      rw [hall] at hblank
      cases hblank
    | cons c t =>
      rw [hall] at hblank hmissed
      have hc : isBlank c = true := hblank
      dsimp only at hmissed
      rw [Scan.run, if_pos hc] at hmissed
      cases hmissed

/-- A comment has been found as one of the two sorts. -/
theorem Heads.comment_matched (h : x.Heads rest) (hkind : x.kind = .comment) :
    Scan.lineComment (x.text ++ rest) = .matched x.text rest ∨
      Scan.blockComment (x.text ++ rest) = .matched x.text rest := by
  have hcomment : (Scan.lineComment (x.text ++ rest)).orElse
      (Scan.blockComment (x.text ++ rest)) = .matched x.text rest :=
    h.matched (show (x.kind, fun t ↦ (Scan.lineComment t).orElse (Scan.blockComment t)) ∈
      Lexicon.shader.rules by rw [hkind]; simp [Lexicon.rules])
  cases hline : Scan.lineComment (x.text ++ rest) with
  | missed =>
    rw [hline] at hcomment
    exact .inr hcomment
  | matched lexeme behind =>
    rw [hline] at hcomment
    exact .inl hcomment
  | broken notes =>
    rw [hline] at hcomment
    cases hcomment

/-- A comment goes up to the end of its line, or it is closed and the same wherever it stands. -/
theorem Heads.comment (h : x.Heads rest) (hkind : x.kind = .comment) :
    x.text.head? = some '/' ∧
      ((∃ v, x.text = '/' :: '/' :: v ∧ (∀ c ∈ v, isLineBreak c = false) ∧
        ∀ c ∈ rest.head?, isLineBreak c = true) ∨ ∀ r, x.Heads r) := by
  obtain ⟨kind, w⟩ := x
  obtain rfl : kind = .comment := hkind
  rcases h.comment_matched rfl with hline | hblock
  · obtain ⟨v, rfl, hv, hrest⟩ := of_lineComment hline
    exact ⟨rfl, .inl ⟨v, rfl, hv, hrest⟩⟩
  · obtain ⟨-, body, rfl, hbody⟩ := Scan.blockComment_eq_matched_iff.1 hblock
    refine ⟨rfl, .inr fun r ↦ heads_comment ?_ rfl⟩
    have hnone : Scan.lineComment ('/' :: '*' :: body ++ r) = .missed :=
      Scan.lineComment_eq_missed_iff.2 (by simp)
    show (Scan.lineComment ('/' :: '*' :: body ++ r)).orElse _ = _
    rw [hnone]
    exact Scan.blockComment_eq_matched_iff.2 ⟨rfl, body, rfl, hbody⟩

end Lexeme

/-! ### Gaps -/

namespace Text

variable {s s' t : Text}

/-- In front of the text reading on behind ignored lexemes starts earlier. -/
def IsGap (s : Text) : Prop :=
  ∀ (r : Text) (offset : Nat) (c' : Cursor), Cursor.Skips ⟨r, offset + s.size⟩ c' →
    Cursor.Skips ⟨s ++ r, offset⟩ c'

/-- A line comment without a line break behind it. -/
def OpenComment (t : Text) : Prop :=
  ∃ v, t = '/' :: '/' :: v ∧ ∀ c ∈ v, isLineBreak c = false

theorem isGap_nil : IsGap [] :=
  fun _ _ _ h ↦ h

/-- Gaps one behind the other are a gap. -/
theorem IsGap.append (h : s.IsGap) (h' : s'.IsGap) : IsGap (s ++ s') := by
  intro r offset c' hskips
  rw [size_append, ← Nat.add_assoc] at hskips
  rw [List.append_assoc]
  exact h _ _ _ (h' _ _ _ hskips)

theorem lexes_singleton {x : Lexeme} {r : Text} (h : x.Heads r) (offset : Nat) :
    Cursor.Lexes ⟨x.text ++ r, offset⟩ [x] ⟨r, offset + x.text.size⟩ :=
  ⟨by simp, by simp, h, trivial⟩

/-- What is ignored and read in front of anything is a gap. -/
theorem isGap_of_heads {x : Lexeme} (hignored : Lexicon.shader.ignores x.kind = true)
    (h : ∀ r, x.Heads r) : IsGap x.text :=
  fun r offset _ hskips ↦ hskips.cons (lexes_singleton (h r) offset) hignored

/-- Blanks are a gap. -/
theorem isGap_blanks (h : ∀ c ∈ s, isBlank c = true) : IsGap s := by
  intro r offset c' hskips
  by_cases hnil : s = []
  · subst hnil
    exact hskips
  -- the blanks behind run together with these
  obtain ⟨hw, hrest⟩ := Scan.splitWhile_eq_iff.1 (show Scan.splitWhile isBlank
    (r.takeWhile isBlank ++ r.dropWhile isBlank) = _ by rw [List.takeWhile_append_dropWhile]; rfl)
  have hsplit : r.takeWhile isBlank ++ r.dropWhile isBlank = r := List.takeWhile_append_dropWhile
  generalize r.takeWhile isBlank = w at *
  generalize r.dropWhile isBlank = rest at *
  subst hsplit
  have hbehind : Cursor.Skips ⟨rest, offset + (s ++ w).size⟩ c' := by
    rw [size_append, ← Nat.add_assoc]
    by_cases hw' : w = []
    · subst hw'
      exact hskips
    · exact hskips.tail (lexes_singleton (x := ⟨.space, w⟩) (heads_space hw' hw hrest) _) rfl
  rw [← List.append_assoc]
  exact hbehind.cons (lexes_singleton (x := ⟨.space, s ++ w⟩) (heads_space (by simp [hnil])
    (List.forall_mem_append.2 ⟨h, hw⟩) hrest) offset) rfl

/-- A line comment with a gap that starts with a line break is a gap. -/
theorem OpenComment.isGap_append (h : s.OpenComment) (ht : t.IsGap)
    (hbreak : ∃ c ∈ t.head?, isLineBreak c = true) : IsGap (s ++ t) := by
  intro r offset c' hskips
  obtain ⟨c, hc, hbreak⟩ := hbreak
  obtain ⟨t, rfl⟩ := List.head?_eq_some_iff.1 hc
  obtain ⟨v, rfl, hv⟩ := h
  rw [List.append_assoc]
  rw [size_append, ← Nat.add_assoc] at hskips
  have hheads : (⟨.comment, '/' :: '/' :: v⟩ : Lexeme).Heads (c :: t ++ r) :=
    heads_lineComment hv fun d hd ↦ by
      obtain rfl := Option.some.inj hd
      exact hbreak
  exact (ht _ _ _ hskips).cons (lexes_singleton hheads offset) rfl

/-- Where only a gap is left, the text ends. -/
theorem IsGap.ends (h : s.IsGap) (offset : Nat) : Cursor.Ends ⟨s, offset⟩ := by
  have hskips := h [] offset _ ⟨[], .refl _, List.forall_mem_nil _, .inl rfl⟩
  rw [List.append_nil] at hskips
  exact hskips.ends ⟨[], _, .refl _, List.forall_mem_nil _, rfl⟩

/-- It ends where only an open line comment is left, too. -/
theorem OpenComment.ends (h : t.OpenComment) (offset : Nat) : Cursor.Ends ⟨t, offset⟩ := by
  obtain ⟨v, rfl, hv⟩ := h
  have hheads : (⟨.comment, '/' :: '/' :: v⟩ : Lexeme).Heads [] := heads_lineComment hv (by simp)
  have hlexes := lexes_singleton hheads offset
  rw [List.append_nil] at hlexes
  exact ⟨_, _, hlexes, List.forall_mem_singleton.2 rfl, rfl⟩

end Text

/-- What is skipped is a gap, but behind it the text may end with a comment. -/
theorem Cursor.Skips.exists_gap {c c' : Cursor} (h : c.Skips c') :
    ∃ s w : Text, c.rest = s ++ (w ++ c'.rest) ∧ s.IsGap ∧
      (w = [] ∨ c'.rest = [] ∧ w.OpenComment) ∧
      (c.rest.head?.any isBlank = true → s.head? = c.rest.head?) := by
  obtain ⟨ys, hys, hignored, hend⟩ := h
  induction ys generalizing c with
  | nil =>
    obtain rfl := hys.eq_of_nil
    refine ⟨[], [], rfl, Text.isGap_nil, .inl rfl, fun hblank ↦ ?_⟩
    rcases hend with hend | ⟨x, c₁, hx, hkept⟩
    · rw [hend]
    · have hrest : c.rest = x.text ++ c₁.rest := by rw [hx.rest]; simp
      rw [hrest] at hblank
      rw [Heads.kind_eq_space hx.along.1 hblank] at hkept
      cases hkept
  | cons y ys ih =>
    obtain ⟨hy, hignored⟩ := List.forall_mem_cons.1 hignored
    obtain ⟨c₁, hfirst, hrest⟩ := hys.uncons
    obtain ⟨s, w, hsplit, hs, hw, hhead⟩ := ih hrest hignored
    have hall : c.rest = y.text ++ c₁.rest := by rw [hfirst.rest]; simp
    have hheads : y.Heads c₁.rest := hfirst.along.1
    have hgap (h : Text.IsGap y.text) : ∃ s w : Text, c.rest = s ++ (w ++ c'.rest) ∧ s.IsGap ∧
        (w = [] ∨ c'.rest = [] ∧ w.OpenComment) ∧
        (c.rest.head?.any isBlank = true → s.head? = c.rest.head?) := by
      refine ⟨y.text ++ s, w, by rw [hall, hsplit, List.append_assoc], h.append hs, hw, fun _ ↦ ?_⟩
      obtain ⟨a, t, ht⟩ := List.exists_cons_of_ne_nil hheads.ne_nil
      rw [hall, ht]
      rfl
    have hkind : y.kind = .space ∨ y.kind = .comment := by
      simpa [Lexicon.ignores] using hy
    rcases hkind with hkind | hkind
    · -- blanks are a gap
      exact hgap (Text.isGap_blanks (hheads.blanks hkind).1)
    · obtain ⟨hslash, ⟨v, hv, hline, hbreak⟩ | hclosed⟩ := hheads.comment hkind
      · have hnot : ¬c.rest.head?.any isBlank = true := by
          rw [hall, hv]
          exact Bool.false_ne_true
        -- a line comment is a gap up to the line break behind it, if there is one
        cases hbehind : c₁.rest with
        | nil =>
          rw [hbehind] at hsplit
          obtain ⟨rfl, hnil⟩ := List.append_eq_nil_iff.1 hsplit.symm
          obtain ⟨rfl, hend'⟩ := List.append_eq_nil_iff.1 hnil
          exact ⟨[], y.text, by rw [hall, hbehind, hend']; simp, Text.isGap_nil,
            .inr ⟨hend', v, hv, hline⟩, fun h ↦ absurd h hnot⟩
        | cons a t =>
          have ha : isLineBreak a = true := hbreak a (by rw [hbehind]; rfl)
          have hs' : s.head? = some a := by
            rw [hbehind] at hhead
            exact hhead (isBlank_of_isLineBreak ha)
          refine ⟨y.text ++ s, w, by rw [hall, hsplit, List.append_assoc], ?_, hw,
            fun h ↦ absurd h hnot⟩
          exact Text.OpenComment.isGap_append ⟨v, hv, hline⟩ hs ⟨a, hs', ha⟩
      · exact hgap (Text.isGap_of_heads hy hclosed)

/-- What is left at the end of a text is a gap, and perhaps a comment behind it. -/
theorem Cursor.Ends.exists_gap {c : Cursor} (h : c.Ends) :
    ∃ s w : Text, c.rest = s ++ w ∧ s.IsGap ∧ (w = [] ∨ w.OpenComment) := by
  obtain ⟨ys, c', hlexes, hignored, hend⟩ := h
  have hskips : c.Skips c' := ⟨ys, hlexes, hignored, .inl hend⟩
  obtain ⟨s, w, hsplit, hs, hw, -⟩ := hskips.exists_gap
  rw [hend, List.append_nil] at hsplit
  exact ⟨s, w, hsplit, hs, hw.imp_right And.right⟩

end ShaderLink
