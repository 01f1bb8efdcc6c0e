import Mathlib.Data.List.Nodup
import ShaderLink.Proofs.Text.Cut
import ShaderLink.Proofs.Token.Locality

/-!
# Texts as chains of lexemes

A text that can be lexed is a **chain** of lexemes, each in front of the text of all the others
(`Lexeme.Along`).
-/

namespace ShaderLink

namespace Lexeme

variable {x : Lexeme} {xs ys : List Lexeme} {w rest r r' : Text}

/-! ### Words -/

/-- What is found has been found by a rule of its kind, or is a single character. -/
theorem FoundBy.exists_rule {rules : List (TokenKind × (Text → Scan))} (h : x.FoundBy rest rules)
    (hkind : x.kind ≠ .unknown) :
    ∃ rule ∈ rules, rule.1 = x.kind ∧ rule.2 (x.text ++ rest) = .matched x.text rest := by
  induction rules with
  | nil => exact absurd h.1 hkind
  | cons rule rules ih =>
    rcases h with ⟨hrule, hmatched⟩ | ⟨-, hfound⟩
    · exact ⟨rule, List.mem_cons_self, hrule.symm, hmatched⟩
    · obtain ⟨rule', hmem, hrule', hmatched⟩ := ih hfound
      exact ⟨rule', List.mem_cons_of_mem _ hmem, hrule', hmatched⟩

/-- Where an identifier starts, the rules that are tried in front of that for words find nothing. -/
theorem missed_of_startsWord {t : Text} (h : t.StartsWord) :
    Scan.run isBlank t = .missed ∧
      (Scan.lineComment t).orElse (Scan.blockComment t) = .missed ∧
      Lexicon.directiveWord t = .missed ∧ Scan.number t = .missed := by
  have hnot {c : Char} (hc : isIdentifierStart c = false ∧ c ≠ '_') (rest : Text) :
      t ≠ c :: rest := by
    rintro rfl
    rcases h with hstart | ⟨rfl, -⟩
    · rw [hc.1] at hstart
      cases hstart
    · exact hc.2 rfl
  refine ⟨?_, Scan.orElse_eq_missed_iff.2 ⟨?_, ?_⟩, ?_, ?_⟩
  · have hblank := h.head?_any_eq_false (fun c hc ↦ isBlank_eq_false hc) (by decide)
    cases t with
    | nil => rfl
    | cons c t =>
      have hc : isBlank c = false := hblank
      rw [Scan.run, hc]
      rfl
  · exact Scan.lineComment_eq_missed_iff.2 (not_exists.2 fun rest ↦ hnot (by decide) _)
  · exact Scan.blockComment_eq_missed_iff.2 (not_exists.2 fun rest ↦ hnot (by decide) _)
  · exact Scan.directiveWord_eq_missed_iff.2 fun rest heq ↦ absurd heq (hnot (by decide) rest)
  · refine Scan.number_eq_missed_iff.2 (Scan.decimal_eq_missed_iff.2 ⟨?_, fun rest heq ↦ ?_⟩)
    · exact h.head?_any_eq_false (fun c hc ↦ isDigit_eq_false hc) (by decide)
    · exact absurd heq (hnot (by decide) rest)

/-- Where an identifier starts, the lexeme is a word. -/
theorem Heads.kind_eq_word (h : x.Heads rest) (hstarts : (x.text ++ rest).StartsWord) :
    x.kind = .word := by
  obtain ⟨hspace, hcomment, hdirective, hnumber⟩ := missed_of_startsWord hstarts
  rcases h with ⟨-, hfound⟩ | ⟨-, ⟨-, hfound⟩ | ⟨-, ⟨-, hfound⟩ | ⟨-, ⟨-, hfound⟩ | ⟨-, h⟩⟩⟩⟩
  · cases hspace.symm.trans hfound
  · cases hcomment.symm.trans hfound
  · cases hdirective.symm.trans hfound
  · cases hnumber.symm.trans hfound
  · rcases h with ⟨hkind, -⟩ | ⟨hmissed, -⟩
    · exact hkind
    · exact absurd hstarts (Scan.identifier_eq_missed_iff.1 hmissed)

/-- A number sign in front of an identifier starts a directive. -/
theorem Heads.kind_eq_directive (h : x.Heads rest) (htext : x.text = '#' :: w)
    (hw : w.StartsWord) : x.kind = .directive := by
  obtain ⟨kind, text⟩ := x
  obtain rfl : text = '#' :: w := htext
  rcases h with ⟨-, hfound⟩ | ⟨-, ⟨-, hfound⟩ | ⟨-, ⟨hkind, -⟩ | ⟨hmissed, -⟩⟩⟩
  · exact absurd hfound (show Scan.missed ≠ _ from nofun)
  · exact absurd hfound (show Scan.missed ≠ _ from nofun)
  · exact hkind
  · exact absurd (hw.append rest) (Scan.directiveWord_eq_missed_iff.1 hmissed _ rfl)

/-- There is one rule for each kind, and it has found what is of its kind. -/
theorem Heads.matched (h : x.Heads rest) {rule : Text → Scan}
    (hrule : (x.kind, rule) ∈ Lexicon.shader.rules) :
    rule (x.text ++ rest) = .matched x.text rest := by
  have hkinds : TokenKind.unknown ∉ Lexicon.shader.rules.map Prod.fst ∧
      (Lexicon.shader.rules.map Prod.fst).Nodup := by decide
  have hkind : x.kind ≠ .unknown := by
    rintro hunknown
    exact hkinds.1 (hunknown ▸ List.mem_map_of_mem hrule)
  obtain ⟨rule', hmem, hrule', hmatched⟩ := h.exists_rule hkind
  obtain rfl := List.inj_on_of_nodup_map hkinds.2 hmem hrule hrule'
  exact hmatched

/-- What the rule for words splits off is an identifier, and nothing behind it goes on with it. -/
theorem isIdentifier_of_matched (h : Scan.identifier (w ++ rest) = .matched w rest) :
    w.IsIdentifier ∧ rest.head?.any isIdentifierRest = false := by
  obtain ⟨c, s, rfl, hstarts, hsplit⟩ := Scan.exists_of_identifier h
  obtain ⟨hall, hrest⟩ := Scan.splitWhile_eq_iff.1 hsplit
  refine ⟨⟨?_, List.forall_mem_cons.2 ⟨?_, hall⟩⟩, hrest⟩
  · rcases hstarts with hstart | ⟨rfl, hmore⟩
    · exact .inl hstart
    · -- what goes on with the underscore is part of the word
      cases s with
      | nil =>
        have hmore : rest.head?.any isIdentifierRest = true := hmore
        rw [hrest] at hmore
        cases hmore
      | cons d s => exact .inr ⟨rfl, hmore⟩
  · rcases hstarts with hstart | ⟨rfl, -⟩
    · exact isIdentifierRest_of_isIdentifierStart hstart
    · rfl

/-- A word is an identifier, and nothing behind it goes on with it. -/
theorem Heads.isIdentifier (h : x.Heads rest) (hkind : x.kind = .word) :
    x.text.IsIdentifier ∧ rest.head?.any isIdentifierRest = false :=
  isIdentifier_of_matched (h.matched (by rw [hkind]; simp [Lexicon.rules]))

/-- What is found by the rule for directives starts with a number sign. -/
theorem Heads.head?_eq (h : x.Heads rest) (hkind : x.kind = .directive) :
    x.text.head? = some '#' := by
  have hdirective : Lexicon.directiveWord (x.text ++ rest) = .matched x.text rest :=
    h.matched (by rw [hkind]; simp [Lexicon.rules])
  have hne := h.ne_nil
  cases htext : x.text with
  | nil => exact absurd htext hne
  | cons c s =>
    rw [htext, List.cons_append, Lexicon.directiveWord.eq_def] at hdirective
    split at hdirective
    · rename_i heq
      obtain ⟨rfl, -⟩ := List.cons.inj heq
      rfl
    · cases hdirective

/-- An identifier ends in front of what it cannot go on with. -/
theorem identifier_of_isIdentifier {w : Text} (hw : w.IsIdentifier)
    (hrest : rest.head?.any isIdentifierRest = false) :
    Scan.identifier (w ++ rest) = .matched w rest := by
  cases w with
  | nil => exact hw.1.elim
  | cons c w =>
    have hsplit : Scan.splitWhile isIdentifierRest (w ++ rest) = (w, rest) :=
      Scan.splitWhile_eq_iff.2 ⟨fun d hd ↦ hw.2 d (List.mem_cons_of_mem c hd), hrest⟩
    have hstarts : Text.StartsWord (c :: (w ++ rest)) := hw.1.append rest
    rw [List.cons_append, Scan.identifier_of_startsWord hstarts, hsplit]

/-- An identifier is a word in front of what it cannot go on with. -/
theorem heads_word {w : Text} (hw : w.IsIdentifier)
    (hrest : rest.head?.any isIdentifierRest = false) : (⟨.word, w⟩ : Lexeme).Heads rest := by
  obtain ⟨hspace, hcomment, hdirective, hnumber⟩ := missed_of_startsWord (hw.1.append rest)
  exact .inr ⟨hspace, .inr ⟨hcomment, .inr ⟨hdirective, .inr ⟨hnumber,
    .inl ⟨rfl, identifier_of_isIdentifier hw hrest⟩⟩⟩⟩⟩

/-- A number sign and an identifier are a directive in front of what the identifier cannot go on
with. -/
theorem heads_directive (hw : w.IsIdentifier) (hrest : rest.head?.any isIdentifierRest = false) :
    (⟨.directive, '#' :: w⟩ : Lexeme).Heads rest := by
  refine .inr ⟨rfl, .inr ⟨rfl, .inl ⟨rfl, ?_⟩⟩⟩
  show Lexicon.directiveWord ('#' :: (w ++ rest)) = _
  rw [Lexicon.directiveWord, identifier_of_isIdentifier hw hrest]

/-! ### Chains -/

/-- The text of lexemes one behind the other. -/
def join (xs : List Lexeme) : Text :=
  xs.flatMap Lexeme.text

@[simp] theorem join_nil : join [] = [] := rfl

@[simp] theorem join_cons (x : Lexeme) (xs : List Lexeme) :
    join (x :: xs) = x.text ++ join xs := rfl

@[simp] theorem join_append (xs ys : List Lexeme) : join (xs ++ ys) = join xs ++ join ys :=
  List.flatMap_append

/-- Each of the lexemes is so related to the text behind it, which ends with the rest. -/
def Along (P : Lexeme → Text → Prop) : List Lexeme → Text → Prop
  | [], _ => True
  | x :: xs, rest => P x (join xs ++ rest) ∧ Along P xs rest

theorem along_append {P : Lexeme → Text → Prop} :
    Along P (xs ++ ys) rest ↔ Along P xs (join ys ++ rest) ∧ Along P ys rest := by
  induction xs with
  | nil => exact (and_iff_right trivial).symm
  | cons x xs ih =>
    show P x (join (xs ++ ys) ++ rest) ∧ Along P (xs ++ ys) rest ↔
      (P x (join xs ++ (join ys ++ rest)) ∧ Along P xs (join ys ++ rest)) ∧ Along P ys rest
    rw [ih, join_append, List.append_assoc, and_assoc]

/-- The lexeme is read in front of the text and is no number in front of an identifier. -/
def Loose (x : Lexeme) (rest : Text) : Prop :=
  x.Heads rest ∧ (x.kind = .number → ¬rest.StartsWord)

theorem Loose.of_sameStart (h : x.Loose r) (hsame : r.SameStart r') : x.Loose r' :=
  ⟨h.1.of_sameStart hsame h.2, fun hkind ↦ by rw [← hsame.startsWord_iff]; exact h.2 hkind⟩

theorem Along.heads (h : Along Loose xs r) : Along Heads xs r := by
  induction xs with
  | nil => trivial
  | cons x xs ih => exact ⟨h.1.1, ih h.2⟩

/-- What stands behind a chain does not matter to it beyond how it starts. -/
theorem Along.of_sameStart (h : Along Loose xs r) (hsame : r.SameStart r') :
    Along Loose xs r' := by
  induction xs with
  | nil => trivial
  | cons x xs ih => exact ⟨h.1.of_sameStart (hsame.append (join xs)), ih h.2⟩

theorem loose_word (hw : w.IsIdentifier) (hrest : rest.head?.any isIdentifierRest = false) :
    (⟨.word, w⟩ : Lexeme).Loose rest :=
  ⟨heads_word hw hrest, nofun⟩

/-! ### Words in the place of others -/

/-- Lexemes in the place of which an identifier may be put, if they start and end with a word, or
never. -/
structure Group where
  lexemes : List Lexeme
  /-- Whether an identifier may take the place. -/
  named : Bool
  words : named = true →
    (∃ x ∈ lexemes.head?, x.kind = .word) ∧ ∃ x ∈ lexemes.getLast?, x.kind = .word

/-- A group with the identifier that takes its place, if one does. -/
structure Patch extends Group where
  word? : Option Text
  fits : ∀ w ∈ word?, named = true ∧ w.IsIdentifier

namespace Patch

/-- What stands in the place in the end. -/
def result (p : Patch) : List Lexeme :=
  match p.word? with
  | some w => [⟨.word, w⟩]
  | none => p.lexemes

variable {ps : List Patch}

/-- In a chain, identifiers can take the place of groups. -/
theorem along_result (h : Along Loose (ps.flatMap fun p ↦ p.lexemes) rest) :
    Along Loose (ps.flatMap result) rest ∧
      (join (ps.flatMap fun p ↦ p.lexemes) ++ rest).SameStart
        (join (ps.flatMap result) ++ rest) := by
  induction ps with
  | nil => exact ⟨trivial, .refl _⟩
  | cons p ps ih =>
    rw [List.flatMap_cons, along_append] at h
    obtain ⟨hlexemes, hbehind⟩ := h
    obtain ⟨hresult, hsame⟩ := ih hbehind
    rw [List.flatMap_cons, List.flatMap_cons, along_append, join_append, join_append,
      List.append_assoc, List.append_assoc]
    obtain ⟨⟨lexemes, named, words⟩, word?, fits⟩ := p
    cases word? with
    | none => exact ⟨⟨hlexemes.of_sameStart hsame, hresult⟩, hsame.append _⟩
    | some w =>
      obtain ⟨hnamed, hw⟩ := fits w rfl
      obtain ⟨⟨x, hx, hfirst⟩, y, hy, hlast⟩ := words hnamed
      -- behind the last word no identifier can go on, before and now
      have hend : (join (ps.flatMap fun p ↦ p.lexemes) ++ rest).head?.any isIdentifierRest =
          false := by
        obtain ⟨front, rfl⟩ := List.getLast?_eq_some_iff.1 hy
        exact ((along_append.1 hlexemes).2.1.1.isIdentifier hlast).2
      rw [hsame.any_isIdentifierRest] at hend
      have hstarts :
          (join lexemes ++ (join (ps.flatMap fun p ↦ p.lexemes) ++ rest)).StartsWord := by
        obtain ⟨behind, rfl⟩ := List.head?_eq_some_iff.1 hx
        exact ((hlexemes.1.1.isIdentifier hfirst).1.1.append _).append _
      refine ⟨⟨⟨?_, trivial⟩, hresult⟩, .inl ⟨hstarts, ?_⟩⟩
      · exact loose_word hw hend
      · exact (hw.1.append _).append _

end Patch

/-! ### Tokens -/

/-- The tokens that lexemes are from an offset on, without the ignored ones. -/
def tokensFrom (offset : Nat) : List Lexeme → List Token
  | [] => []
  | x :: xs =>
    if Lexicon.shader.ignores x.kind then tokensFrom (offset + x.text.size) xs
    else x.token offset :: tokensFrom (offset + x.text.size) xs

theorem tokensFrom_append (offset : Nat) (xs ys : List Lexeme) :
    tokensFrom offset (xs ++ ys) =
      tokensFrom offset xs ++ tokensFrom (offset + (join xs).size) ys := by
  induction xs generalizing offset with
  | nil => rfl
  | cons x xs ih =>
    rw [List.cons_append, tokensFrom, tokensFrom, ih, join_cons, Text.size_append, Nat.add_assoc]
    split
    · rfl
    · rfl

end Lexeme

/-- The tokens from a cursor on in shader code, as many as can be lexed, but no more lexemes than
given are read. -/
def Cursor.tokensWithin : Nat → Cursor → List Token
  | 0, _ => []
  | n + 1, c =>
    match Lexicon.shader.lex c with
    | .token t next =>
      if Lexicon.shader.ignores t.kind then next.tokensWithin n else t :: next.tokensWithin n
    | _ => []

namespace Text

/-- The tokens of a text in shader code from an offset on, as many as can be lexed, without the
ignored ones. -/
def tokensAt (t : Text) (offset : Nat) : List Token :=
  (⟨(t.slice? (Span.between offset t.size)).getD [], offset⟩ : Cursor).tokensWithin t.length

/-- Inside the span no number stands directly in front of an identifier. -/
def NumbersApart (t : Text) (s : Span) : Prop :=
  ∀ n ∈ t.tokensAt s.start, ∀ w ∈ t.tokensAt s.start, n.kind = .number → w.kind = .word →
    w.span.stop ≤ s.stop → n.span.stop ≠ w.span.start

instance (t : Text) (s : Span) : Decidable (t.NumbersApart s) :=
  inferInstanceAs (Decidable (∀ n ∈ t.tokensAt s.start, ∀ w ∈ t.tokensAt s.start,
    n.kind = .number → w.kind = .word → w.span.stop ≤ s.stop → n.span.stop ≠ w.span.start))

/-- What is behind a cursor in a text is all of the text from its offset on. -/
theorem slice?_behind {front behind : Text} :
    (front ++ behind).slice? (Span.between front.size (front ++ behind).size) = some behind :=
  slice?_eq_some_iff.2 ⟨front, [], by simp, rfl, by simp⟩

end Text

namespace Lexeme

variable {x : Lexeme} {xs : List Lexeme} {rest front : Text}

theorem length_le_length_join (h : Along Heads xs rest) : xs.length ≤ (join xs).length := by
  induction xs with
  | nil => exact Nat.le_refl 0
  | cons x xs ih =>
    have hpos := List.length_pos_iff.2 h.1.ne_nil
    have hle := ih h.2
    rw [join_cons, List.length_append, List.length_cons]
    omega

/-- The tokens of a chain come first, and then those of what is behind it. -/
theorem tokensWithin_join (h : Along Heads xs rest) (n offset : Nat) :
    (⟨join xs ++ rest, offset⟩ : Cursor).tokensWithin (n + xs.length) =
      tokensFrom offset xs ++ (⟨rest, offset + (join xs).size⟩ : Cursor).tokensWithin n := by
  induction xs generalizing offset with
  | nil => rfl
  | cons x xs ih =>
    obtain ⟨hx, hxs⟩ := h
    show (⟨join (x :: xs) ++ rest, offset⟩ : Cursor).tokensWithin (n + xs.length + 1) = _
    rw [join_cons, List.append_assoc, Cursor.tokensWithin, hx.lex offset, tokensFrom]
    dsimp only
    rw [ih hxs, Text.size_append, ← Nat.add_assoc]
    show (if Lexicon.shader.ignores x.kind then _ else _) = _
    split
    · rfl
    · rfl

/-- The tokens of a chain in a text are the first ones from its offset on. -/
theorem exists_tokensAt (h : Along Heads xs rest) (front : Text) :
    ∃ n, (front ++ (join xs ++ rest)).tokensAt front.size =
      tokensFrom front.size xs ++
        (⟨rest, front.size + (join xs).size⟩ : Cursor).tokensWithin n := by
  have hle := length_le_length_join h
  obtain ⟨n, hn⟩ : ∃ n, (front ++ (join xs ++ rest)).length = n + xs.length :=
    ⟨(front ++ (join xs ++ rest)).length - xs.length, by
      rw [List.length_append, List.length_append]
      omega⟩
  refine ⟨n, ?_⟩
  rw [Text.tokensAt, Text.slice?_behind, Option.getD_some, hn]
  exact tokensWithin_join h n front.size

theorem stop_le_of_mem_tokensFrom {token : Token} {offset : Nat}
    (h : token ∈ tokensFrom offset xs) : token.span.stop ≤ offset + (join xs).size := by
  induction xs generalizing offset with
  | nil => exact absurd h List.not_mem_nil
  | cons x xs ih =>
    rw [join_cons, Text.size_append, ← Nat.add_assoc]
    rw [tokensFrom] at h
    split at h
    · exact ih h
    · rcases List.mem_cons.1 h with rfl | h
      · exact Nat.le_add_right (offset + x.text.size) _
      · exact ih h

/-- A token at a cursor starts there or behind, and is not empty. -/
theorem lt_stop_of_mem_tokensWithin {token : Token} {n : Nat} {c : Cursor}
    (h : token ∈ c.tokensWithin n) : c.offset < token.span.stop := by
  induction n generalizing c with
  | zero => exact absurd h List.not_mem_nil
  | succ n ih =>
    rw [Cursor.tokensWithin] at h
    split at h
    · rename_i found next hlex
      obtain ⟨x, -, hx, rfl, hoffset⟩ := exists_of_lex hlex
      have hpos : 0 < x.text.size :=
        Nat.pos_of_ne_zero fun hzero ↦ hx.ne_nil (Text.size_eq_zero_iff.1 hzero)
      have hfirst : c.offset < (x.token c.offset).span.stop := Nat.lt_add_of_pos_right hpos
      split at h
      · have := ih h
        omega
      · rcases List.mem_cons.1 h with rfl | h
        · exact hfirst
        · have := ih h
          omega
    · exact absurd h List.not_mem_nil

/-- The tokens of a chain in a text are those from its offset on that stop within it. -/
theorem filter_tokensAt (h : Along Heads xs rest) (front : Text) :
    (((front ++ (join xs ++ rest)).tokensAt front.size).filter fun t ↦
      t.span.stop ≤ front.size + (join xs).size) = tokensFrom front.size xs := by
  obtain ⟨n, htokens⟩ := exists_tokensAt h front
  have hbehind (token : Token)
      (h : token ∈ (⟨rest, front.size + (join xs).size⟩ : Cursor).tokensWithin n) :
      ¬token.span.stop ≤ front.size + (join xs).size :=
    Nat.not_le.2 (lt_stop_of_mem_tokensWithin h)
  rw [htokens, List.filter_append,
    List.filter_eq_self.2 fun token h ↦ decide_eq_true (stop_le_of_mem_tokensFrom h),
    List.filter_eq_nil_iff.2 fun token h ↦ by simpa using hbehind token h, List.append_nil]

/-- Where no number of a chain stands directly in front of a word, no lexeme depends on more than
the start of what stands behind it. -/
theorem Along.loose (offset : Nat) (h : Along Heads xs rest)
    (hapart : ∀ n ∈ tokensFrom offset xs, ∀ w ∈ tokensFrom offset xs, n.kind = .number →
      w.kind = .word → n.span.stop ≠ w.span.start)
    (hlast : ∀ x ∈ xs.getLast?, x.kind = .number → ¬rest.StartsWord) : Along Loose xs rest := by
  induction xs generalizing offset with
  | nil => trivial
  | cons x xs ih =>
    obtain ⟨hx, hxs⟩ := h
    have hsub : tokensFrom (offset + x.text.size) xs ⊆ tokensFrom offset (x :: xs) := by
      rw [tokensFrom]
      split
      · exact List.Subset.refl _
      · exact List.subset_cons_self _ _
    have hlast' : ∀ y ∈ xs.getLast?, y.kind = .number → ¬rest.StartsWord := by
      cases xs with
      | nil => exact nofun
      | cons y ys => rwa [List.getLast?_cons_cons] at hlast
    refine ⟨⟨hx, fun hkind hstarts ↦ ?_⟩, ih (offset + x.text.size) hxs
      (fun n hn w hw ↦ hapart n (hsub hn) w (hsub hw)) hlast'⟩
    -- the next lexeme would be a word
    cases xs with
    | nil => exact hlast x rfl hkind hstarts
    | cons y ys =>
      rw [join_cons, List.append_assoc] at hstarts
      have hword := hxs.1.kind_eq_word hstarts
      refine hapart (x.token offset) ?_ (y.token (offset + x.text.size)) (hsub ?_) hkind hword rfl
      · rw [tokensFrom, hkind]
        exact List.mem_cons_self
      · rw [tokensFrom, hword]
        exact List.mem_cons_self

/-- The same where numbers stand apart from identifiers in the text that the chain is in. -/
theorem along_loose (h : Along Heads xs rest)
    (hapart : (front ++ (join xs ++ rest)).NumbersApart ⟨front.size, (join xs).size⟩)
    (hlast : ∀ x ∈ xs.getLast?, x.kind ≠ .number) : Along Loose xs rest := by
  obtain ⟨n, htokens⟩ := exists_tokensAt h front
  refine h.loose front.size (fun n hn w hw hnumber hword ↦ ?_)
    fun x hx hkind ↦ absurd hkind (hlast x hx)
  refine hapart n ?_ w ?_ hnumber hword (stop_le_of_mem_tokensFrom hw)
  · exact htokens ▸ List.mem_append_left _ hn
  · exact htokens ▸ List.mem_append_left _ hw

end Lexeme

end ShaderLink
