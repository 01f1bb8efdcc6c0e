import ShaderLink.Proofs.Grammar.Lossless
import ShaderLink.Proofs.Module.Unplaced
import ShaderLink.Proofs.Provenance.Conditional

/-!
# Layout does not matter

Two texts with the same tokens, as far as kinds and spelling go, are the same module but for the
places of things, or they fail with the same message (`Module.parse_of_same_tokens`). This holds of
texts without directives and imports, whose lines are read in their own way, and if there are steps
enough for the longer one.
-/

namespace ShaderLink

open Lexeme

/-! ### The lexemes of a text -/

/-- A token as it is spelled, wherever it stands. -/
def Token.spelling (t : Token) : TokenKind × String :=
  (t.kind, t.text)

/-- The tokens of lexemes are spelled like those that are not ignored. -/
theorem Lexeme.spelling_tokensFrom (offset : Nat) (xs : List Lexeme) :
    (tokensFrom offset xs).map Token.spelling =
      (significant xs).map fun x ↦ (x.kind, String.ofList x.text) := by
  induction xs generalizing offset with
  | nil => rfl
  | cons x xs ih =>
    rw [tokensFrom, significant, List.filter_cons]
    by_cases hx : Lexicon.shader.ignores x.kind = true
    · rw [if_pos hx, if_neg (by simp [hx]), ih]
      rfl
    · rw [if_neg hx, if_pos (by simp [hx]), List.map_cons, List.map_cons, ih]
      rfl

namespace Cursor

variable {c c₁ c' : Cursor} {x : Lexeme} {xs : List Lexeme}

/-- Behind an ignored lexeme the same lexemes are left. -/
theorem SpellsAll.behind (hx : c.Lexes [x] c₁) (hignored : Lexicon.shader.ignores x.kind = true)
    (h : c₁.SpellsAll xs) : c.SpellsAll xs := by
  obtain ⟨c', hspells, hends⟩ := h
  have hall : Ignored [x] := List.forall_mem_singleton.2 hignored
  cases hspells with
  | nil =>
    obtain ⟨ys, c', hys, hignored', hend⟩ := hends
    exact ⟨c, .nil c, [x] ++ ys, c', hx.trans hys, List.forall_mem_append.2 ⟨hall, hignored'⟩, hend⟩
  | cons hnext hrest => exact ⟨c', .cons (hnext.behind hx hall) hrest, hends⟩

/-- At the start of a chain, the lexemes that are not ignored are left. -/
theorem Lexes.spellsAll (h : c.Lexes xs c') (hend : c'.rest = []) :
    c.SpellsAll (significant xs) := by
  induction xs generalizing c with
  | nil =>
    obtain rfl := h.eq_of_nil
    exact ⟨c, .nil c, [], c, .refl c, List.forall_mem_nil _, hend⟩
  | cons x xs ih =>
    obtain ⟨c₁, hx, hrest⟩ := h.uncons
    have hbehind := ih hrest
    rw [significant, List.filter_cons]
    by_cases hignored : Lexicon.shader.ignores x.kind = true
    · rw [if_neg (by simp [hignored])]
      exact hbehind.behind hx hignored
    · rw [if_pos (by simp [hignored])]
      obtain ⟨c₂, hspells, hends⟩ := hbehind
      exact ⟨c₂, .cons ⟨[], hx, List.forall_mem_nil _, Bool.eq_false_iff.2 hignored⟩ hspells, hends⟩

end Cursor

/-- What is left at the start of a text is spelled like its tokens. -/
theorem exists_leaves_of_tokenize {t : Text} {tokens : List Token} (h : tokenize t = .ok tokens)
    (hcode : ∀ token ∈ tokens, token.kind ≠ .directive ∧ token.text ∉ ["module", "import"]) :
    ∃ xs : List Lexeme, (Cursor.start t).Leaves (t.size + 1) xs ∧
      tokens.map Token.spelling = xs.map fun x ↦ (x.kind, String.ofList x.text) := by
  obtain ⟨xs, rfl, halong, rfl⟩ := exists_chain_of_tokenize h
  have hlexes : (Cursor.start (join xs)).Lexes xs ⟨[], (join xs).size⟩ :=
    ⟨(List.append_nil _).symm, (Nat.zero_add _).symm, halong⟩
  have hspelling := spelling_tokensFrom 0 xs
  refine ⟨significant xs, ⟨hlexes.spellsAll rfl,
    Nat.lt_succ_of_le (Text.length_le_size _), fun x hx ↦ ?_⟩, hspelling⟩
  have hmem : (x.kind, String.ofList x.text) ∈ (tokensFrom 0 xs).map Token.spelling := by
    rw [hspelling]
    exact List.mem_map_of_mem hx
  obtain ⟨token, htoken, heq⟩ := List.mem_map.1 hmem
  obtain ⟨hkind, htext⟩ := Prod.mk.inj heq
  rw [Lexeme.IsCode, ← hkind, ← htext]
  exact hcode token htoken

/-- Lexemes are what they are spelled like. -/
theorem Lexeme.eq_of_spellings {xs ys : List Lexeme}
    (h : (xs.map fun x ↦ (x.kind, String.ofList x.text)) =
      ys.map fun x ↦ (x.kind, String.ofList x.text)) : xs = ys := by
  refine List.map_injective_iff.2 (fun x y hxy ↦ ?_) h
  obtain ⟨kind, text⟩ := x
  obtain ⟨kind', text'⟩ := y
  obtain ⟨hkind, htext⟩ := Prod.mk.inj hxy
  exact congrArg₂ Lexeme.mk hkind (String.ofList_inj.1 htext)

/-! ### Parsing -/

/-- With enough steps a run on the whole text comes to what the parser meets. -/
theorem Parser.Meets.exists_run {α : Type} {p : Parser α} {t : Text} {o : Outcome α}
    (h : p.Meets (t.size + 1) (Cursor.start t) o) :
    ∃ k, ∀ steps, k ≤ steps → ∃ e, p.run steps t = (o, e) := by
  obtain ⟨k, h⟩ := h
  refine ⟨k, fun steps hsteps ↦ ?_⟩
  obtain ⟨e, -, hrun⟩ := h steps .none (by rwa [Effort.none, Nat.zero_add])
  exact ⟨e, hrun⟩

namespace Module

/-- Texts that are tokenized alike, with no conditional lines, directives and imports, are parsed
alike if enough steps may be taken: to modules that differ in places only, or to errors of the same
message and notes, which do not say that steps are missing. -/
theorem parse_of_same_tokens {t t' : Text} {tokens tokens' : List Token}
    (hlines : ∀ line ∈ t.lines, Conditional.directive? line = none)
    (hlines' : ∀ line ∈ t'.lines, Conditional.directive? line = none)
    (htokens : tokenize t = .ok tokens) (htokens' : tokenize t' = .ok tokens')
    (hcode : ∀ token ∈ tokens, token.kind ≠ .directive ∧ token.text ∉ ["module", "import"])
    (hsame : tokens.map Token.spelling = tokens'.map Token.spelling) :
    ∃ steps, ∀ options options' file, steps ≤ options.maxSteps → steps ≤ options'.maxSteps →
      match parse options file t, parse options' file t' with
      | .ok m, .ok m' => m.SameUpToPlaces m'
      | .error e, .error e' =>
        e.message = e'.message ∧ e.notes = e'.notes ∧ .invalid .stepLimit ∉ e.notes
      | _, _ => False := by
  have hcode' : ∀ token ∈ tokens', token.kind ≠ .directive ∧
      token.text ∉ ["module", "import"] := by
    intro token' htoken'
    have hmem := List.mem_map_of_mem (f := Token.spelling) htoken'
    rw [← hsame] at hmem
    obtain ⟨token, htoken, heq⟩ := List.mem_map.1 hmem
    obtain ⟨hkind, htext⟩ := Prod.mk.inj heq
    rw [← hkind, ← htext]
    exact hcode token htoken
  obtain ⟨xs, hleaves, hxs⟩ := exists_leaves_of_tokenize htokens hcode
  obtain ⟨xs', hleaves', hxs'⟩ := exists_leaves_of_tokenize htokens' hcode'
  -- the same spellings are the same lexemes, so both readers meet the same
  obtain rfl : xs = xs' := eq_of_spellings (by rw [← hxs, hsame, hxs'])
  obtain ⟨o, o', hmeets, hmeets', ho⟩ := Parser.Agree.items _ _ hleaves hleaves'
  obtain ⟨k, hrun⟩ := hmeets.exists_run
  obtain ⟨k', hrun'⟩ := hmeets'.exists_run
  -- steps enough for both
  refine ⟨max k k', fun options options' file hk hk' ↦ ?_⟩
  obtain ⟨e, hrun⟩ := hrun options.maxSteps (le_of_max_le_left hk)
  obtain ⟨e', hrun'⟩ := hrun' options'.maxSteps (le_of_max_le_right hk')
  rw [← Conditional.text_process hlines options.conditions ⟨file⟩] at hrun
  rw [← Conditional.text_process hlines' options'.conditions ⟨file⟩] at hrun'
  unfold parse
  simp only [hrun, hrun']
  cases ho with
  | accepted _ _ hitems =>
    exact same_ofItems hitems file (Conditional.warnings_process hlines _ _)
      (Conditional.warnings_process hlines' _ _)
  | refused => exact ⟨rfl, rfl, List.not_mem_nil⟩
  | aborted hnotes =>
    refine ⟨?_, rfl, hnotes⟩
    show Note.summary _ _ = Note.summary _ _
    rw [Note.summary, Note.summary, if_neg hnotes, if_neg hnotes]

/-- A function on one line, and with comments between its tokens. -/
theorem parse_of_same_tokens_function :
    ∃ steps, ∀ options options' file, steps ≤ options.maxSteps → steps ≤ options'.maxSteps →
      match parse options file "fn f()\x7b\x7d".toList,
        parse options' file "fn f/* no */( ) \x7b\n\x7d // f".toList with
      | .ok m, .ok m' => m.SameUpToPlaces m'
      | .error e, .error e' =>
        e.message = e'.message ∧ e.notes = e'.notes ∧ .invalid .stepLimit ∉ e.notes
      | _, _ => False := by
  have htokens : tokenize "fn f()\x7b\x7d".toList = .ok [⟨.word, "fn", ⟨0, 2⟩⟩,
      ⟨.word, "f", ⟨3, 1⟩⟩, ⟨.symbol, "(", ⟨4, 1⟩⟩, ⟨.symbol, ")", ⟨5, 1⟩⟩,
      ⟨.symbol, "\x7b", ⟨6, 1⟩⟩, ⟨.symbol, "\x7d", ⟨7, 1⟩⟩] := by decide +kernel
  have htokens' : tokenize "fn f/* no */( ) \x7b\n\x7d // f".toList = .ok [⟨.word, "fn", ⟨0, 2⟩⟩,
      ⟨.word, "f", ⟨3, 1⟩⟩, ⟨.symbol, "(", ⟨12, 1⟩⟩, ⟨.symbol, ")", ⟨14, 1⟩⟩,
      ⟨.symbol, "\x7b", ⟨16, 1⟩⟩, ⟨.symbol, "\x7d", ⟨18, 1⟩⟩] := by decide +kernel
  exact parse_of_same_tokens (by decide) (by decide) htokens htokens' (by decide) rfl

end Module

end ShaderLink
