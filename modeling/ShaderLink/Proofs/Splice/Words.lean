import ShaderLink.Proofs.Grammar.Steps
import ShaderLink.Proofs.Provenance.Renaming

/-!
# Replacing words token by token

Replacing words replaces lexemes of a chain (`Lexeme.replaced`). An identifier in the place of a
word never merges with what stands around it, as only a number could go on with it, so what comes of
a chain is a chain again, of as many lexemes. Hence a text with tokens still has tokens, the same up
to the texts of the words, and between them stands what stood there (`replaceWords_tokens`).
-/

namespace ShaderLink

/-- Whether the token is the dot in front of a member. -/
def Token.isDot (t : Token) : Bool :=
  t.kind == .symbol && t.text == "."

/-- The text that a token has when words are replaced, behind another token if there is one. -/
def Token.replaced (table : String → Option Text) (before? : Option Token) (t : Token) : String :=
  if t.kind = .word ∧ before?.any Token.isDot = false then
    ((table t.text).map String.ofList).getD t.text
  else
    t.text

namespace Lexeme

variable {table : String → Option Text} {behindDot : Bool} {x : Lexeme} {xs : List Lexeme}
  {rest : Text}

/-! ### Chains with words replaced -/

/-- The lexemes that stand there when words are replaced. -/
def replaced (table : String → Option Text) (behindDot : Bool) : List Lexeme → List Lexeme
  | [] => []
  | x :: xs =>
    ⟨x.kind, (replacement? table behindDot x).getD x.text⟩ ::
      replaced table (dotBehind behindDot [x]) xs

theorem length_replaced (table : String → Option Text) (behindDot : Bool) (xs : List Lexeme) :
    (replaced table behindDot xs).length = xs.length := by
  induction xs generalizing behindDot with
  | nil => rfl
  | cons x xs ih => exact congrArg (· + 1) (ih _)

theorem shown_wordSegments (table : String → Option Text) (behindDot : Bool) (xs : List Lexeme) :
    (wordSegments table behindDot xs).flatMap Segment.shown =
      join (replaced table behindDot xs) := by
  induction xs generalizing behindDot with
  | nil => rfl
  | cons x xs ih => exact congrArg (_ ++ ·) (ih _)

/-- What takes the place of a lexeme is an identifier for a word. -/
theorem of_replacement? (htable : ∀ word value, table word = some value → value.IsIdentifier)
    {w : Text} (h : replacement? table behindDot x = some w) : x.kind = .word ∧ w.IsIdentifier := by
  rw [replacement?] at h
  split at h
  · rename_i hword
    exact ⟨by simpa using (Bool.and_eq_true_iff.1 hword).1, htable _ _ h⟩
  · cases h

/-- A lexeme with what takes its place, as a patch. -/
def wordPatch (htable : ∀ word value, table word = some value → value.IsIdentifier)
    (behindDot : Bool) (x : Lexeme) : Patch where
  lexemes := [x]
  named := x.kind == .word
  words h := ⟨⟨x, rfl, by simpa using h⟩, x, rfl, by simpa using h⟩
  word? := replacement? table behindDot x
  fits w hw := by simpa using of_replacement? htable hw

theorem result_wordPatch (htable : ∀ word value, table word = some value → value.IsIdentifier)
    (behindDot : Bool) (x : Lexeme) : (wordPatch htable behindDot x).result =
      [⟨x.kind, (replacement? table behindDot x).getD x.text⟩] := by
  cases h : replacement? table behindDot x with
  | none => simp [Patch.result, wordPatch, h]
  | some w => simp [Patch.result, wordPatch, h, (of_replacement? htable h).1]

/-- A chain is still one when identifiers are put in the place of words. -/
theorem along_replaced (htable : ∀ word value, table word = some value → value.IsIdentifier)
    (behindDot : Bool) (h : Along Loose xs rest) :
    Along Loose (replaced table behindDot xs) rest := by
  have hpatches (behindDot : Bool) (xs : List Lexeme) : ∃ ps : List Patch,
      (ps.flatMap fun p ↦ p.lexemes) = xs ∧
        ps.flatMap Patch.result = replaced table behindDot xs := by
    induction xs generalizing behindDot with
    | nil => exact ⟨[], rfl, rfl⟩
    | cons x xs ih =>
      obtain ⟨ps, hlexemes, hresult⟩ := ih (dotBehind behindDot [x])
      refine ⟨wordPatch htable behindDot x :: ps, congrArg (x :: ·) hlexemes, ?_⟩
      rw [List.flatMap_cons, result_wordPatch, hresult]
      rfl
  obtain ⟨ps, rfl, hresult⟩ := hpatches behindDot xs
  rw [← hresult]
  exact (Patch.along_result h).1

/-! ### Tokens of such chains -/

/-- The tokens stay, in order and of their kinds, only that words have the texts put in. -/
theorem tokensFrom_replaced (before? : Option Token) (offset offset' : Nat) (xs : List Lexeme) :
    ((tokensFrom offset' (replaced table (before?.any Token.isDot) xs)).map fun t ↦
        (t.kind, t.text)) =
      ((before? :: (tokensFrom offset xs).map some).zip (tokensFrom offset xs)).map fun p ↦
        (p.2.kind, p.2.replaced table p.1) := by
  induction xs generalizing before? offset offset' with
  | nil => rfl
  | cons x xs ih =>
    rw [replaced, tokensFrom, tokensFrom]
    by_cases hignored : Lexicon.shader.ignores x.kind = true
    · rw [if_pos hignored, if_pos hignored, dotBehind_of_ignored _ hignored]
      exact ih before? _ _
    · rw [if_neg hignored, if_neg hignored, dotBehind_of_kept _ hignored, List.map_cons,
        List.map_cons, List.zip_cons_cons, List.map_cons, ← ih (some (x.token offset))]
      congr 2
      simp only [Token.replaced, token, replacement?]
      by_cases hword : x.kind = .word
      · cases before?.any Token.isDot with
        | false =>
          cases table (String.ofList x.text) <;> simp [hword]
        | true => simp [hword]
      · simp [hword]

/-- The texts between the tokens of a chain, given what has been passed since the last token. -/
def gapTexts (passed : Text) : List Lexeme → List Text
  | [] => [passed]
  | x :: xs =>
    if Lexicon.shader.ignores x.kind then gapTexts (passed ++ x.text) xs
    else passed :: gapTexts [] xs

theorem gapTexts_replaced (passed : Text) (xs : List Lexeme) :
    gapTexts passed (replaced table behindDot xs) = gapTexts passed xs := by
  induction xs generalizing behindDot passed with
  | nil => rfl
  | cons x xs ih =>
    rw [replaced, gapTexts, gapTexts, ih, ih]
    by_cases hignored : Lexicon.shader.ignores x.kind = true
    · rw [if_pos hignored, if_pos hignored]
      dsimp only
      rw [replacement?_of_ignored table behindDot hignored]
      rfl
    · rw [if_neg hignored, if_neg hignored]

/-- What stands between the tokens of a chain. -/
theorem map_slice?_gaps (front passed : Text) (xs : List Lexeme) :
    (Text.gaps front.size (front ++ (passed ++ join xs)).size
        (tokensFrom (front.size + passed.size) xs)).map (front ++ (passed ++ join xs)).slice? =
      (gapTexts passed xs).map some := by
  have hslice (front passed behind : Text) : (front ++ (passed ++ behind)).slice?
      (Span.between front.size (front.size + passed.size)) = some passed := by
    rw [Span.between, Nat.add_sub_cancel_left, ← List.append_assoc]
    exact Text.slice?_append front passed behind
  induction xs generalizing front passed with
  | nil =>
    have hsize : (front ++ (passed ++ join [])).size = front.size + passed.size := by simp
    rw [tokensFrom, Text.gaps, gapTexts, hsize, List.map_singleton, hslice]
    rfl
  | cons x xs ih =>
    rw [tokensFrom, gapTexts]
    split
    · have hrest := ih front (passed ++ x.text)
      have hsize :
          front.size + (passed ++ x.text).size = front.size + passed.size + x.text.size := by
        rw [Text.size_append, Nat.add_assoc]
      rwa [hsize, List.append_assoc passed] at hrest
    · have hrest := ih (front ++ (passed ++ x.text)) []
      have htext : front ++ (passed ++ x.text) ++ ([] ++ join xs) =
          front ++ (passed ++ join (x :: xs)) := by simp
      have hsize : (front ++ (passed ++ x.text)).size = front.size + passed.size + x.text.size := by
        simp [Nat.add_assoc]
      rw [htext, hsize, Text.size_nil, Nat.add_zero] at hrest
      rw [Text.gaps, List.map_cons, List.map_cons, ← hrest]
      exact congrArg (· :: _) (hslice front passed (join (x :: xs)))

/-- The gaps in a chain keep their texts when words are replaced. -/
theorem map_slice?_gaps_replaced (table : String → Option Text) (xs : List Lexeme) :
    (Text.gaps 0 (join (replaced table false xs)).size
        (tokensFrom 0 (replaced table false xs))).map (join (replaced table false xs)).slice? =
      (Text.gaps 0 (join xs).size (tokensFrom 0 xs)).map (join xs).slice? := by
  have hnew := map_slice?_gaps [] [] (replaced table false xs)
  rw [gapTexts_replaced] at hnew
  exact hnew.trans (map_slice?_gaps [] [] xs).symm

end Lexeme

open Lexeme

/-- Replacing words in a chain leaves the chain with words replaced. -/
theorem exists_replaceWords {xs : List Lexeme} {tokens : List Token} (halong : Along Heads xs [])
    (htokens : tokenize (join xs) = .ok tokens) (table : String → Option Text) (source : SourceId) :
    ∃ m, replaceWords table (join xs) source = .ok m ∧
      m.text = join (replaced table false xs) := by
  let file : SourceText := ⟨source, join xs⟩
  have hfile : (Traced.copy file 0 (join xs)).InFile file := Traced.inFile_copy file 0 (join xs)
  have hgiven : (none : Option Span).getD (join xs).span = (join xs).span := rfl
  obtain ⟨m, hm, -, hthrough⟩ := SourceMap.exists_applyAll hfile
    (Splice.suit_replacements table (join xs)) hgiven source
  have htext : (Traced.copy file 0 (join xs)).text = join xs := rfl
  obtain ⟨hwords, hsplice⟩ := Traced.splice_replacements htext halong htokens table
  refine ⟨m, (replaceWords_eq table (join xs) source).trans hm, ?_⟩
  rw [hthrough.text, ← shown_wordSegments]
  exact (congrArg Traced.text hsplice).trans (Traced.text_patched hwords)

/-- A text with tokens in which no number stands directly in front of a word still has tokens when
identifiers are put in the place of words. They are the same, in order and of their kinds, except
that words have the texts put in, unless they stand behind a dot. What stands between them stays. -/
theorem replaceWords_tokens {table : String → Option Text} {t : Text} {tokens : List Token}
    (htokens : tokenize t = .ok tokens)
    (hapart : ∀ n ∈ tokens, ∀ w ∈ tokens, n.kind = .number → w.kind = .word →
      n.span.stop ≠ w.span.start)
    (htable : ∀ word value, table word = some value → value.IsIdentifier) (source : SourceId) :
    ∃ m tokens', replaceWords table t source = .ok m ∧ tokenize m.text = .ok tokens' ∧
      (tokens'.map fun t ↦ (t.kind, t.text)) =
        (((none :: tokens.map some).zip tokens).map fun p ↦ (p.2.kind, p.2.replaced table p.1)) ∧
      (Text.gaps 0 m.text.size tokens').map m.text.slice? =
        (Text.gaps 0 t.size tokens).map t.slice? := by
  obtain ⟨xs, rfl, halong, hlimit, rfl⟩ := tokenize_eq_ok_iff.1 htokens
  obtain ⟨m, hm, htext⟩ := exists_replaceWords halong htokens table source
  -- words and what takes their place stand apart from the lexemes around them
  have hloose : Along Loose xs [] := halong.loose 0 hapart fun _ _ _ ↦ by decide
  have halong' := (along_replaced htable false hloose).heads
  refine ⟨m, tokensFrom 0 (replaced table false xs), hm, ?_, tokensFrom_replaced none 0 0 xs, ?_⟩
  · rw [htext]
    exact tokenize_of_chain halong' (by rwa [length_replaced])
  · rw [htext]
    exact map_slice?_gaps_replaced table xs

/-- A sum of a member of the name `n`, of `n` itself with `n` in a comment behind it, and of a
number. -/
def memberSum : Text :=
  "a.n + n/*n*/+2. ".toList

/-- Puts `m1` in the place of `n`. -/
def renameN (word : String) : Option Text :=
  if word = "n" then some "m1".toList else none

theorem replaceWords_tokens_memberSum : ∃ tokens, tokenize memberSum = .ok tokens ∧
    ∃ m tokens', replaceWords renameN memberSum ⟨"a"⟩ = .ok m ∧ tokenize m.text = .ok tokens' ∧
      tokens'.map Token.text = ["a", ".", "n", "+", "m1", "+", "2."] ∧
      (Text.gaps 0 m.text.size tokens').map m.text.slice? =
        ["", "", "", " ", " ", "/*n*/", "", " "].map fun s ↦ some s.toList := by
  have htokens : tokenize memberSum = .ok [⟨.word, "a", ⟨0, 1⟩⟩, ⟨.symbol, ".", ⟨1, 1⟩⟩,
      ⟨.word, "n", ⟨2, 1⟩⟩, ⟨.symbol, "+", ⟨4, 1⟩⟩, ⟨.word, "n", ⟨6, 1⟩⟩, ⟨.symbol, "+", ⟨12, 1⟩⟩,
      ⟨.number, "2.", ⟨13, 2⟩⟩] := by
    decide +kernel
  have htable : ∀ word value, renameN word = some value → value.IsIdentifier := by
    intro word value h
    rw [renameN] at h
    split at h
    · obtain rfl := Option.some.inj h
      decide
    · cases h
  obtain ⟨m, tokens', hm, htokens', htexts, hgaps⟩ :=
    replaceWords_tokens htokens (by decide) htable ⟨"a"⟩
  refine ⟨_, htokens, m, tokens', hm, htokens', ?_, hgaps.trans (by decide)⟩
  have htexts := congrArg (List.map Prod.snd) htexts
  rw [List.map_map] at htexts
  exact htexts.trans (by decide)

end ShaderLink
