import ShaderLink.Proofs.Grammar.Lossless

/-!
# The texts that have tokens

Every lexeme of a text costs a step, ignored ones too, and one more is needed to see that nothing is
left. So a text has tokens exactly if it is a chain of lexemes of which there are fewer than there
may be steps (`tokenize_eq_ok_iff`).
-/

namespace ShaderLink

open Lexeme

namespace Cursor

variable {c c₁ c₂ : Cursor} {xs ys : List Lexeme}

/-- What is read up to somewhere is read first by whoever reads up to the end. -/
theorem Lexes.exists_append (h : c.Lexes xs c₁) (hend : c₁.rest = []) (h' : c.Lexes ys c₂) :
    ∃ zs, xs = ys ++ zs ∧ c₂.Lexes zs c₁ := by
  induction ys generalizing c xs with
  | nil =>
    obtain rfl := h'.eq_of_nil
    exact ⟨xs, rfl, h⟩
  | cons y ys ih =>
    cases xs with
    | nil =>
      have hrest : join (y :: ys) ++ c₂.rest = [] := by rw [← h'.rest, h.rest, hend]; rfl
      rw [join_cons, List.append_eq_nil_iff, List.append_eq_nil_iff] at hrest
      exact absurd hrest.1.1 h'.along.1.ne_nil
    | cons x xs =>
      obtain ⟨rfl, c₃, hxs, hys⟩ := h.unique h'
      obtain ⟨zs, rfl, hzs⟩ := ih hxs hys
      exact ⟨zs, rfl, hzs⟩

/-- In a chain nothing is broken. -/
theorem Lexes.lex_ne_broken (h : c.Lexes xs c₁) (hend : c₁.rest = []) (notes : List Note) :
    Lexicon.shader.lex c ≠ .broken notes := by
  cases xs with
  | nil =>
    obtain rfl := h.eq_of_nil
    obtain ⟨rest, offset⟩ := c
    obtain rfl : rest = [] := hend
    exact nofun
  | cons x xs =>
    obtain ⟨c₂, hx, -⟩ := h.uncons
    rw [hx.lex_eq]
    exact nofun

/-- From the cursor on, chains of lexemes with the steps for all of them and one more are left. -/
def Affords (c : Cursor) (limit steps : Nat) : Prop :=
  ∃ xs c', c.Lexes xs c' ∧ c'.rest = [] ∧ steps + xs.length < limit

theorem Lexes.affords {limit steps : Nat} (h : c.Lexes xs c₁)
    (hrest : c₁.Affords limit (steps + xs.length)) : c.Affords limit steps := by
  obtain ⟨ys, c', hys, hend, hlt⟩ := hrest
  refine ⟨xs ++ ys, c', h.trans hys, hend, ?_⟩
  rwa [List.length_append, ← Nat.add_assoc]

end Cursor

namespace Parser

variable {limits : Limits} {c c' : Cursor} {e e' : Effort}

/-- Where no token is left there was a step for each of the ignored lexemes, and one more. -/
theorem affords_of_tokenWithin_refused {n : Nat} (hn : c.rest.length < n)
    (h : tokenWithin .shader n limits c e = (.refused, e')) : c.Affords limits.steps e.steps := by
  induction n generalizing c e with
  | zero => exact absurd hn (Nat.not_lt_zero _)
  | succ n ih =>
    rw [tokenWithin] at h
    simp only [Bind.bind, lex] at h
    by_cases hlimit : limits.steps < e.step.steps
    · rw [if_pos hlimit] at h
      cases h
    · rw [if_neg hlimit] at h
      cases hlex : Lexicon.shader.lex c with
      | finished => exact ⟨[], c, .refl c, Cursor.rest_eq_nil_of_lexWith hlex, Nat.not_lt.1 hlimit⟩
      | broken notes =>
        rw [hlex] at h
        cases h
      | token t next =>
        rw [hlex] at h
        obtain ⟨x, hx, -⟩ := Cursor.Lexes.of_lex hlex
        have hshorter := hx.length_lt
        dsimp only at h
        by_cases hignored : Lexicon.shader.ignores t.kind = true
        · rw [if_pos hignored, if_pos hignored] at h
          exact hx.affords (ih (by omega) h)
        · rw [if_neg hignored] at h
          cases h

/-- Where all tokens have been read there was a step for each lexeme, and one more. -/
theorem affords_of_manyWithin {n : Nat} {tokens : List Token} (hn : c.rest.length < n)
    (hrounds : c.rest.length < limits.rounds)
    (h : manyWithin (token .shader) n limits c e = (.accepted tokens c', e')) :
    c.Affords limits.steps e.steps := by
  induction n generalizing c e tokens c' e' with
  | zero => exact absurd hn (Nat.not_lt_zero _)
  | succ n ih =>
    have hcounts := Counts.token limits c e
    rw [manyWithin] at h
    cases houtcome : token .shader limits c e with
    | mk o e₁ =>
    rw [houtcome] at hcounts
    simp only [Bind.bind, optional, orElse, Functor.map, houtcome] at h
    cases o with
    | refused => exact affords_of_tokenWithin_refused hrounds houtcome
    | aborted notes => cases h
    | accepted t c₁ =>
      -- the first token takes its own steps, and the rest has the others
      obtain ⟨xs, hxs, hsteps⟩ := hcounts
      have hyields : (token .shader).Yields c t c₁ := ⟨_, _, _, houtcome⟩
      obtain ⟨x, -, hnext, -⟩ := hyields.next
      have hshorter := hnext.length_lt
      dsimp only [Function.comp, Pure.pure] at h
      cases hrest : manyWithin (token .shader) n limits c₁ e₁ with
      | mk o e₂ =>
      rw [hrest] at h
      cases o with
      | refused => cases h
      | aborted notes => cases h
      | accepted ts c₂ =>
        have haffords :=
          ih (hshorter.trans_le (Nat.le_of_lt_succ hn)) (hshorter.trans hrounds) hrest
        rw [hsteps] at haffords
        exact hxs.affords haffords

end Parser

/-- Where the limit on steps allows for all lexemes of a chain and one step more, the text has
tokens. -/
theorem tokenize_of_chain {xs : List Lexeme} (h : Along Heads xs [])
    (hlimit : xs.length < defaultSteps) : tokenize (join xs) = .ok (tokensFrom 0 xs) := by
  cases htokens : tokenize (join xs) with
  | ok tokens => rw [tokens_eq_of_tokenize h htokens]
  | error error =>
    obtain ⟨ys, c, hys, hstops⟩ := stops_of_tokenize htokens
    have hxs : (Cursor.start (join xs)).Lexes xs ⟨[], (join xs).size⟩ :=
      ⟨(List.append_nil _).symm, (Nat.zero_add _).symm, h⟩
    obtain ⟨zs, rfl, hzs⟩ := hxs.exists_append rfl hys
    rcases hstops with hbroken | ⟨hsteps, -⟩
    · exact absurd hbroken (hzs.lex_ne_broken rfl _)
    · rw [List.length_append] at hlimit
      omega

/-- The texts that have tokens are the chains of lexemes of which there are fewer than there may be
steps, and their tokens are the lexemes that are not ignored. -/
theorem tokenize_eq_ok_iff {t : Text} {tokens : List Token} : tokenize t = .ok tokens ↔
    ∃ xs, t = join xs ∧ Along Heads xs [] ∧ xs.length < defaultSteps ∧
      tokens = tokensFrom 0 xs := by
  constructor
  · intro h
    have hrun : (Parser.many (Parser.token .shader)).run defaultSteps t =
        Parser.manyWithin (Parser.token .shader) (t.size + 1) (.of defaultSteps t)
          (Cursor.start t) .none := rfl
    have hroom : (Cursor.start t).rest.length < t.size + 1 :=
      Nat.lt_succ_of_le (Text.length_le_size t)
    suffices hchain : ∃ xs, t = join xs ∧ Along Heads xs [] ∧ xs.length < defaultSteps by
      obtain ⟨xs, rfl, halong, hlimit⟩ := hchain
      exact ⟨xs, rfl, halong, hlimit, tokens_eq_of_tokenize halong h⟩
    rw [tokenize, hrun] at h
    cases houtcome : Parser.manyWithin (Parser.token .shader) (t.size + 1) (.of defaultSteps t)
      (Cursor.start t) .none with
    | mk o e =>
    rw [houtcome] at h
    cases o with
    | refused => cases h
    | aborted notes => cases h
    | accepted tokens' c =>
      obtain ⟨xs, c', hxs, hend, hlimit⟩ := Parser.affords_of_manyWithin hroom hroom houtcome
      refine ⟨xs, ?_, ?_, (Nat.zero_add xs.length) ▸ hlimit⟩
      · have hrest := hxs.rest
        rwa [hend, List.append_nil] at hrest
      · have halong := hxs.along
        rwa [hend] at halong
  · rintro ⟨xs, rfl, halong, hlimit, rfl⟩
    exact tokenize_of_chain halong hlimit

end ShaderLink
