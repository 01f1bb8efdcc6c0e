import Mathlib.Logic.Relation
import ShaderLink.Proofs.Token.Locality

/-!
# Nested comments

Where a block comment ends is decided by counting. Read from the left inside a comment, `*/` closes
the innermost comment that is open, `/*` opens one more, and every other character is passed; the
comment ends where none is open any more (`Text.leaveComments?`). The lexical rule calls itself for
each comment inside another instead, and comes to the same (`Scan.leaveComments?_succ`).

Step by step, the count and what is left to read are the states of a machine (`Text.commentStep`).
It comes to rest where no comment is open or at the end of the text, and these are the two ways for
the rule to end once a comment has been opened (`Scan.blockComment_counts`).
-/

namespace ShaderLink

namespace Text

/-- Splits a text that starts inside the given number of comments behind the place where the last of
them is closed. -/
def leaveComments? : Nat → Text → Option (Text × Text)
  | 0, t => some ([], t)
  | _ + 1, [] => none
  | depth + 1, '*' :: '/' :: t =>
    (leaveComments? depth t).map fun p ↦ ('*' :: '/' :: p.1, p.2)
  | depth + 1, '/' :: '*' :: t =>
    (leaveComments? (depth + 2) t).map fun p ↦ ('/' :: '*' :: p.1, p.2)
  | depth + 1, c :: t => (leaveComments? (depth + 1) t).map fun p ↦ (c :: p.1, p.2)

/-- A comment in which as many comments are closed as are opened, and not before its end. -/
def IsBlockComment (t : Text) : Prop :=
  ∃ body, t = '/' :: '*' :: body ∧ leaveComments? 1 body = some (body, [])

/-- The text starts with a comment that is never closed. -/
def OpensComment (t : Text) : Prop :=
  ∃ body, t = '/' :: '*' :: body ∧ leaveComments? 1 body = none

/-! ### Counting step by step -/

/-- One step inside comments, with the number of those that are open and what is left to read. Both
characters that close or open a comment are passed at once, and any other character by itself. -/
def commentStep : Nat × Text → Option (Nat × Text)
  | (0, _) => none
  | (_ + 1, []) => none
  | (depth + 1, '*' :: '/' :: t) => some (depth, t)
  | (depth + 1, '/' :: '*' :: t) => some (depth + 2, t)
  | (depth + 1, _ :: t) => some (depth + 1, t)

/-- Some steps lead from one state to the other. -/
def Counts : Nat × Text → Nat × Text → Prop :=
  Relation.ReflTransGen fun s s' ↦ commentStep s = some s'

theorem Counts.eq_of_commentStep {s s' : Nat × Text} (h : Counts s s') (hs : commentStep s = none) :
    s' = s := by
  rcases Relation.ReflTransGen.cases_head h with rfl | ⟨next, hnext, -⟩
  · rfl
  · rw [hs] at hnext
    cases hnext

/-- Counting comes to rest in one state only. -/
theorem Counts.unique {s s₁ s₂ : Nat × Text} (h₁ : Counts s s₁) (h₂ : Counts s s₂)
    (hrest₁ : commentStep s₁ = none) (hrest₂ : commentStep s₂ = none) : s₁ = s₂ := by
  have hstep : Relator.RightUnique fun s s' : Nat × Text ↦ commentStep s = some s' :=
    fun _ _ _ hs hs' ↦ Option.some.inj (hs.symm.trans hs')
  rcases Relation.ReflTransGen.total_of_right_unique hstep h₁ h₂ with h | h
  · exact (Counts.eq_of_commentStep h hrest₁).symm
  · exact Counts.eq_of_commentStep h hrest₂

/-- Where the last comment is closed, counting comes to rest. -/
theorem counts_of_leaveComments? {depth : Nat} {t s rest : Text}
    (h : leaveComments? depth t = some (s, rest)) : Counts (depth, t) (0, rest) := by
  fun_induction leaveComments? depth t generalizing s rest with
  | case1 t =>
    obtain ⟨-, rfl⟩ := Prod.mk.inj (Option.some.inj h)
    exact .refl
  | case2 depth => cases h
  | case3 depth t ih =>
    obtain ⟨p, hp, heq⟩ := Option.map_eq_some_iff.1 h
    obtain ⟨-, rfl⟩ := Prod.mk.inj heq
    exact .head rfl (ih hp)
  | case4 depth t ih =>
    obtain ⟨p, hp, heq⟩ := Option.map_eq_some_iff.1 h
    obtain ⟨-, rfl⟩ := Prod.mk.inj heq
    exact .head rfl (ih hp)
  | case5 depth c t hclose hopen ih =>
    obtain ⟨p, hp, heq⟩ := Option.map_eq_some_iff.1 h
    obtain ⟨-, rfl⟩ := Prod.mk.inj heq
    exact .head (commentStep.eq_5 depth c t hclose hopen) (ih hp)

/-- Where it is not closed, counting comes to rest at the end of the text. -/
theorem exists_counts_of_leaveComments? {depth : Nat} {t : Text}
    (h : leaveComments? depth t = none) : ∃ left, Counts (depth, t) (left + 1, []) := by
  fun_induction leaveComments? depth t with
  | case1 t => cases h
  | case2 depth => exact ⟨depth, .refl⟩
  | case3 depth t ih =>
    obtain ⟨left, hleft⟩ := ih (Option.map_eq_none_iff.1 h)
    exact ⟨left, .head rfl hleft⟩
  | case4 depth t ih =>
    obtain ⟨left, hleft⟩ := ih (Option.map_eq_none_iff.1 h)
    exact ⟨left, .head rfl hleft⟩
  | case5 depth c t hclose hopen ih =>
    obtain ⟨left, hleft⟩ := ih (Option.map_eq_none_iff.1 h)
    exact ⟨left, .head (commentStep.eq_5 depth c t hclose hopen) hleft⟩

/-- Counting is over where the last comment is closed. -/
theorem counts_zero_iff {depth : Nat} {t rest : Text} :
    Counts (depth, t) (0, rest) ↔ ∃ s, leaveComments? depth t = some (s, rest) := by
  constructor
  · intro h
    cases hleave : leaveComments? depth t with
    | some p =>
      obtain ⟨s, rest'⟩ := p
      have heq := h.unique (counts_of_leaveComments? hleave) rfl rfl
      exact ⟨s, by rw [(Prod.mk.inj heq).2]⟩
    | none =>
      obtain ⟨left, hleft⟩ := exists_counts_of_leaveComments? hleave
      cases h.unique hleft rfl rfl
  · rintro ⟨s, h⟩
    exact counts_of_leaveComments? h

/-- Counting is over at the end of the text where comments are left open. -/
theorem counts_succ_iff {depth : Nat} {t : Text} :
    (∃ left, Counts (depth, t) (left + 1, [])) ↔ leaveComments? depth t = none := by
  refine ⟨?_, exists_counts_of_leaveComments?⟩
  rintro ⟨left, h⟩
  cases hleave : leaveComments? depth t with
  | some p =>
    obtain ⟨s, rest⟩ := p
    cases h.unique (counts_of_leaveComments? hleave) rfl rfl
  | none => rfl

/-- Neither the closing nor the opening of a comment has the character in it. -/
def isPlain (c : Char) : Bool :=
  c ≠ '*' && c ≠ '/'

/-- What stands in front of the next star or slash is passed without effect. -/
theorem counts_dropWhile (depth : Nat) (t : Text) :
    Counts (depth + 1, t) (depth + 1, t.dropWhile isPlain) := by
  induction t with
  | nil => exact .refl
  | cons c t ih =>
    by_cases hc : isPlain c = true
    · rw [List.dropWhile_cons_of_pos hc]
      rw [isPlain, Bool.and_eq_true, decide_eq_true_iff, decide_eq_true_iff] at hc
      exact .head (commentStep.eq_5 depth c t (fun _ h ↦ absurd h hc.1) fun _ h ↦ absurd h hc.2) ih
    · rw [List.dropWhile_cons_of_neg hc]
      exact .refl

end Text

namespace Scan

open Text

variable {t : Text}

/-- To leave some comments is to leave the innermost, and then the others. -/
theorem leaveComments?_succ (depth : Nat) (t : Text) :
    leaveComments? (depth + 1) t = (closeComment t).bind fun p ↦
      (leaveComments? depth p.1.2).map fun q ↦ (p.1.1 ++ q.1, q.2) := by
  fun_induction closeComment t generalizing depth with
  | case1 => rfl
  | case2 t => rfl
  | case3 t hnone ih =>
    rw [leaveComments?, ih, hnone, Option.bind_none, Option.map_none, Option.bind_none]
  | case4 t inside behind hlt hinside _ hnone ihinside ihbehind =>
    rw [leaveComments?, ihinside, hinside, Option.bind_some, ihbehind, hnone]
    rfl
  | case5 t inside behind hlt hinside _ outside rest hlt' houtside ihinside ihbehind =>
    rw [leaveComments?, ihinside, hinside, Option.bind_some, ihbehind, houtside, Option.bind_some,
      Option.bind_some, Option.map_map, Option.map_map]
    congr 1
    funext q
    simp
  | case6 c t hclose hopen hnone ih =>
    rw [leaveComments?.eq_5 depth c t hclose hopen, ih, hnone]
    rfl
  | case7 c t hclose hopen inside behind hlt hinside ih =>
    rw [leaveComments?.eq_5 depth c t hclose hopen, ih, hinside, Option.bind_some, Option.bind_some,
      Option.map_map]
    rfl

/-- To leave one comment is to find the place where it is closed. -/
theorem leaveComments?_one (t : Text) :
    leaveComments? 1 t = (closeComment t).map Subtype.val := by
  rw [leaveComments?_succ 0 t]
  cases closeComment t with
  | none => rfl
  | some p => simp [leaveComments?]

/-- The rule for block comments finds those that are closed. -/
theorem blockComment_eq_matched_iff {s rest : Text} :
    blockComment t = .matched s rest ↔ t = s ++ rest ∧ s.IsBlockComment := by
  constructor
  · intro h
    have hsplit := (splits_blockComment t s rest h).1
    rw [blockComment.eq_def] at h
    split at h
    · rename_i body
      split at h
      · rename_i p hclose
        obtain ⟨rfl, rfl⟩ := Scan.matched.inj h
        refine ⟨hsplit.symm, p.1.1, rfl, ?_⟩
        have hfound : (closeComment body).map Subtype.val = some (p.1.1, p.1.2) := by
          rw [hclose]
          rfl
        have hlocal := closeComment_local hfound []
        rwa [List.append_nil, ← leaveComments?_one] at hlocal
      · cases h
    · cases h
  · rintro ⟨rfl, body, rfl, hbody⟩
    rw [leaveComments?_one] at hbody
    exact blockComment_of_close (closeComment_local hbody rest)

/-- The rule for block comments gives up at those that are not closed. -/
theorem blockComment_eq_broken_iff {notes : List Note} :
    blockComment t = .broken notes ↔ notes = [.invalid .blockComment] ∧ t.OpensComment := by
  constructor
  · intro h
    rw [blockComment.eq_def] at h
    split at h
    · rename_i body
      split at h
      · cases h
      · rename_i hnone
        exact ⟨(Scan.broken.inj h).symm, body, rfl, by rw [leaveComments?_one, hnone]; rfl⟩
    · cases h
  · rintro ⟨rfl, body, rfl, hbody⟩
    rw [leaveComments?_one, Option.map_eq_none_iff] at hbody
    rw [blockComment, hbody]

/-- What is left behind a comment is what counting leaves. -/
theorem blockComment_eq_matched_iff_counts {s rest : Text} :
    blockComment t = .matched s rest ↔
      t = s ++ rest ∧ ∃ body, t = '/' :: '*' :: body ∧ Counts (1, body) (0, rest) := by
  constructor
  · intro h
    obtain ⟨rfl, body, rfl, hbody⟩ := blockComment_eq_matched_iff.1 h
    rw [leaveComments?_one] at hbody
    refine ⟨rfl, body ++ rest, rfl, counts_zero_iff.2 ⟨body, ?_⟩⟩
    rw [leaveComments?_one, closeComment_local hbody rest]
  · rintro ⟨ht, body, rfl, hcounts⟩
    obtain ⟨inside, hleave⟩ := counts_zero_iff.1 hcounts
    rw [leaveComments?_one] at hleave
    have hmatched := blockComment_of_close hleave
    have hsplit := (splits_blockComment _ _ _ hmatched).1
    rw [hmatched, List.append_cancel_right (hsplit.trans ht)]

/-- A block comment ends where counting does: it is found if no comment is left open there, and
broken if some are at the end of the text. Counting ends in every text, and whatever stands between
a character without effect and the next star or slash may be skipped by it. -/
theorem blockComment_counts (t : Text) :
    (∀ s rest, blockComment t = .matched s rest ↔
      t = s ++ rest ∧ ∃ body, t = '/' :: '*' :: body ∧ Counts (1, body) (0, rest)) ∧
    (blockComment t = .missed ↔ ¬['/', '*'] <+: t) ∧
    (∀ notes, blockComment t = .broken notes ↔ notes = [.invalid .blockComment] ∧
      ∃ body left, t = '/' :: '*' :: body ∧ Counts (1, body) (left + 1, [])) ∧
    (∃ s, Counts (1, t) s ∧ commentStep s = none) ∧
    ∀ depth c u, commentStep (depth + 1, c :: u) = some (depth + 1, u) →
      Counts (depth + 1, c :: u) (depth + 1, u.dropWhile isPlain) := by
  refine ⟨fun s rest ↦ blockComment_eq_matched_iff_counts, ?_, fun notes ↦ ?_, ?_,
    fun depth c u hstep ↦ .head hstep (counts_dropWhile depth u)⟩
  · rw [blockComment_eq_missed_iff]
    refine not_congr ⟨?_, ?_⟩
    · rintro ⟨rest, rfl⟩
      exact ⟨rest, rfl⟩
    · rintro ⟨rest, rfl⟩
      exact ⟨rest, rfl⟩
  · rw [blockComment_eq_broken_iff]
    refine and_congr_right fun _ ↦ ?_
    simp only [OpensComment, ← counts_succ_iff, exists_and_left]
  · cases hleave : leaveComments? 1 t with
    | some p => exact ⟨(0, p.2), counts_zero_iff.2 ⟨p.1, hleave⟩, rfl⟩
    | none =>
      obtain ⟨left, hleft⟩ := counts_succ_iff.2 hleave
      exact ⟨_, hleft, rfl⟩

end Scan

end ShaderLink
