import ShaderLink.Proofs.Grammar.Listing

/-!
# Parsers that go by lexemes alone

Two runs of a parser **agree** if they come to the same from any two cursors that leave the same
lexemes, whatever stands between these: both accept and again leave the same lexemes, both refuse,
or both abort with the same notes, and not for want of steps (`Parser.Agree`). What they accept need
not be the same, because values hold spans; how the values are related, and to the lexemes that are
left, is said by a relation.

There is one rule for each way of putting parsers together. In each, the runs may be of different
parsers, since what goes on behind a value depends on the value.
-/

namespace ShaderLink

open Lexeme

/-- The lexeme is none of those that start a directive or an import, the line of which is read in
its own way. -/
def Lexeme.IsCode (x : Lexeme) : Prop :=
  x.kind ≠ .directive ∧ String.ofList x.text ∉ ["module", "import"]

/-- The lexemes are what is left at the cursor, and there are rounds enough to read them. -/
structure Cursor.Leaves (c : Cursor) (n : Nat) (xs : List Lexeme) : Prop where
  spells : c.SpellsAll xs
  room : c.rest.length < n
  code : ∀ x ∈ xs, x.IsCode

namespace Cursor.Leaves

variable {c c' : Cursor} {n : Nat} {x : Lexeme} {xs : List Lexeme}

theorem ends (h : c.Leaves n []) : c.Ends := by
  obtain ⟨c', hspells, hends⟩ := h.spells
  cases hspells
  exact hends

/-- The first of the lexemes that are left is the next to be read. -/
theorem uncons (h : c.Leaves n (x :: xs)) : ∃ c', c.Next x c' ∧ c'.Leaves n xs := by
  obtain ⟨c', hspells, hends⟩ := h.spells
  obtain ⟨c₁, hnext, hspells⟩ := hspells.uncons
  exact ⟨c₁, hnext, ⟨c', hspells, hends⟩, hnext.length_le.trans_lt h.room,
    (List.forall_mem_cons.1 h.code).2⟩

/-- There are no more lexemes left than rounds. -/
theorem length_lt (h : c.Leaves n xs) : xs.length < n := by
  obtain ⟨c', hspells, -⟩ := h.spells
  have hlength := hspells.length_le
  have hroom := h.room
  omega

/-- Skipping what is ignored leaves the lexemes as they are. -/
theorem exists_skips (h : c.Leaves n xs) : ∃ c₁, c.Skips c₁ ∧ c₁.Leaves n xs := by
  obtain ⟨c₁, hskips, hspells⟩ := h.spells.exists_skips
  exact ⟨c₁, hskips, hspells, hskips.length_rest_le.trans_lt h.room, h.code⟩

end Cursor.Leaves

namespace Parser

variable {α β γ δ : Type}

/-- The outcomes are of the same kind. Where both accept, the same lexemes are left, and the values
are so related. -/
inductive SameOutcome (n m : Nat) (R : α → β → List Lexeme → Prop) : Outcome α → Outcome β → Prop
  | accepted {a : α} {b : β} {c c' : Cursor} {xs : List Lexeme} (hc : c.Leaves n xs)
    (hc' : c'.Leaves m xs) (h : R a b xs) : SameOutcome n m R (.accepted a c) (.accepted b c')
  | refused : SameOutcome n m R .refused .refused
  | aborted {notes : List Note} (h : .invalid .stepLimit ∉ notes) :
    SameOutcome n m R (.aborted notes) (.aborted notes)

/-- Wherever these lexemes are left, the parsers come to the same, up to values that are so
related. -/
def Agree (n m : Nat) (xs : List Lexeme) (p : Parser α) (q : Parser β)
    (R : α → β → List Lexeme → Prop) : Prop :=
  ∀ c c' : Cursor, c.Leaves n xs → c'.Leaves m xs →
    ∃ o o', p.Meets n c o ∧ q.Meets m c' o' ∧ SameOutcome n m R o o'

/-- No more lexemes are left than there were, and the values are so related. -/
def After (xs : List Lexeme) (P : α → β → Prop) (a : α) (b : β) (ys : List Lexeme) : Prop :=
  ys.length ≤ xs.length ∧ P a b

/-- Fewer lexemes are left than there were, and the values are so related. -/
def Behind (xs : List Lexeme) (P : α → β → Prop) (a : α) (b : β) (ys : List Lexeme) : Prop :=
  ys.length < xs.length ∧ P a b

namespace Agree

variable {n m : Nat} {xs : List Lexeme} {p p' : Parser α} {q q' : Parser β}
  {R S : α → β → List Lexeme → Prop} {T : γ → δ → List Lexeme → Prop}

/-! ### Sequencing -/

/-- What the results share may be weakened. -/
theorem mono (h : Agree n m xs p q R) (hRS : ∀ {a b ys}, R a b ys → S a b ys) :
    Agree n m xs p q S := by
  intro c c' hc hc'
  obtain ⟨o, o', hp, hq, ho⟩ := h c c' hc hc'
  refine ⟨o, o', hp, hq, ?_⟩
  cases ho with
  | accepted hc hc' h => exact .accepted hc hc' (hRS h)
  | refused => exact .refused
  | aborted hnotes => exact .aborted hnotes

/-- What leaves no more lexemes than there were leaves no more than there were before. -/
theorem widen {P : α → β → Prop} {ys zs : List Lexeme} (h : Agree n m zs p q (After ys P))
    (hle : ys.length ≤ xs.length) : Agree n m zs p q (After xs P) :=
  h.mono fun ⟨hle', hab⟩ ↦ ⟨hle'.trans hle, hab⟩

theorem pure {a : α} {b : β} (h : R a b xs) : Agree n m xs (Pure.pure a) (Pure.pure b) R :=
  fun _ _ hc hc' ↦ ⟨_, _, .pure a n _, .pure b m _, .accepted hc hc' h⟩

theorem refuse : Agree n m xs (Parser.refuse : Parser α) (Parser.refuse : Parser β) R :=
  fun _ _ _ _ ↦ ⟨_, _, .refuse n _, .refuse m _, .refused⟩

/-- Two readers that give up with the same message agree, as long as it is not for want of steps. -/
theorem abort {label : Label} (h : label ≠ .stepLimit) :
    Agree n m xs (Parser.abort label : Parser α) (Parser.abort label : Parser β) R :=
  fun _ _ _ _ ↦ ⟨_, _, .abort label n _, .abort label m _, .aborted (by simpa using h.symm)⟩

/-- Two readers in turn agree if the second ones agree behind every two results of the first. -/
theorem bind {f : α → Parser γ} {g : β → Parser δ} (h : Agree n m xs p q R)
    (hf : ∀ a b ys, R a b ys → Agree n m ys (f a) (g b) T) :
    Agree n m xs (p >>= f) (q >>= g) T := by
  intro c c' hc hc'
  obtain ⟨o, o', hp, hq, ho⟩ := h c c' hc hc'
  cases ho with
  | refused => exact ⟨_, _, hp.bind_refused, hq.bind_refused, .refused⟩
  | aborted hnotes => exact ⟨_, _, hp.bind_aborted, hq.bind_aborted, .aborted hnotes⟩
  | accepted hc hc' h =>
    obtain ⟨o, o', hfa, hgb, ho⟩ := hf _ _ _ h _ _ hc hc'
    exact ⟨o, o', hp.bind hfa, hq.bind hgb, ho⟩

theorem map {f : α → γ} {g : β → δ} (h : Agree n m xs p q R)
    (hf : ∀ {a b ys}, R a b ys → T (f a) (g b) ys) : Agree n m xs (f <$> p) (g <$> q) T :=
  h.bind fun _ _ _ hR ↦ .pure (hf hR)

theorem seqRight {p' : Parser γ} {q' : Parser δ} (h : Agree n m xs p q R)
    (h' : ∀ a b ys, R a b ys → Agree n m ys p' q' T) : Agree n m xs (p *> p') (q *> q') T :=
  h.bind h'

/-- There are more rounds than lexemes left. -/
theorem rounds :
    Agree n m xs Parser.rounds Parser.rounds fun a b ys ↦
      xs = ys ∧ xs.length < a ∧ xs.length < b :=
  fun _ _ hc hc' ↦ ⟨_, _, .rounds, .rounds, .accepted hc hc' ⟨rfl, hc.length_lt, hc'.length_lt⟩⟩

/-- Offsets differ, but asking for one reads nothing. -/
theorem offset : Agree n m xs Parser.offset Parser.offset fun _ _ ys ↦ xs = ys :=
  fun _ _ hc hc' ↦ ⟨_, _, .offset, .offset, .accepted hc hc' rfl⟩

/-- Where a cursor is kept, the lexemes are left that are left now. -/
theorem here : Agree n m xs Parser.here Parser.here fun c c' ys ↦
    xs = ys ∧ c.Leaves n xs ∧ c'.Leaves m xs :=
  fun _ _ hc hc' ↦ ⟨_, _, .here, .here, .accepted hc hc' ⟨rfl, hc, hc'⟩⟩

/-- Behind what is gone back to, the lexemes are left that were left there. -/
theorem goBack {c c' : Cursor} {ys : List Lexeme} (hc : c.Leaves n ys) (hc' : c'.Leaves m ys) :
    Agree n m xs (Parser.goBack c) (Parser.goBack c') fun _ _ zs ↦ ys = zs :=
  fun _ _ _ _ ↦ ⟨_, _, .goBack c, .goBack c', .accepted hc hc' rfl⟩

/-! ### Choice -/

theorem ite {cond : Prop} [Decidable cond] (ht : cond → Agree n m xs p q R)
    (hf : ¬cond → Agree n m xs p' q' R) :
    Agree n m xs (if cond then p else p') (if cond then q else q') R := by
  split
  · exact ht ‹_›
  · exact hf ‹_›

/-- A second choice is tried by both or by neither. -/
theorem orElse (h : Agree n m xs p q R) (h' : Agree n m xs p' q' R) :
    Agree n m xs (p.orElse p') (q.orElse q') R := by
  intro c c' hc hc'
  obtain ⟨o, o', hp, hq, ho⟩ := h c c' hc hc'
  cases ho with
  | accepted hd hd' hR => exact ⟨_, _, hp.orElse_left, hq.orElse_left, .accepted hd hd' hR⟩
  | aborted hnotes => exact ⟨_, _, hp.orElse_aborted, hq.orElse_aborted, .aborted hnotes⟩
  | refused =>
    obtain ⟨o, o', hp', hq', ho⟩ := h' c c' hc hc'
    exact ⟨o, o', hp.orElse_right hp', hq.orElse_right hq', ho⟩

/-- Choices agree if they do one by one. -/
theorem firstOf {ps : List (Parser α)} {qs : List (Parser β)}
    (h : List.Forall₂ (fun p q ↦ Agree n m xs p q R) ps qs) :
    Agree n m xs (Parser.firstOf ps) (Parser.firstOf qs) R := by
  induction h with
  | nil => exact refuse
  | cons hp _ ih => exact hp.orElse ih

/-- Both have read something, or both nothing. -/
theorem optional (h : Agree n m xs p q R) :
    Agree n m xs (Parser.optional p) (Parser.optional q) fun o o' ys ↦
      (∃ a b, some a = o ∧ some b = o' ∧ R a b ys) ∨ (none = o ∧ none = o' ∧ xs = ys) :=
  orElse (h.map fun hR ↦ .inl ⟨_, _, rfl, rfl, hR⟩) (.pure (.inr ⟨rfl, rfl, rfl⟩))

/-- Looking ahead reads nothing. -/
theorem peek (h : Agree n m xs p q R) :
    Agree n m xs (Parser.peek p) (Parser.peek q) fun a b ys ↦ xs = ys ∧ ∃ zs, R a b zs := by
  intro c c' hc hc'
  obtain ⟨o, o', hp, hq, ho⟩ := h c c' hc hc'
  cases ho with
  | accepted hd hd' hR => exact ⟨_, _, hp.peek, hq.peek, .accepted hc hc' ⟨rfl, _, hR⟩⟩
  | refused => exact ⟨_, _, hp.peek_refused, hq.peek_refused, .refused⟩
  | aborted hnotes => exact ⟨_, _, hp.peek_aborted, hq.peek_aborted, .aborted hnotes⟩

/-- Nor does looking for what must not follow. -/
theorem absent (h : Agree n m xs p q R) :
    Agree n m xs (Parser.absent p) (Parser.absent q) fun _ _ ys ↦ xs = ys := by
  intro c c' hc hc'
  obtain ⟨o, o', hp, hq, ho⟩ := h c c' hc hc'
  cases ho with
  | accepted hd hd' hR => exact ⟨_, _, hp.absent_refused, hq.absent_refused, .refused⟩
  | refused => exact ⟨_, _, hp.absent, hq.absent, .accepted hc hc' rfl⟩
  | aborted hnotes => exact ⟨_, _, hp.absent_aborted, hq.absent_aborted, .aborted hnotes⟩

theorem commit (h : Agree n m xs p q R) (what : String) :
    Agree n m xs (Parser.commit p what) (Parser.commit q what) R := by
  intro c c' hc hc'
  obtain ⟨o, o', hp, hq, ho⟩ := h c c' hc hc'
  cases ho with
  | accepted hd hd' hR => exact ⟨_, _, hp.commit what, hq.commit what, .accepted hd hd' hR⟩
  | refused => exact ⟨_, _, hp.commit_refused what, hq.commit_refused what, .aborted (by simp)⟩
  | aborted hnotes =>
    exact ⟨_, _, hp.commit_aborted what, hq.commit_aborted what, .aborted (by simpa using hnotes)⟩

theorem insist (h : Agree n m xs p q R) :
    Agree n m xs (Parser.insist p) (Parser.insist q) R := by
  intro c c' hc hc'
  obtain ⟨o, o', hp, hq, ho⟩ := h c c' hc hc'
  cases ho with
  | accepted hd hd' hR => exact ⟨_, _, hp.insist, hq.insist, .accepted hd hd' hR⟩
  | refused => exact ⟨_, _, hp.insist_refused, hq.insist_refused, .aborted List.not_mem_nil⟩
  | aborted hnotes => exact ⟨_, _, hp.insist_aborted, hq.insist_aborted, .aborted hnotes⟩

/-- What is refused everywhere is refused in both runs. -/
theorem of_refused (hp : ∀ {c}, c.Leaves n xs → p.Meets n c .refused)
    (hq : ∀ {c}, c.Leaves m xs → q.Meets m c .refused) : Agree n m xs p q R :=
  fun _ _ hc hc' ↦ ⟨_, _, hp hc, hq hc', .refused⟩

/-! ### Repetition -/

/-- What holds of lexemes if it holds of fewer of them with one round less, holds where there are
more rounds than lexemes. -/
theorem of_rounds {motive : List Lexeme → Nat → Nat → Prop}
    (hstep : ∀ {xs i j}, (∀ {ys}, ys.length < xs.length → motive ys i j) →
      motive xs (i + 1) (j + 1)) {i j : Nat} (hi : xs.length < i) (hj : xs.length < j) :
    motive xs i j := by
  induction i generalizing j xs with
  | zero => exact absurd hi (Nat.not_lt_zero _)
  | succ i ih =>
    obtain ⟨j, rfl⟩ := Nat.exists_eq_add_one_of_ne_zero (Nat.ne_zero_of_lt hj)
    exact hstep fun hless ↦ ih (hless.trans_le (Nat.le_of_lt_succ hi))
      (hless.trans_le (Nat.le_of_lt_succ hj))

/-- Loops agree if each round does, and reads something. -/
theorem manyWithin {P : α → β → Prop}
    (h : ∀ {ys}, ys.length ≤ xs.length → Agree n m ys p q (Behind ys P)) {j k : Nat}
    (hj : xs.length < j) (hk : xs.length < k) :
    Agree n m xs (Parser.manyWithin p j) (Parser.manyWithin q k)
      (After xs (List.Forall₂ P)) := by
  refine of_rounds (motive := fun xs j k ↦
    (∀ {ys}, ys.length ≤ xs.length → Agree n m ys p q (Behind ys P)) →
      Agree n m xs (Parser.manyWithin p j) (Parser.manyWithin q k)
        (After xs (List.Forall₂ P))) ?_ hj hk h
  intro xs j k hrest h
  refine (h (Nat.le_refl _)).optional.bind fun o o' ys ho ↦ ?_
  rcases ho with ⟨a, b, rfl, rfl, hless, hab⟩ | ⟨rfl, rfl, rfl⟩
  · refine (hrest hless fun hle ↦ h (hle.trans hless.le)).bind fun as bs zs ⟨hle, hall⟩ ↦ ?_
    exact .pure ⟨hle.trans hless.le, .cons hab hall⟩
  · exact .pure ⟨Nat.le_refl _, .nil⟩

/-- Loops agree if each round does. A round that succeeds leaves fewer lexemes, so both loops have
rounds enough. -/
theorem many {P : α → β → Prop}
    (h : ∀ {ys}, ys.length ≤ xs.length → Agree n m ys p q (Behind ys P)) :
    Agree n m xs (Parser.many p) (Parser.many q) (After xs (List.Forall₂ P)) := by
  refine rounds.bind fun j k ys ⟨hys, hj, hk⟩ ↦ ?_
  subst hys
  exact manyWithin h hj hk

/-! ### Tokens -/

/-- The same lexeme is next. -/
theorem token {R : Token → Token → List Lexeme → Prop}
    (h : ∀ x ys i j, xs = x :: ys → R (x.token i) (x.token j) ys) :
    Agree n m xs (Parser.token .shader) (Parser.token .shader) R := by
  intro c c' hc hc'
  cases xs with
  | nil =>
    exact ⟨_, _, .token_refused hc.ends hc.room, .token_refused hc'.ends hc'.room, .refused⟩
  | cons x xs =>
    obtain ⟨d, hnext, hd⟩ := hc.uncons
    obtain ⟨d', hnext', hd'⟩ := hc'.uncons
    obtain ⟨i, htoken⟩ := Meets.token hnext hc.room
    obtain ⟨j, htoken'⟩ := Meets.token hnext' hc'.room
    exact ⟨_, _, htoken, htoken', .accepted hd hd' (h x xs i j rfl)⟩

/-- A condition on tokens that does not look at their spans is met in both runs or in none. -/
theorem tokenIf {accepts : Token → Bool} {R : Token → Token → List Lexeme → Prop}
    (haccepts : ∀ (x : Lexeme) i j, accepts (x.token i) = accepts (x.token j))
    (h : ∀ x ys i j, xs = x :: ys → accepts (x.token i) = true → R (x.token i) (x.token j) ys) :
    Agree n m xs (Parser.tokenIf .shader accepts) (Parser.tokenIf .shader accepts) R := by
  refine (token (R := fun a b ys ↦ ∃ x i j, xs = x :: ys ∧ a = x.token i ∧ b = x.token j)
    fun x ys i j hxs ↦ ⟨x, i, j, hxs, rfl, rfl⟩).bind ?_
  rintro _ _ ys ⟨x, i, j, hxs, rfl, rfl⟩
  rw [haccepts x j i]
  exact .ite (fun hacc ↦ .pure (h x ys i j hxs hacc)) fun _ ↦ .refuse

/-! ### Spans -/

/-- What is ignored between lexemes need not be the same. -/
theorem skipIgnored : Agree n m xs (Parser.skipIgnored .shader) (Parser.skipIgnored .shader)
    fun _ _ ys ↦ xs = ys := by
  intro c c' hc hc'
  obtain ⟨d, hskips, hd⟩ := hc.exists_skips
  obtain ⟨d', hskips', hd'⟩ := hc'.exists_skips
  exact ⟨_, _, .skipIgnored hskips hc.room, .skipIgnored hskips' hc'.room, .accepted hd hd' rfl⟩

/-- The spans that are noted need not be the same either. -/
theorem spanned (h : Agree n m xs p q R) :
    Agree n m xs (Parser.spanned .shader p) (Parser.spanned .shader q)
      fun a b ys ↦ R a.1 b.1 ys := by
  refine skipIgnored.bind fun _ _ ys hys ↦ ?_
  subst hys
  refine offset.bind fun _ _ ys hys ↦ ?_
  subst hys
  refine h.bind fun a b ys hab ↦ ?_
  refine offset.bind fun _ _ zs hzs ↦ ?_
  subst hzs
  exact .pure hab

end Agree

end Parser

end ShaderLink
