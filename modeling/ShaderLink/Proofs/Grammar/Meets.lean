import ShaderLink.Proofs.Grammar.Yields

/-!
# What a parser comes to

`p.Meets rounds c o` says that from the cursor `c` on the parser comes to the outcome `o` whenever
it may take enough steps and its loops may take `rounds` rounds. There is one lemma for each
combinator and each way in which it can come out, so that an outcome is put together from the inside
out.

The other way round, an outcome is taken apart. `p.Comes rounds c o` says that the parser can come
to `o` with some number of steps. In contrast to `Parser.Yields` it also knows what has been
refused. Steps alone decide nothing: a parser that does not abort comes to the same when it may take
more of them (`Parser.Steady`), and so what it can come to is what it meets
(`Parser.Meets.eq_of_comes`).
-/

namespace ShaderLink

namespace Parser

variable {α β : Type}

/-- With enough steps the parser comes to the outcome. -/
def Meets (p : Parser α) (rounds : Nat) (c : Cursor) (o : Outcome α) : Prop :=
  ∃ k, ∀ steps e, e.steps + k ≤ steps →
    ∃ e', e'.steps ≤ e.steps + k ∧ p ⟨steps, rounds⟩ c e = (o, e')

/-- With some number of steps the parser comes to the outcome. -/
def Comes (p : Parser α) (rounds : Nat) (c : Cursor) (o : Outcome α) : Prop :=
  ∃ steps e e', p ⟨steps, rounds⟩ c e = (o, e')

/-- With enough steps the parser reads something up to the cursor. -/
def Accepts (p : Parser α) (rounds : Nat) (c c' : Cursor) : Prop :=
  ∃ a, p.Meets rounds c (.accepted a c')

/-- The parser with another number of rounds. -/
def withRounds (p : Parser α) (rounds : Nat) : Parser α :=
  fun limits ↦ p { limits with rounds }

/-- What can be accepted with the given rounds is what the parser can come to, once steps are the
only limit left. -/
theorem Yields.comes {p : Parser α} {n : Nat} {c c' : Cursor} {a : α}
    (h : (p.withRounds n).Yields c a c') : p.Comes n c (.accepted a c') := by
  obtain ⟨limits, e, e', h⟩ := h
  exact ⟨limits.steps, e, e', h⟩

/-! ### Putting outcomes together -/

namespace Meets

variable {p q : Parser α} {n : Nat} {c c₁ c' : Cursor} {a : α} {o : Outcome α} {notes : List Note}

/-- A value that is there already costs nothing. -/
theorem pure (a : α) (n : Nat) (c : Cursor) :
    (Pure.pure a : Parser α).Meets n c (.accepted a c) :=
  ⟨0, fun _ e _ ↦ ⟨e, Nat.le_refl _, rfl⟩⟩

theorem refuse (n : Nat) (c : Cursor) : (Parser.refuse : Parser α).Meets n c .refused :=
  ⟨0, fun _ e _ ↦ ⟨e, Nat.le_refl _, rfl⟩⟩

/-- A sequence comes to what its second part comes to, and needs the steps of both. -/
theorem bind {f : α → Parser β} {o : Outcome β} (hp : p.Meets n c (.accepted a c₁))
    (hf : (f a).Meets n c₁ o) : (p >>= f).Meets n c o := by
  obtain ⟨k, hp⟩ := hp
  obtain ⟨j, hf⟩ := hf
  refine ⟨k + j, fun steps e hsteps ↦ ?_⟩
  obtain ⟨e₁, he₁, hp⟩ := hp steps e (by omega)
  obtain ⟨e', he', hf⟩ := hf steps e₁ (by omega)
  refine ⟨e', by omega, ?_⟩
  simp only [Bind.bind, hp, hf]

/-- What a parser comes to decides what another comes to with the same effort. -/
theorem through {q : Parser β} {o' : Outcome β} (h : p.Meets n c o)
    (hq : ∀ {limits e e'}, p limits c e = (o, e') → q limits c e = (o', e')) : q.Meets n c o' := by
  obtain ⟨k, h⟩ := h
  refine ⟨k, fun steps e hsteps ↦ ?_⟩
  obtain ⟨e', he', hp⟩ := h steps e hsteps
  exact ⟨e', he', hq hp⟩

/-- A sequence is refused where its first part is. The second is never asked. -/
theorem bind_refused {f : α → Parser β} (hp : p.Meets n c .refused) :
    (p >>= f).Meets n c .refused :=
  hp.through fun h ↦ by simp only [Bind.bind, h]

/-- A sequence is given up with its first part. -/
theorem bind_aborted {f : α → Parser β} (hp : p.Meets n c (.aborted notes)) :
    (p >>= f).Meets n c (.aborted notes) :=
  hp.through fun h ↦ by simp only [Bind.bind, h]

theorem map (f : α → β) (h : p.Meets n c (.accepted a c₁)) :
    (f <$> p).Meets n c (.accepted (f a) c₁) :=
  bind h (.pure (f a) n c₁)

theorem map_refused (f : α → β) (h : p.Meets n c .refused) : (f <$> p).Meets n c .refused :=
  bind_refused h

/-- The number of rounds is the one that loops have. -/
theorem rounds : Parser.rounds.Meets n c (.accepted n c) :=
  ⟨0, fun _ e _ ↦ ⟨e, Nat.le_refl _, rfl⟩⟩

theorem here : Parser.here.Meets n c (.accepted c c) :=
  ⟨0, fun _ e _ ↦ ⟨e, Nat.le_refl _, rfl⟩⟩

theorem goBack (c' : Cursor) : (Parser.goBack c').Meets n c (.accepted () c') :=
  ⟨0, fun _ e _ ↦ ⟨e, Nat.le_refl _, rfl⟩⟩

theorem offset : Parser.offset.Meets n c (.accepted c.offset c) :=
  ⟨0, fun _ e _ ↦ ⟨e, Nat.le_refl _, rfl⟩⟩

/-- Giving up by itself leaves its label as the only note. -/
theorem abort (label : Label) (n : Nat) (c : Cursor) :
    (Parser.abort label : Parser α).Meets n c (.aborted [.invalid label]) :=
  ⟨0, fun _ e _ ↦ ⟨e, Nat.le_refl _, rfl⟩⟩

/-- What the first alternative accepts is accepted. -/
theorem orElse_left (h : p.Meets n c (.accepted a c₁)) :
    (p.orElse q).Meets n c (.accepted a c₁) :=
  h.through fun h ↦ by simp only [Parser.orElse, h]

/-- There is no second chance once the first alternative gave up. -/
theorem orElse_aborted (h : p.Meets n c (.aborted notes)) :
    (p.orElse q).Meets n c (.aborted notes) :=
  h.through fun h ↦ by simp only [Parser.orElse, h]

/-- Where the first alternative refuses, the second decides, from the same cursor on. -/
theorem orElse_right (hp : p.Meets n c .refused) (hq : q.Meets n c o) :
    (p.orElse q).Meets n c o := by
  obtain ⟨k, hp⟩ := hp
  obtain ⟨j, hq⟩ := hq
  refine ⟨k + j, fun steps e hsteps ↦ ?_⟩
  obtain ⟨e₁, he₁, hp⟩ := hp steps e (by omega)
  obtain ⟨e', he', hq⟩ := hq steps e₁ (by omega)
  refine ⟨e', by omega, ?_⟩
  simp only [Parser.orElse, hp, hq]

/-- What is optional is read where it can be. -/
theorem optional_some (h : p.Meets n c (.accepted a c₁)) :
    (Parser.optional p).Meets n c (.accepted (some a) c₁) :=
  orElse_left (h.map some)

/-- Where it is refused, nothing is read, and that is no failure. -/
theorem optional_none (h : p.Meets n c .refused) :
    (Parser.optional p).Meets n c (.accepted none c) :=
  orElse_right (h.map_refused some) (.pure none n c)

theorem seqRight {q : Parser β} {o : Outcome β} (hp : p.Meets n c (.accepted a c₁))
    (hq : q.Meets n c₁ o) : (p *> q).Meets n c o :=
  bind hp hq

theorem seqRight_refused {q : Parser β} (hp : p.Meets n c .refused) :
    (p *> q).Meets n c .refused :=
  bind_refused hp

/-- Looking ahead finds the value and stays where it was. -/
theorem peek (h : p.Meets n c (.accepted a c₁)) : (Parser.peek p).Meets n c (.accepted a c) :=
  h.through fun h ↦ by simp only [Parser.peek, h]

/-- Looking ahead refuses what the parser refuses. -/
theorem peek_refused (h : p.Meets n c .refused) : (Parser.peek p).Meets n c .refused :=
  h.through fun h ↦ by simp only [Parser.peek, h]

theorem peek_aborted (h : p.Meets n c (.aborted notes)) :
    (Parser.peek p).Meets n c (.aborted notes) :=
  h.through fun h ↦ by simp only [Parser.peek, h]

/-- Only a refusal shows that something is absent. -/
theorem absent (h : p.Meets n c .refused) : (Parser.absent p).Meets n c (.accepted () c) :=
  h.through fun h ↦ by simp only [Parser.absent, h]

/-- What is there is not absent. -/
theorem absent_refused (h : p.Meets n c (.accepted a c₁)) :
    (Parser.absent p).Meets n c .refused :=
  h.through fun h ↦ by simp only [Parser.absent, h]

/-- A parser that gives up says nothing about what is there. -/
theorem absent_aborted (h : p.Meets n c (.aborted notes)) :
    (Parser.absent p).Meets n c (.aborted notes) :=
  h.through fun h ↦ by simp only [Parser.absent, h]

theorem commit (h : p.Meets n c (.accepted a c₁)) (what : String) :
    (Parser.commit p what).Meets n c (.accepted a c₁) :=
  h.through fun h ↦ by simp only [Parser.commit, h]

/-- Behind a commitment a refusal is final. The note says what was expected. -/
theorem commit_refused (h : p.Meets n c .refused) (what : String) :
    (Parser.commit p what).Meets n c (.aborted [.expected what]) :=
  h.through fun h ↦ by simp only [Parser.commit, h]

/-- The commitment adds its own note to those from inside. -/
theorem commit_aborted (h : p.Meets n c (.aborted notes)) (what : String) :
    (Parser.commit p what).Meets n c (.aborted (notes ++ [.expected what])) :=
  h.through fun h ↦ by simp only [Parser.commit, h]

theorem insist (h : p.Meets n c (.accepted a c₁)) :
    (Parser.insist p).Meets n c (.accepted a c₁) :=
  h.through fun h ↦ by simp only [Parser.insist, h]

/-- Insisting makes a refusal final as well, without a note. -/
theorem insist_refused (h : p.Meets n c .refused) : (Parser.insist p).Meets n c (.aborted []) :=
  h.through fun h ↦ by simp only [Parser.insist, h]

theorem insist_aborted (h : p.Meets n c (.aborted notes)) :
    (Parser.insist p).Meets n c (.aborted notes) :=
  h.through fun h ↦ by simp only [Parser.insist, h]

/-- The first parser that does not refuse decides. -/
theorem firstOf (ps qs : List (Parser α)) (hps : ∀ p ∈ ps, p.Meets n c .refused)
    (h : p.Meets n c (.accepted a c₁)) :
    (Parser.firstOf (ps ++ p :: qs)).Meets n c (.accepted a c₁) := by
  induction ps with
  | nil => exact orElse_left h
  | cons p ps ih =>
    obtain ⟨hp, hps⟩ := List.forall_mem_cons.1 hps
    exact orElse_right hp (ih hps)

/-- All parsers have to refuse. -/
theorem firstOf_refused {ps : List (Parser α)} (hps : ∀ p ∈ ps, p.Meets n c .refused) :
    (Parser.firstOf ps).Meets n c .refused := by
  induction ps with
  | nil => exact refuse n c
  | cons p ps ih =>
    obtain ⟨hp, hps⟩ := List.forall_mem_cons.1 hps
    exact orElse_right hp (ih hps)

/-- A loop ends where the parser refuses, if there is a round left to find out. -/
theorem manyWithin_nil (h : p.Meets n c .refused) (m : Nat) :
    (manyWithin p (m + 1)).Meets n c (.accepted [] c) := by
  rw [manyWithin]
  exact h.optional_none.bind (.pure [] n c)

/-- Each value takes one round. -/
theorem manyWithin_cons {as : List α} {m : Nat} (h : p.Meets n c (.accepted a c₁))
    (hrest : (manyWithin p m).Meets n c₁ (.accepted as c')) :
    (manyWithin p (m + 1)).Meets n c (.accepted (a :: as) c') := by
  rw [manyWithin]
  exact h.optional_some.bind (hrest.bind (.pure (a :: as) n c'))

end Meets

/-- What a parser comes to, it reads. -/
theorem Meets.yields {p : Parser α} {n : Nat} {c c' : Cursor} {a : α}
    (h : p.Meets n c (.accepted a c')) : p.Yields c a c' := by
  obtain ⟨k, h⟩ := h
  obtain ⟨e', -, h⟩ := h (Effort.none.steps + k) .none (Nat.le_refl _)
  exact ⟨_, _, e', h⟩

/-! ### Putting together what is read -/

namespace Accepts

variable {α β : Type} {p q : Parser α} {n : Nat} {c c₁ c' : Cursor} {a : α}

theorem pure (a : α) (n : Nat) (c : Cursor) : (Pure.pure a : Parser α).Accepts n c c :=
  ⟨a, .pure a n c⟩

/-- Behind a part of which the value is known, only what follows this value matters. -/
theorem after {f : α → Parser β} (hp : p.Meets n c (.accepted a c₁))
    (hf : (f a).Accepts n c₁ c') : (p >>= f).Accepts n c c' := by
  obtain ⟨b, hf⟩ := hf
  exact ⟨b, hp.bind hf⟩

/-- Behind a part of which no value is known, what follows has to read as far for each. -/
theorem bind {f : α → Parser β} (hp : p.Accepts n c c₁) (hf : ∀ a, (f a).Accepts n c₁ c') :
    (p >>= f).Accepts n c c' := by
  obtain ⟨a, hp⟩ := hp
  exact after hp (hf a)

theorem map (f : α → β) (h : p.Accepts n c c') : (f <$> p).Accepts n c c' := by
  obtain ⟨a, h⟩ := h
  exact ⟨f a, h.map f⟩

theorem optional (h : p.Accepts n c c') : (Parser.optional p).Accepts n c c' := by
  obtain ⟨a, h⟩ := h
  exact ⟨some a, h.optional_some⟩

theorem commit (h : p.Accepts n c c') (what : String) : (Parser.commit p what).Accepts n c c' := by
  obtain ⟨a, h⟩ := h
  exact ⟨a, h.commit what⟩

theorem seqRight {q : Parser β} (hp : p.Accepts n c c₁) (hq : q.Accepts n c₁ c') :
    (p *> q).Accepts n c c' :=
  hp.bind fun _ ↦ hq

theorem manyWithin_cons {m : Nat} (h : p.Accepts n c c₁)
    (hrest : (Parser.manyWithin p m).Accepts n c₁ c') :
    (Parser.manyWithin p (m + 1)).Accepts n c c' := by
  obtain ⟨a, h⟩ := h
  obtain ⟨as, hrest⟩ := hrest
  exact ⟨a :: as, h.manyWithin_cons hrest⟩

/-- The first parser that does not refuse decides. -/
theorem firstOf (ps qs : List (Parser α)) (hps : ∀ p ∈ ps, p.Meets n c .refused)
    (h : p.Accepts n c c') : (Parser.firstOf (ps ++ p :: qs)).Accepts n c c' := by
  obtain ⟨a, h⟩ := h
  exact ⟨a, h.firstOf ps qs hps⟩

end Accepts

/-! ### Taking outcomes apart -/

namespace Comes

variable {p q : Parser α} {n : Nat} {c c' : Cursor} {a : α} {b : β}

/-- What is come to can be accepted. -/
theorem yields (h : p.Comes n c (.accepted a c')) : p.Yields c a c' := by
  obtain ⟨steps, e, e', h⟩ := h
  exact ⟨_, e, e', h⟩

/-- A value of a sequence was accepted by both of its parts. -/
theorem bind {f : α → Parser β} (h : (p >>= f).Comes n c (.accepted b c')) :
    ∃ a c₁, p.Comes n c (.accepted a c₁) ∧ (f a).Comes n c₁ (.accepted b c') := by
  obtain ⟨steps, e, e', h⟩ := h
  simp only [Bind.bind] at h
  split at h
  · rename_i a c₁ e₁ hp
    exact ⟨a, c₁, ⟨steps, e, e₁, hp⟩, ⟨steps, e₁, e', h⟩⟩
  · cases h
  · cases h

/-- A sequence was refused by its first part, or by the second behind it. -/
theorem bind_refused {f : α → Parser β} (h : (p >>= f).Comes n c .refused) :
    p.Comes n c .refused ∨
      ∃ a c₁, p.Comes n c (.accepted a c₁) ∧ (f a).Comes n c₁ .refused := by
  obtain ⟨steps, e, e', h⟩ := h
  simp only [Bind.bind] at h
  split at h
  · rename_i a c₁ e₁ hp
    exact .inr ⟨a, c₁, ⟨steps, e, e₁, hp⟩, steps, e₁, e', h⟩
  · rename_i e₁ hp
    exact .inl ⟨steps, e, e₁, hp⟩
  · cases h

theorem pure {a' : α} (h : (Pure.pure a' : Parser α).Comes n c (.accepted a c')) :
    a' = a ∧ c = c' :=
  h.yields.pure

/-- A value that is there is not refused. -/
theorem not_pure_refused (h : (Pure.pure a : Parser α).Comes n c .refused) : False := by
  obtain ⟨steps, e, e', h⟩ := h
  cases (Prod.mk.inj h).1

/-- What was found to be absent was refused. -/
theorem absent {u : Unit} (h : (Parser.absent p).Comes n c (.accepted u c')) :
    c = c' ∧ p.Comes n c .refused := by
  obtain ⟨steps, e, e', h⟩ := h
  rw [Parser.absent] at h
  split at h
  · cases h
  · rename_i e₁ hp
    obtain ⟨-, rfl⟩ := Outcome.accepted.inj (Prod.mk.inj h).1
    exact ⟨rfl, steps, e, e₁, hp⟩
  · cases h

theorem rounds {m : Nat} (h : Parser.rounds.Comes n c (.accepted m c')) : n = m ∧ c = c' := by
  obtain ⟨steps, e, e', h⟩ := h
  exact Outcome.accepted.inj (Prod.mk.inj h).1

theorem map {f : α → β} (h : (f <$> p).Comes n c (.accepted b c')) :
    ∃ a, p.Comes n c (.accepted a c') ∧ f a = b := by
  obtain ⟨a, c₁, hp, hpure⟩ := bind (f := fun a ↦ Pure.pure (f a)) h
  obtain ⟨rfl, rfl⟩ := hpure.pure
  exact ⟨a, hp, rfl⟩

/-- In contrast to `Yields.optional`, if nothing was read then the parser has refused. -/
theorem optional {r : Option α} (h : (Parser.optional p).Comes n c (.accepted r c')) :
    (∃ a, p.Comes n c (.accepted a c') ∧ some a = r) ∨
      (none = r ∧ c = c' ∧ p.Comes n c .refused) := by
  obtain ⟨steps, e, e', h⟩ := h
  rw [Parser.optional, Parser.orElse] at h
  split at h
  · rename_i e₁ hp
    obtain ⟨rfl, rfl⟩ := pure ⟨steps, e₁, e', h⟩
    simp only [Functor.map] at hp
    split at hp
    · cases hp
    · rename_i e₂ hrefused
      exact .inr ⟨rfl, rfl, steps, e, e₂, hrefused⟩
    · cases hp
  · exact .inl (map ⟨steps, e, e', h⟩)

/-- What is optional is never refused. -/
theorem not_optional_refused (h : (Parser.optional p).Comes n c .refused) : False := by
  obtain ⟨steps, e, e', h⟩ := h
  rw [Parser.optional, Parser.orElse] at h
  split at h
  · exact not_pure_refused ⟨steps, _, e', h⟩
  · rename_i hnot
    exact hnot _ h

/-- What was seen ahead can be read. -/
theorem peek (h : (Parser.peek p).Comes n c (.accepted a c')) :
    c = c' ∧ ∃ c₁, p.Comes n c (.accepted a c₁) := by
  obtain ⟨steps, e, e', h⟩ := h
  rw [Parser.peek] at h
  split at h
  · rename_i a' c₁ e₁ hp
    obtain ⟨rfl, rfl⟩ := Outcome.accepted.inj (Prod.mk.inj h).1
    exact ⟨rfl, c₁, steps, e, e₁, hp⟩
  · rename_i hother
    exact absurd h (hother a c' e')

/-- Nothing but the parser's own refusal is passed on. -/
theorem peek_refused (h : (Parser.peek p).Comes n c .refused) : p.Comes n c .refused := by
  obtain ⟨steps, e, e', h⟩ := h
  rw [Parser.peek] at h
  split at h
  · cases h
  · exact ⟨steps, e, e', h⟩

theorem commit {what : String} (h : (Parser.commit p what).Comes n c (.accepted a c')) :
    p.Comes n c (.accepted a c') := by
  obtain ⟨steps, e, e', h⟩ := h
  rw [Parser.commit] at h
  split at h
  · cases h
  · cases h
  · exact ⟨steps, e, e', h⟩

theorem insist (h : (Parser.insist p).Comes n c (.accepted a c')) :
    p.Comes n c (.accepted a c') := by
  obtain ⟨steps, e, e', h⟩ := h
  rw [Parser.insist] at h
  split at h
  · cases h
  · exact ⟨steps, e, e', h⟩

theorem firstOf {ps : List (Parser α)} (h : (Parser.firstOf ps).Comes n c (.accepted a c')) :
    ∃ p ∈ ps, p.Comes n c (.accepted a c') := by
  obtain ⟨steps, e, e', h⟩ := h
  induction ps generalizing e with
  | nil => exact (Yields.not_refuse ⟨_, e, e', h⟩).elim
  | cons p ps ih =>
    rw [Parser.firstOf, Parser.orElse] at h
    split at h
    · rename_i e₁ hp
      obtain ⟨q, hq, h⟩ := ih e₁ h
      exact ⟨q, List.mem_cons_of_mem p hq, h⟩
    · exact ⟨p, List.mem_cons_self, steps, e, e', h⟩

/-- What is read is read by the first parser unless that refuses. -/
theorem firstOf_cons {ps : List (Parser α)}
    (h : (Parser.firstOf (p :: ps)).Comes n c (.accepted a c')) :
    p.Comes n c (.accepted a c') ∨ p.Comes n c .refused := by
  obtain ⟨steps, e, e', h⟩ := h
  rw [Parser.firstOf, Parser.orElse] at h
  split at h
  · rename_i e₁ hp
    exact .inr ⟨steps, e, e₁, hp⟩
  · exact .inl ⟨steps, e, e', h⟩

/-- There is no going back behind a commitment. -/
theorem not_commit_refused {what : String} (h : (Parser.commit p what).Comes n c .refused) :
    False := by
  obtain ⟨steps, e, e', h⟩ := h
  rw [Parser.commit] at h
  split at h
  · cases h
  · cases h
  · rename_i hnot _
    exact hnot _ h

/-- A loop may come out empty, but it is never refused. -/
theorem not_many_refused (h : (Parser.many p).Comes n c .refused) : False := by
  rcases bind_refused h with hrounds | ⟨m, c₁, -, hwithin⟩
  · obtain ⟨steps, e, e', h⟩ := hrounds
    cases (Prod.mk.inj h).1
  · clear h
    induction m generalizing c₁ with
    | zero => exact not_pure_refused hwithin
    | succ m ih =>
      rw [Parser.manyWithin] at hwithin
      rcases bind_refused hwithin with hoptional | ⟨a?, c₂, -, hrest⟩
      · exact not_optional_refused hoptional
      · cases a? with
        | none => exact not_pure_refused hrest
        | some a =>
          rcases bind_refused hrest with hmore | ⟨as, c₃, -, hpure⟩
          · exact ih _ hmore
          · exact not_pure_refused hpure

/-- The values of a loop were accepted one after another. -/
theorem many {as : List α} (h : (Parser.many p).Comes n c (.accepted as c')) :
    (p.withRounds n).Repeats c as c' := by
  obtain ⟨m, c₁, hm, hwithin⟩ := bind h
  obtain rfl := hm.yields.rounds
  clear hm h
  induction m generalizing c as with
  | zero =>
    obtain ⟨rfl, rfl⟩ := pure hwithin
    exact .nil _
  | succ m ih =>
    rw [Parser.manyWithin] at hwithin
    obtain ⟨r, c₁, hr, hrest⟩ := hwithin.bind
    rcases hr.optional with ⟨a, ⟨steps, e, e', ha⟩, rfl⟩ | ⟨rfl, rfl, -⟩
    · obtain ⟨rest, c₂, hmore, hpure⟩ := bind hrest
      obtain ⟨rfl, rfl⟩ := hpure.pure
      exact .cons ⟨⟨steps, n⟩, e, e', ha⟩ (ih hmore)
    · obtain ⟨rfl, rfl⟩ := pure hrest
      exact .nil _

/-- When there is room for more rounds than there are characters, a loop in which every round reads
something only ends where the parser refuses. -/
theorem many_refused {as : List α} (h : (Parser.many p).Comes n c (.accepted as c'))
    (hp : ∀ {c a c'}, p.Comes n c (.accepted a c') → c'.rest.length < c.rest.length)
    (hn : c.rest.length < n) : p.Comes n c' .refused := by
  obtain ⟨m, c₁, hm, hwithin⟩ := bind h
  obtain ⟨hrounds, rfl⟩ := hm.rounds
  -- the rounds that are left always suffice for what is left to read
  have hroom : c.rest.length < m := hrounds ▸ hn
  clear hrounds hm h
  induction m generalizing c as with
  | zero => exact absurd hroom (Nat.not_lt_zero _)
  | succ m ih =>
    rw [Parser.manyWithin] at hwithin
    obtain ⟨r, c₁, hr, hrest⟩ := hwithin.bind
    rcases hr.optional with ⟨a, ha, rfl⟩ | ⟨rfl, rfl, hrefused⟩
    · obtain ⟨rest, c₂, hmore, hpure⟩ := bind hrest
      obtain ⟨rfl, rfl⟩ := hpure.pure
      have hless := hp ha
      exact ih (Nat.lt_trans hless hn) hmore (by omega)
    · obtain ⟨rfl, rfl⟩ := pure hrest
      exact hrefused

end Comes

/-! ### Steps -/

/-- Whatever the parser comes to without aborting, it comes to as well when it may take more
steps. -/
def Steady (p : Parser α) : Prop :=
  ∀ limits steps c e o e', limits.steps ≤ steps → p limits c e = (o, e') →
    (∀ notes, o ≠ .aborted notes) → p { limits with steps } c e = (o, e')

namespace Steady

variable {p q : Parser α}

theorem pure (a : α) : (Pure.pure a : Parser α).Steady :=
  fun _ _ _ _ _ _ _ h _ ↦ h

theorem refuse : (Parser.refuse : Parser α).Steady :=
  fun _ _ _ _ _ _ _ h _ ↦ h

theorem rounds : Parser.rounds.Steady :=
  fun _ _ _ _ _ _ _ h _ ↦ h

/-- If neither part minds more steps, the sequence does not. -/
theorem bind {f : α → Parser β} (hp : p.Steady) (hf : ∀ a, (f a).Steady) : (p >>= f).Steady := by
  intro limits steps c e o e' hle h hne
  simp only [Bind.bind] at h ⊢
  cases hfirst : p limits c e with
  | mk first e₁ =>
  rw [hfirst] at h
  cases first with
  | accepted a c₁ =>
    rw [hp limits steps c e _ e₁ hle hfirst (by simp)]
    exact hf a limits steps c₁ e₁ o e' hle h hne
  | refused =>
    rw [hp limits steps c e _ e₁ hle hfirst (by simp)]
    exact h
  | aborted notes =>
    obtain ⟨rfl, -⟩ := Prod.mk.inj h
    exact absurd rfl (hne notes)

/-- A refusal is no abort, so the first alternative refuses again with more steps. -/
theorem orElse (hp : p.Steady) (hq : q.Steady) : (p.orElse q).Steady := by
  intro limits steps c e o e' hle h hne
  simp only [Parser.orElse] at h ⊢
  cases hfirst : p limits c e with
  | mk first e₁ =>
  rw [hfirst] at h
  cases first with
  | accepted a c₁ =>
    rw [hp limits steps c e _ e₁ hle hfirst (by simp)]
    exact h
  | refused =>
    rw [hp limits steps c e _ e₁ hle hfirst (by simp)]
    exact hq limits steps c e₁ o e' hle h hne
  | aborted notes =>
    obtain ⟨rfl, -⟩ := Prod.mk.inj h
    exact absurd rfl (hne notes)

theorem map (hp : p.Steady) (f : α → β) : (f <$> p).Steady :=
  hp.bind fun a ↦ .pure (f a)

theorem firstOf {ps : List (Parser α)} (h : ∀ p ∈ ps, p.Steady) : (Parser.firstOf ps).Steady := by
  induction ps with
  | nil => exact refuse
  | cons p ps ih =>
    obtain ⟨hp, hps⟩ := List.forall_mem_cons.1 h
    exact hp.orElse (ih hps)

/-- A loop of given rounds is made of sequences and choices. -/
theorem manyWithin (hp : p.Steady) (n : Nat) : (Parser.manyWithin p n).Steady := by
  induction n with
  | zero => exact .pure []
  | succ n ih =>
    rw [Parser.manyWithin]
    refine ((hp.bind fun a ↦ .pure (some a)).orElse (.pure none)).bind fun a? ↦ ?_
    cases a? with
    | none => exact .pure []
    | some a => exact ih.bind fun as ↦ .pure (a :: as)

theorem many (hp : p.Steady) : (Parser.many p).Steady :=
  rounds.bind hp.manyWithin

/-- A token is counted before it is read. With more steps it is counted as before, and only the
limit is further off. -/
theorem lex (l : Lexicon) : (Parser.lex l).Steady := by
  intro limits steps c e o e' hle h hne
  rw [Parser.lex] at h ⊢
  split at h
  · obtain ⟨rfl, -⟩ := Prod.mk.inj h
    exact absurd rfl (hne _)
  · rename_i hlt
    rw [if_neg (by dsimp only; omega)]
    exact h

theorem token (l : Lexicon) : (Parser.token l).Steady := by
  refine rounds.bind fun n ↦ ?_
  induction n with
  | zero => exact refuse
  | succ n ih =>
    rw [tokenWithin]
    refine (lex l).bind fun t ↦ ?_
    split
    · exact ih
    · exact .pure t

theorem tokenIf (l : Lexicon) (accepts : Token → Bool) : (Parser.tokenIf l accepts).Steady := by
  refine (token l).bind fun t ↦ ?_
  split
  · exact .pure t
  · exact .refuse

end Steady

/-- What a parser can come to is what it meets. -/
theorem Meets.eq_of_comes {p : Parser α} {n : Nat} {c : Cursor} {o o' : Outcome α}
    (h : p.Meets n c o) (hp : p.Steady) (hcomes : p.Comes n c o')
    (hne : ∀ notes, o' ≠ .aborted notes) : o' = o := by
  obtain ⟨k, h⟩ := h
  obtain ⟨steps, e, e', hcomes⟩ := hcomes
  obtain ⟨e₁, -, h⟩ := h (steps + (e.steps + k)) e (Nat.le_add_left _ _)
  have hmore := hp ⟨steps, n⟩ (steps + (e.steps + k)) c e o' e' (Nat.le_add_right _ _) hcomes hne
  exact (Prod.mk.inj (hmore.symm.trans h)).1

end Parser

end ShaderLink
