import ShaderLink.Proofs.Grammar.Lossless
import ShaderLink.Proofs.Grammar.Reads

/-!
# The lexings of a parser

What a parser does with the limit on its steps can be said without the limit. From a cursor on it
makes certain **lexings**, one behind the other, and comes to an outcome. Where it may take a step
for each of them it does just that, and where it may not, it makes those that it has steps for and
aborts (`Parser.Follows`). So the limit decides how far a parser comes, but nothing of what it does
on the way.

A parser for which this holds wherever it starts in a text is *metered* (`Parser.Metered`). There is
one lemma for each combinator. All of them recover from a refusal at most, and hand an abort on.
-/

namespace ShaderLink

/-- A use of the lexer: the lexicon and the place. -/
structure Lexing where
  lexicon : Lexicon
  place : Cursor

/-- Where the token starts that is found, unless it is ignored. -/
def Lexing.found? (x : Lexing) : Option Nat :=
  match x.lexicon.lex x.place with
  | .token t _ => if x.lexicon.ignores t.kind then none else some x.place.offset
  | _ => none

namespace Effort

/-- What has been spent after some lexings more: a step for each, and the furthest token found. -/
def after (e : Effort) (log : List Lexing) : Effort where
  steps := e.steps + log.length
  furthest := (log.filterMap Lexing.found?).foldl max e.furthest

variable {e : Effort} {log log' : List Lexing}

@[simp] theorem after_nil : e.after [] = e := rfl

@[simp] theorem steps_after : (e.after log).steps = e.steps + log.length := rfl

/-- Spending goes on where it has come to. -/
@[simp] theorem after_after : (e.after log).after log' = e.after (log ++ log') := by
  simp [after, Nat.add_assoc, List.filterMap_append, List.foldl_append]

end Effort

/-- A line break cannot be broken off. -/
theorem Scan.newLine_ne_broken {t : Text} {notes : List Note} : newLine t ≠ .broken notes := by
  unfold newLine
  split
  · exact nofun
  · exact one_ne_broken _

/-- What a parser comes to in a text if not for want of steps. -/
inductive Outcome.Regular {α : Type} (t : Text) : Outcome α → Prop
  | accepted {a : α} {c : Cursor} (h : c.In t) : Regular t (.accepted a c)
  | refused : Regular t .refused
  | aborted {notes : List Note} (h : .invalid .stepLimit ∉ notes) : Regular t (.aborted notes)

namespace Parser

variable {α β : Type}

/-- From the cursor on, the parser makes the lexings, in their order, and comes to the outcome. If
it has not steps for all of them, it makes those that it has steps for, and aborts. -/
structure Follows (p : Parser α) (rounds : Nat) (c : Cursor) (log : List Lexing) (o : Outcome α) :
    Prop where
  within : ∀ steps e, e.steps + log.length ≤ steps → p ⟨steps, rounds⟩ c e = (o, e.after log)
  beyond : ∀ steps e, e.steps ≤ steps → steps < e.steps + log.length →
    ∃ notes, .invalid .stepLimit ∈ notes ∧
      p ⟨steps, rounds⟩ c e = (.aborted notes, (e.after (log.take (steps - e.steps))).step)

/-- Where the first parser runs out of steps, the second does. -/
def Exhausts (p : Parser α) (q : Parser β) : Prop :=
  ∀ limits c e e' notes, .invalid .stepLimit ∈ notes → p limits c e = (.aborted notes, e') →
    ∃ notes', .invalid .stepLimit ∈ notes' ∧ q limits c e = (.aborted notes', e')

/-- A sequence is given up with its first part. -/
theorem exhausts_bind (p : Parser α) (f : α → Parser β) : p.Exhausts (p >>= f) :=
  fun _ _ _ _ notes hnotes h ↦ ⟨notes, hnotes, by simp only [Bind.bind, h]⟩

/-- There is no second chance behind an abort. -/
theorem exhausts_orElse (p q : Parser α) : p.Exhausts (p.orElse q) :=
  fun _ _ _ _ notes hnotes h ↦ ⟨notes, hnotes, by simp only [orElse, h]⟩

/-- Looking ahead takes steps as well. -/
theorem exhausts_peek (p : Parser α) : p.Exhausts (peek p) :=
  fun _ _ _ _ notes hnotes h ↦ ⟨notes, hnotes, by simp only [peek, h]⟩

theorem exhausts_absent (p : Parser α) : p.Exhausts (absent p) :=
  fun _ _ _ _ notes hnotes h ↦ ⟨notes, hnotes, by simp only [absent, h]⟩

/-- A commitment adds a note, and the limit stays among them. -/
theorem exhausts_commit (p : Parser α) (what : String) : p.Exhausts (commit p what) :=
  fun _ _ _ _ notes hnotes h ↦
    ⟨notes ++ [.expected what], List.mem_append_left _ hnotes, by simp only [commit, h]⟩

theorem exhausts_insist (p : Parser α) : p.Exhausts (insist p) :=
  fun _ _ _ _ notes hnotes h ↦ ⟨notes, hnotes, by simp only [insist, h]⟩

namespace Follows

variable {p : Parser α} {q r : Parser β} {rounds : Nat} {c c' : Cursor} {log log' : List Lexing}
  {o : Outcome α} {o' : Outcome β}

/-- What is done without a lexing. -/
theorem of_eq (h : ∀ limits e, limits.rounds = rounds → p limits c e = (o, e)) :
    p.Follows rounds c [] o where
  within _ _ _ := h _ _ rfl
  beyond _ _ hle hlt := absurd hlt (Nat.not_lt.2 hle)

/-- A parser that goes on like another one where the first comes to its outcome. -/
theorem chain (h : p.Follows rounds c log o) (h' : r.Follows rounds c' log' o')
    (hnext : ∀ limits e e', p limits c e = (o, e') → q limits c e = r limits c' e')
    (hexhausts : p.Exhausts q) : q.Follows rounds c (log ++ log') o' where
  within steps e hsteps := by
    rw [List.length_append] at hsteps
    rw [hnext _ _ _ (h.within steps e (by omega)),
      h'.within steps _ (by rw [Effort.steps_after]; omega), Effort.after_after]
  beyond steps e hle hlt := by
    rw [List.length_append] at hlt
    by_cases hfirst : steps < e.steps + log.length
    · obtain ⟨notes, hnotes, hp⟩ := h.beyond steps e hle hfirst
      rw [List.take_append_of_le_length (by omega)]
      exact hexhausts _ _ _ _ notes hnotes hp
    · obtain ⟨notes, hnotes, hr⟩ := h'.beyond steps (e.after log)
        (by rw [Effort.steps_after]; omega) (by rw [Effort.steps_after]; omega)
      have htake : (log ++ log').take (steps - e.steps) =
          log ++ log'.take (steps - (e.after log).steps) := by
        rw [List.take_append, List.take_of_length_le (by omega), Effort.steps_after, Nat.sub_sub]
      refine ⟨notes, hnotes, ?_⟩
      rw [hnext _ _ _ (h.within steps e (by omega)), hr, Effort.after_after, htake]

/-- A parser whose outcome is decided by that of another one. -/
theorem through (h : p.Follows rounds c log o)
    (hnext : ∀ limits e e', p limits c e = (o, e') → q limits c e = (o', e'))
    (hexhausts : p.Exhausts q) : q.Follows rounds c log o' := by
  have hrest : Follows (fun _ _ e ↦ (o', e)) rounds c [] o' := of_eq fun _ _ _ ↦ rfl
  have hall := h.chain hrest hnext hexhausts
  rwa [List.append_nil] at hall

/-! ### Whole texts -/

variable {t : Text} {steps : Nat}

/-- With a step for each lexing, a whole run comes to its outcome. -/
theorem run_of_le (h : p.Follows (t.size + 1) (.start t) log o) (hsteps : log.length ≤ steps) :
    p.run steps t = (o, Effort.none.after log) :=
  h.within steps .none ((Nat.zero_add _).trans_le hsteps)

/-- With fewer it is given up, and the lexings that it has made are the first ones. -/
theorem exists_run_of_lt (h : p.Follows (t.size + 1) (.start t) log o)
    (hsteps : steps < log.length) :
    ∃ notes, .invalid .stepLimit ∈ notes ∧
      p.run steps t = (.aborted notes, (Effort.none.after (log.take steps)).step) :=
  h.beyond steps .none (Nat.zero_le _) (hsteps.trans_eq (Nat.zero_add _).symm)

end Follows

/-- Wherever the parser starts in the text, it makes certain lexings in the text and comes to a
certain outcome, unless it runs out of steps before. -/
def Metered (t : Text) (p : Parser α) : Prop :=
  ∀ rounds c, c.In t → ∃ log o, p.Follows rounds c log o ∧ (∀ x ∈ log, x.place.In t) ∧ o.Regular t

/-! ### Lexing -/

/-- What cannot be finished is a comment or a number, and never for want of steps. -/
theorem notes_of_lex_broken {l : Lexicon} {c : Cursor} {notes : List Note}
    (h : l.lex c = .broken notes) : .invalid .stepLimit ∉ notes := by
  have hliteral (lexeme : String) : Scan.literal lexeme c.rest ≠ .broken notes :=
    Scan.literal_ne_broken lexeme
  have hone (p : Char → Bool) : Scan.one p c.rest ≠ .broken notes := Scan.one_ne_broken p
  cases l with
  | shader =>
    rcases Cursor.of_lex_broken h with ⟨-, rfl⟩ | ⟨-, rfl⟩
    · decide
    · exact List.not_mem_nil
  | directive =>
    obtain ⟨rule, hrule, hbroken⟩ := Cursor.exists_of_lexWith_broken h
    simp only [Lexicon.rules, List.mem_cons, List.not_mem_nil, or_false] at hrule
    rcases hrule with rfl | rfl | rfl | rfl | rfl | rfl | rfl
    · exact absurd hbroken (Scan.run_ne_broken _)
    · exact absurd hbroken Scan.lineComment_ne_broken
    · exact absurd hbroken Scan.newLine_ne_broken
    · exact absurd hbroken (Scan.orElse_ne_broken (hliteral _) (hliteral _))
    · rw [(Scan.of_number_broken hbroken).1]
      exact List.not_mem_nil
    · exact absurd hbroken Scan.identifier_ne_broken
    · exact absurd hbroken (Scan.orElse_ne_broken (hliteral _) (hone _))

/-- A lexing is one step. -/
theorem follows_lex (l : Lexicon) (rounds : Nat) (c : Cursor) :
    (lex l).Follows rounds c [⟨l, c⟩] (match l.lex c with
      | .finished => .refused
      | .broken notes => .aborted notes
      | .token t next => .accepted t next) where
  within steps e hsteps := by
    have hle : ¬steps < e.step.steps := Nat.not_lt.2 hsteps
    rw [lex, if_neg hle, Effort.after, List.filterMap_cons, List.filterMap_nil, Lexing.found?]
    cases l.lex c with
    | finished => rfl
    | broken notes => rfl
    | token t next =>
      dsimp only
      split <;> rfl
  beyond steps e hle hlt := by
    have hlimit : steps < e.step.steps := hlt
    have hnone : steps - e.steps = 0 := Nat.sub_eq_zero_of_le (Nat.le_of_lt_succ hlimit)
    refine ⟨[.invalid .stepLimit], List.mem_singleton_self _, ?_⟩
    rw [lex, if_pos hlimit, hnone, List.take_zero, Effort.after_nil]

namespace Metered

variable {t : Text} {p q : Parser α}

/-- What is lexed moves the cursor forward in the text. -/
theorem lex (l : Lexicon) : (Parser.lex l).Metered t := by
  refine fun rounds c hc ↦ ⟨_, _, follows_lex l rounds c, List.forall_mem_singleton.2 hc, ?_⟩
  cases hlex : l.lex c with
  | finished => exact .refused
  | broken notes => exact .aborted (notes_of_lex_broken hlex)
  | token token next => exact .accepted (hc.passes (Lexicon.passes_of_lex hlex))

/-! ### Sequencing -/

/-- What is done without a lexing. -/
theorem of_eq (h : ∀ rounds c, c.In t → ∃ o : Outcome α, o.Regular t ∧
    ∀ limits e, limits.rounds = rounds → p limits c e = (o, e)) : p.Metered t := by
  intro rounds c hc
  obtain ⟨o, ho, heq⟩ := h rounds c hc
  exact ⟨[], o, .of_eq heq, List.forall_mem_nil _, ho⟩

theorem pure (a : α) : (Pure.pure a : Parser α).Metered t :=
  of_eq fun _ _ hc ↦ ⟨_, .accepted hc, fun _ _ _ ↦ rfl⟩

theorem refuse : (Parser.refuse : Parser α).Metered t :=
  of_eq fun _ _ _ ↦ ⟨_, .refused, fun _ _ _ ↦ rfl⟩

/-- Only running out of steps is given up with the limit as the reason. -/
theorem abort {label : Label} (h : label ≠ .stepLimit) :
    (Parser.abort label : Parser α).Metered t :=
  of_eq fun _ _ _ ↦ ⟨_, .aborted (by simpa using h.symm), fun _ _ _ ↦ rfl⟩

theorem offset : Parser.offset.Metered t :=
  of_eq fun _ _ hc ↦ ⟨_, .accepted hc, fun _ _ _ ↦ rfl⟩

theorem rounds : Parser.rounds.Metered t :=
  of_eq fun rounds _ hc ↦ ⟨.accepted rounds _, .accepted hc, fun _ _ h ↦ by rw [← h]; rfl⟩

/-- Going back costs nothing and stays in the text. -/
theorem goBack {c : Cursor} (h : c.In t) : (Parser.goBack c).Metered t :=
  of_eq fun _ _ _ ↦ ⟨_, .accepted h, fun _ _ _ ↦ rfl⟩

/-- The lexings of a sequence are those of its parts, one behind the other. -/
theorem bind {f : α → Parser β} (hp : p.Metered t) (hf : ∀ a, (f a).Metered t) :
    (p >>= f).Metered t := by
  intro rounds c hc
  obtain ⟨log, o, hfollows, hlog, ho⟩ := hp rounds c hc
  have hexhausts := exhausts_bind p f
  cases ho with
  | refused =>
    exact ⟨log, .refused, hfollows.through (fun _ _ _ h ↦ by simp only [Bind.bind, h]) hexhausts,
      hlog, .refused⟩
  | aborted hnotes =>
    exact ⟨log, .aborted _, hfollows.through (fun _ _ _ h ↦ by simp only [Bind.bind, h]) hexhausts,
      hlog, .aborted hnotes⟩
  | @accepted a c₁ hc₁ =>
    obtain ⟨log', o', hfollows', hlog', ho'⟩ := hf a rounds c₁ hc₁
    exact ⟨log ++ log', o',
      hfollows.chain hfollows' (fun _ _ _ h ↦ by simp only [Bind.bind, h]) hexhausts,
      List.forall_mem_append.2 ⟨hlog, hlog'⟩, ho'⟩

/-- A cursor that is kept is in the text. -/
theorem here {f : Cursor → Parser α} (hf : ∀ c, c.In t → (f c).Metered t) :
    (Parser.here >>= f).Metered t := by
  intro rounds c hc
  obtain ⟨log, o, hfollows, hrest⟩ := hf c hc rounds c hc
  have hhere : Parser.here.Follows rounds c [] (.accepted c c) := .of_eq fun _ _ _ ↦ rfl
  exact ⟨log, o, hhere.chain hfollows (fun _ _ _ h ↦ by simp only [Bind.bind, h])
    (exhausts_bind _ f), hrest⟩

/-- What is made of the value takes no steps. -/
theorem map (f : α → β) (h : p.Metered t) : (f <$> p).Metered t :=
  h.bind fun a ↦ .pure (f a)

theorem seqRight {q : Parser β} (hp : p.Metered t) (hq : q.Metered t) : (p *> q).Metered t :=
  hp.bind fun _ ↦ hq

/-- Which of two parsers is run may depend on anything that is known before. -/
theorem ite {cond : Prop} [Decidable cond] (hp : p.Metered t) (hq : q.Metered t) :
    (if cond then p else q).Metered t := by
  split
  · exact hp
  · exact hq

/-! ### Choice -/

/-- If the first alternative is refused, its lexings stand in front of those of the second. -/
theorem orElse (hp : p.Metered t) (hq : q.Metered t) : (p.orElse q).Metered t := by
  intro rounds c hc
  obtain ⟨log, o, hfollows, hlog, ho⟩ := hp rounds c hc
  have hexhausts := exhausts_orElse p q
  cases ho with
  | @accepted a c₁ hc₁ =>
    exact ⟨log, .accepted a c₁,
      hfollows.through (fun _ _ _ h ↦ by simp only [Parser.orElse, h]) hexhausts, hlog,
      .accepted hc₁⟩
  | @aborted notes hnotes =>
    exact ⟨log, .aborted notes,
      hfollows.through (fun _ _ _ h ↦ by simp only [Parser.orElse, h]) hexhausts, hlog,
      .aborted hnotes⟩
  | refused =>
    obtain ⟨log', o', hfollows', hlog', ho'⟩ := hq rounds c hc
    exact ⟨log ++ log', o',
      hfollows.chain hfollows' (fun _ _ _ h ↦ by simp only [Parser.orElse, h]) hexhausts,
      List.forall_mem_append.2 ⟨hlog, hlog'⟩, ho'⟩

/-- Several alternatives are tried in turn. -/
theorem firstOf {ps : List (Parser α)} (h : ∀ p ∈ ps, p.Metered t) :
    (Parser.firstOf ps).Metered t := by
  induction ps with
  | nil => exact refuse
  | cons p ps ih =>
    obtain ⟨hp, hps⟩ := List.forall_mem_cons.1 h
    exact hp.orElse (ih hps)

theorem firstOf_pair (hp : p.Metered t) (hq : q.Metered t) :
    (Parser.firstOf [p, q]).Metered t :=
  firstOf (List.forall_mem_cons.2 ⟨hp, List.forall_mem_singleton.2 hq⟩)

theorem optional (h : p.Metered t) : (Parser.optional p).Metered t :=
  (h.map some).orElse (.pure none)

/-- A parser that makes of each outcome of another one an outcome at the same cost is metered. -/
theorem through {q : Parser β} (h : p.Metered t) (hexhausts : p.Exhausts q)
    (hnext : ∀ c o, c.In t → o.Regular t → ∃ o' : Outcome β, o'.Regular t ∧
      ∀ limits e e', p limits c e = (o, e') → q limits c e = (o', e')) : q.Metered t := by
  intro rounds c hc
  obtain ⟨log, o, hfollows, hlog, ho⟩ := h rounds c hc
  obtain ⟨o', ho', heq⟩ := hnext c o hc ho
  exact ⟨log, o', hfollows.through heq hexhausts, hlog, ho'⟩

/-- Looking ahead takes its steps, and then the cursor is where it was. -/
theorem peek (h : p.Metered t) : (Parser.peek p).Metered t := by
  refine h.through (exhausts_peek p) fun c o hc ho ↦ ?_
  cases ho with
  | @accepted a =>
    exact ⟨.accepted a c, .accepted hc, fun _ _ _ h ↦ by simp only [Parser.peek, h]⟩
  | refused => exact ⟨.refused, .refused, fun _ _ _ h ↦ by simp only [Parser.peek, h]⟩
  | @aborted notes hnotes =>
    exact ⟨.aborted notes, .aborted hnotes, fun _ _ _ h ↦ by simp only [Parser.peek, h]⟩

/-- So does making sure that something is absent. -/
theorem absent (h : p.Metered t) : (Parser.absent p).Metered t := by
  refine h.through (exhausts_absent p) fun c o hc ho ↦ ?_
  cases ho with
  | accepted => exact ⟨.refused, .refused, fun _ _ _ h ↦ by simp only [Parser.absent, h]⟩
  | refused =>
    exact ⟨.accepted () c, .accepted hc, fun _ _ _ h ↦ by simp only [Parser.absent, h]⟩
  | @aborted notes hnotes =>
    exact ⟨.aborted notes, .aborted hnotes, fun _ _ _ h ↦ by simp only [Parser.absent, h]⟩

/-- A commitment turns a refusal into an abort at the same cost. -/
theorem commit (h : p.Metered t) (what : String) : (Parser.commit p what).Metered t := by
  refine h.through (exhausts_commit p what) fun c o hc ho ↦ ?_
  cases ho with
  | @accepted a c' hc' =>
    exact ⟨.accepted a c', .accepted hc', fun _ _ _ h ↦ by simp only [Parser.commit, h]⟩
  | refused =>
    exact ⟨.aborted [.expected what], .aborted (by simp),
      fun _ _ _ h ↦ by simp only [Parser.commit, h]⟩
  | @aborted notes hnotes =>
    exact ⟨.aborted (notes ++ [.expected what]), .aborted (by simpa using hnotes),
      fun _ _ _ h ↦ by simp only [Parser.commit, h]⟩

/-- So does insisting. -/
theorem insist (h : p.Metered t) : (Parser.insist p).Metered t := by
  refine h.through (exhausts_insist p) fun c o hc ho ↦ ?_
  cases ho with
  | @accepted a c' hc' =>
    exact ⟨.accepted a c', .accepted hc', fun _ _ _ h ↦ by simp only [Parser.insist, h]⟩
  | refused =>
    exact ⟨.aborted [], .aborted List.not_mem_nil,
      fun _ _ _ h ↦ by simp only [Parser.insist, h]⟩
  | @aborted notes hnotes =>
    exact ⟨.aborted notes, .aborted hnotes, fun _ _ _ h ↦ by simp only [Parser.insist, h]⟩

/-! ### Repetition -/

/-- A loop is made of sequences and choices, as often as there are rounds. -/
theorem manyWithin (h : p.Metered t) (n : Nat) : (Parser.manyWithin p n).Metered t := by
  induction n with
  | zero => exact .pure []
  | succ n ih =>
    refine h.optional.bind fun a? ↦ ?_
    cases a? with
    | none => exact .pure []
    | some a => exact ih.bind fun as ↦ .pure (a :: as)

theorem many (h : p.Metered t) : (Parser.many p).Metered t :=
  rounds.bind h.manyWithin

/-- Behind the first value there is a loop. -/
theorem separated₁ {separator : Parser β} (h : p.Metered t) (hs : separator.Metered t) :
    (Parser.separated₁ p separator).Metered t :=
  h.bind fun first ↦ (many (hs.seqRight h)).bind fun rest ↦ .pure (first :: rest)

theorem separated {separator : Parser β} (h : p.Metered t) (hs : separator.Metered t) :
    (Parser.separated p separator).Metered t :=
  (h.separated₁ hs).optional.bind fun as ↦ .pure (as.getD [])

end Metered

end Parser

end ShaderLink
