import ShaderLink.Module.Parse
import ShaderLink.Proofs.Except
import ShaderLink.Proofs.Grammar.Metered

/-!
# The limit on the steps of a parse

A file needs a certain number of steps and has a certain result. Under every limit that allows for
them the parse has this result, and under every lower one it fails for want of steps
(`Module.exists_parse_eq`). So a higher limit changes nothing but that fewer files are given up
(`Module.parse_of_le`).
-/

namespace ShaderLink

/-- What is said of a parse that ran out of steps. -/
def stepLimitMessage (limit : Nat) : String :=
  "parse step limit of " ++ toString limit ++ " exceeded"

namespace Note

variable {limit limit' : Nat} {notes : List Note}

theorem summary_of_mem (h : .invalid .stepLimit ∈ notes) :
    summary limit notes = stepLimitMessage limit := by
  unfold summary stepLimitMessage
  exact if_pos h

/-- The limit is of no account unless it has been exceeded. -/
theorem summary_of_not_mem (h : .invalid .stepLimit ∉ notes) :
    summary limit notes = summary limit' notes := by
  rw [summary, summary, if_neg h, if_neg h]

/-- The summaries differ in their first letters. -/
theorem summary_ne_stepLimitMessage (h : .invalid .stepLimit ∉ notes) :
    summary limit notes ≠ stepLimitMessage limit' := by
  intro heq
  have hhead := congrArg (fun s ↦ s.toList.head?) heq
  unfold summary stepLimitMessage at hhead
  rw [if_neg h] at hhead
  split at hhead <;> simp at hhead

end Note

namespace ParseError

variable {file : String} {source : Text} {map : SourceMap} {effort : Effort} {notes : List Note}

/-- A report on another failure than that of exceeding the limit does not depend on the limit. -/
theorem report_eq (h : .invalid .stepLimit ∉ notes) (limit limit' : Nat) :
    report file source map limit effort notes = report file source map limit' effort notes := by
  rw [report, report, Note.summary_of_not_mem h]

theorem message_report_ne (h : .invalid .stepLimit ∉ notes) (limit limit' : Nat) :
    (report file source map limit effort notes).message ≠ stepLimitMessage limit' :=
  Note.summary_ne_stepLimitMessage h

end ParseError

/-- The notes with which a parse fails that comes to the outcome. -/
def Outcome.failure? {α : Type} : Outcome α → Option (List Note)
  | .accepted _ _ => none
  | .refused => some []
  | .aborted notes => some notes

/-- A regular failure is none for want of steps. -/
theorem Outcome.Regular.not_mem_failure? {α : Type} {t : Text} {o : Outcome α} (h : o.Regular t) :
    ∀ notes ∈ o.failure?, .invalid .stepLimit ∉ notes := by
  cases h with
  | accepted => exact nofun
  | refused =>
    rintro _ ⟨⟩
    exact List.not_mem_nil
  | aborted hnotes =>
    rintro _ ⟨⟩
    exact hnotes

namespace Module

variable {conditions : String → Bool} {options : ParseOptions} {file : String} {source : Text}
  {limit limit' : Nat}

/-- The text of a file that is parsed. -/
def keptText (conditions : String → Bool) (file : String) (source : Text) : Text :=
  (Conditional.process conditions ⟨file⟩ source).map.text

/-- What the parse of a file comes to, and what it has spent. -/
def outcome (options : ParseOptions) (file : String) (source : Text) :
    Outcome (List Item) × Effort :=
  Parser.items.run options.maxSteps (keptText options.conditions file source)

/-- The parse of a file has been given up at the limit. -/
def GivenUp (conditions : String → Bool) (limit : Nat) (file : String) (source : Text) : Prop :=
  ∃ error, parse ⟨conditions, limit⟩ file source = .error error ∧
    error.message = stepLimitMessage limit

theorem parse_of_failure {o : Outcome (List Item)} {effort : Effort} {notes : List Note}
    (h : outcome options file source = (o, effort)) (hfailure : o.failure? = some notes) :
    parse options file source = .error (.report file source
      (Conditional.process options.conditions ⟨file⟩ source).map options.maxSteps effort
      notes) := by
  unfold outcome keptText at h
  unfold parse
  cases o with
  | accepted => cases hfailure
  | refused =>
    cases hfailure
    simp only [h]
  | aborted =>
    cases hfailure
    simp only [h]

/-- From a failure on, a parse only reports. -/
theorem exists_failure_of_parse {error : ParseError}
    (h : parse options file source = .error error) :
    ∃ o effort notes, outcome options file source = (o, effort) ∧ o.failure? = some notes ∧
      error = .report file source
        (Conditional.process options.conditions ⟨file⟩ source).map options.maxSteps effort
        notes := by
  cases houtcome : outcome options file source with
  | mk o effort =>
  cases hfailure : o.failure? with
  | some notes =>
    rw [parse_of_failure houtcome hfailure] at h
    exact ⟨o, effort, notes, rfl, hfailure, (Except.error.inj h).symm⟩
  | none =>
    cases o with
    | accepted items c =>
      rw [parse_of_run houtcome] at h
      cases h
    | refused => cases hfailure
    | aborted => cases hfailure

/-- The number of steps that a file needs, and the result that it has if there are as many. -/
theorem exists_parse_eq (conditions : String → Bool) (file : String) (source : Text) :
    ∃ needed result,
      (∀ error, result = .error error → ∀ limit, error.message ≠ stepLimitMessage limit) ∧
      (∀ limit, needed ≤ limit → parse ⟨conditions, limit⟩ file source = result ∧
        (outcome ⟨conditions, limit⟩ file source).2.steps = needed) ∧
      ∀ limit, limit < needed → GivenUp conditions limit file source ∧
        (outcome ⟨conditions, limit⟩ file source).2.steps = limit + 1 := by
  obtain ⟨log, o, hfollows, -, ho⟩ := Parser.metered_items
    ((keptText conditions file source).size + 1) _ (Cursor.In.start _)
  -- the log of an unlimited run tells how many steps are needed
  have hwithin (limit : Nat) (h : log.length ≤ limit) :
      outcome ⟨conditions, limit⟩ file source = (o, Effort.none.after log) := hfollows.run_of_le h
  have hgivenUp (limit : Nat) (h : limit < log.length) :
      GivenUp conditions limit file source ∧
        (outcome ⟨conditions, limit⟩ file source).2.steps = limit + 1 := by
    obtain ⟨notes, hnotes, hrun⟩ := hfollows.exists_run_of_lt h
    have houtcome : outcome ⟨conditions, limit⟩ file source = (.aborted notes, _) := hrun
    refine ⟨⟨_, parse_of_failure houtcome rfl, Note.summary_of_mem hnotes⟩, ?_⟩
    rw [houtcome, Effort.step, Effort.steps_after, List.length_take]
    simp only [Effort.none]
    omega
  -- with steps enough, the limit shows nowhere in the result
  suffices hresult : ∃ result,
      (∀ error, result = .error error → ∀ limit, error.message ≠ stepLimitMessage limit) ∧
      ∀ limit, log.length ≤ limit → parse ⟨conditions, limit⟩ file source = result by
    obtain ⟨result, hmessage, hparse⟩ := hresult
    refine ⟨log.length, result, hmessage, fun limit h ↦ ⟨hparse limit h, ?_⟩, hgivenUp⟩
    rw [hwithin limit h, Effort.steps_after]
    exact Nat.zero_add _
  cases hfailure : o.failure? with
  | none =>
    cases o with
    | accepted items c =>
      refine ⟨.ok (ofItems file source (Conditional.process conditions ⟨file⟩ source) items), ?_,
        fun limit h ↦ parse_of_run (hwithin limit h)⟩
      intro error herror
      cases herror
    | refused => cases hfailure
    | aborted => cases hfailure
  | some notes =>
    have hnotes := ho.not_mem_failure? notes hfailure
    refine ⟨.error (.report file source (Conditional.process conditions ⟨file⟩ source).map 0
      (Effort.none.after log) notes), ?_, fun limit h ↦ ?_⟩
    · rintro _ ⟨⟩ limit
      exact ParseError.message_report_ne hnotes _ _
    · rw [parse_of_failure (hwithin limit h) hfailure]
      exact congrArg _ (ParseError.report_eq hnotes _ _)

/-- Raising the limit keeps each module and each error but those at the limit. These are the errors
of the parses that take more steps than the limit, wherever they come to it. -/
theorem parse_of_le (h : limit ≤ limit') :
    (∀ m, parse ⟨conditions, limit⟩ file source = .ok m →
      parse ⟨conditions, limit'⟩ file source = .ok m) ∧
    (∀ error, parse ⟨conditions, limit⟩ file source = .error error →
      error.message ≠ stepLimitMessage limit →
        parse ⟨conditions, limit'⟩ file source = .error error) ∧
    (limit < (outcome ⟨conditions, limit⟩ file source).2.steps ↔
      GivenUp conditions limit file source) ∧
    (limit < (outcome ⟨conditions, limit'⟩ file source).2.steps ↔
      GivenUp conditions limit file source) := by
  obtain ⟨needed, result, hmessage, henough, hscarce⟩ := exists_parse_eq conditions file source
  -- the steps that are needed are the threshold of the limit
  have hgivenUp : GivenUp conditions limit file source ↔ limit < needed := by
    refine ⟨fun ⟨error, herror, hlimit⟩ ↦ ?_, fun hlt ↦ (hscarce limit hlt).1⟩
    by_contra hle
    obtain ⟨hparse, -⟩ := henough limit (Nat.not_lt.1 hle)
    exact hmessage error (hparse ▸ herror) limit hlimit
  have hsteps (bound : Nat) (hbound : limit ≤ bound) :
      limit < (outcome ⟨conditions, bound⟩ file source).2.steps ↔ limit < needed := by
    rcases Nat.lt_or_ge bound needed with hlt | hge
    · rw [(hscarce bound hlt).2]
      omega
    · rw [(henough bound hge).2]
  have hraise (hlimit : ¬GivenUp conditions limit file source) :
      parse ⟨conditions, limit⟩ file source = parse ⟨conditions, limit'⟩ file source := by
    have hle := Nat.not_lt.1 (hgivenUp.not.1 hlimit)
    rw [(henough limit hle).1, (henough limit' (hle.trans h)).1]
  refine ⟨fun m hm ↦ ?_, fun error herror hlimit ↦ ?_, ?_, ?_⟩
  · rw [← hraise, hm]
    rintro ⟨error, herror, -⟩
    cases hm.symm.trans herror
  · rw [← hraise, herror]
    rintro ⟨error', herror', hmessage'⟩
    cases herror.symm.trans herror'
    exact hlimit hmessage'
  · rw [hsteps limit le_rfl, hgivenUp]
  · rw [hsteps limit' h, hgivenUp]

/-- A function and a parameter list that is not closed, with as many steps as they need and with
less. -/
theorem parse_of_le_functions :
    (∃ m, parse ⟨fun _ ↦ false, 61⟩ "main" "fn f() \x7b g(); \x7d".toList = .ok m ∧
      parse ⟨fun _ ↦ false, 1000⟩ "main" "fn f() \x7b g(); \x7d".toList = .ok m) ∧
    (∃ error, parse ⟨fun _ ↦ false, 27⟩ "main" "fn f( \x7b \x7d".toList = .error error ∧
      error.notes = [.expected "`)`"] ∧
      parse ⟨fun _ ↦ false, 1000⟩ "main" "fn f( \x7b \x7d".toList = .error error) ∧
    GivenUp (fun _ ↦ false) 60 "main" "fn f() \x7b g(); \x7d".toList := by
  refine ⟨?_, ?_, ?_⟩
  · have hsome : (parse ⟨fun _ ↦ false, 61⟩ "main"
        "fn f() \x7b g(); \x7d".toList).toOption.isSome = true := by decide +kernel
    obtain ⟨m, hm⟩ := Option.isSome_iff_exists.1 hsome
    have hm := Except.eq_ok_of_toOption hm
    exact ⟨m, hm, (parse_of_le (by decide : 61 ≤ 1000)).1 m hm⟩
  · have hfailure : (outcome ⟨fun _ ↦ false, 27⟩ "main" "fn f( \x7b \x7d".toList).1.failure? =
        some [.expected "`)`"] := by decide +kernel
    have hparse := parse_of_failure (Prod.eta _).symm hfailure
    have hnotes : .invalid .stepLimit ∉ [Note.expected "`)`"] := by decide
    exact ⟨_, hparse, rfl, (parse_of_le (by decide : 27 ≤ 1000)).2.1 _ hparse
      (ParseError.message_report_ne hnotes _ _)⟩
  · exact (parse_of_le (by decide : 60 ≤ 1000)).2.2.2.1 (by decide +kernel)

end Module

end ShaderLink
