import ShaderLink.Proofs.Grammar.Reads
import ShaderLink.Proofs.Grammar.Run

/-!
# What the events of a body carry

The rules for bodies are many, but what they read is put together from few parts: tokens that matter
to nothing, names that are declared, references, and blocks. So a relation between the cursors and
the events read between them that holds of these parts, and of what is put together from such, holds
of all that the rules read (`Parser.EventClosed`).

The first such relation is the order of the text. The references and members among the events become
elements, so their spans must not overlap. They do not, because the events are put together in the
order in which the text is read. The one exception are declared names, which are held back to the
end of their statement; they have no elements, and their spans are left out here (`Event.child?`).
-/

namespace ShaderLink

/-- The span of the element that an event leads to. -/
def Event.child? : Event → Option Span
  | reference _ span _ => some span
  | member _ span => some span
  | _ => none

/-- The spans of the elements that events lead to. -/
def childSpans (events : List Event) : List Span :=
  events.filterMap Event.child?

@[simp] theorem childSpans_nil : childSpans [] = [] := rfl

@[simp] theorem childSpans_cons (e : Event) (events : List Event) :
    childSpans (e :: events) = e.child?.toList ++ childSpans events := by
  cases h : e.child? <;> simp [childSpans, h]

@[simp] theorem childSpans_append (events events' : List Event) :
    childSpans (events ++ events') = childSpans events ++ childSpans events' := by
  simp [childSpans]

namespace Parser

/-! ### Relations that reading keeps -/

/-- The relation holds of the parts that events are read from, and of parts put together. Events
may also be dropped altogether. -/
structure EventClosed (R : Cursor → List Event → Cursor → Prop) : Prop where
  refl (c : Cursor) : R c [] c
  trans {c c₁ c' : Cursor} {events events' : List Event} (h : R c events c₁)
    (h' : R c₁ events' c') : R c (events ++ events') c'
  skip {c c' : Cursor} {events : List Event} (h : R c events c') : R c [] c'
  read {c c' : Cursor} {token : Token} (h : (Parser.token .shader).Yields c token c') : R c [] c'
  declare (name : String) (span : Span) (c : Cursor) : R c [.declare name span] c
  block {c c' : Cursor} {events : List Event} (h : R c events c') :
    R c (.openBlock :: (events ++ [.closeBlock])) c'
  member {c c' : Cursor} {token : Token} (h : word.Yields c token c') :
    R c [.member token.text token.span] c'
  reference {c₀ c c' : Cursor} {first : Token} {path : List String} {span : Span} {called : Bool}
    (hfirst : (Parser.token .shader).Yields c₀ first c)
    (h : (referencePath first).Yields c (path, span, called) c') (kind : ReferenceKind) :
    R c₀ [.reference path span kind] c'

/-- A declaration is held back with the others. -/
theorem forall_mem_held {pending : List Event}
    (h : ∀ e ∈ pending, ∃ name span, e = .declare name span) (x : Token) :
    ∀ e ∈ pending ++ [.declare x.text x.span], ∃ name span, e = .declare name span :=
  List.forall_mem_append.2 ⟨h, List.forall_mem_singleton.2 ⟨_, _, rfl⟩⟩

namespace EventClosed

variable {R : Cursor → List Event → Cursor → Prop} {c₀ c c₁ c' : Cursor}
  {events pending : List Event} {token : Token}

/-- What was read before something does not matter to it. -/
theorem after (hR : EventClosed R) (hskip : R c [] c₁) (h : R c₁ events c') : R c events c' :=
  hR.trans hskip h

/-- Declarations can be put anywhere. -/
theorem declares (hR : EventClosed R) (h : ∀ e ∈ events, ∃ name span, e = .declare name span)
    (c : Cursor) : R c events c := by
  induction events with
  | nil => exact hR.refl c
  | cons e events ih =>
    obtain ⟨⟨name, span, rfl⟩, hevents⟩ := List.forall_mem_cons.1 h
    exact hR.trans (hR.declare name span c) (ih hevents)

/-- A block with something behind it. -/
theorem blockThen (hR : EventClosed R) {events' : List Event} (h : R c events c₁)
    (h' : R c₁ events' c') : R c (.openBlock :: (events ++ .closeBlock :: events')) c' := by
  have hall := hR.trans (hR.block h) h'
  rwa [List.cons_append, List.append_assoc, List.singleton_append] at hall

theorem sign (hR : EventClosed R) {text : String} (h : (Parser.sign text).Yields c token c') :
    R c [] c' :=
  hR.read h.tokenIf.1

theorem word (hR : EventClosed R) (h : Parser.word.Yields c token c') : R c [] c' :=
  hR.read h.tokenIf.1

theorem name (hR : EventClosed R) (h : Parser.name.Yields c token c') : R c [] c' :=
  hR.read h.tokenIf.1

/-- Events that are left only on some condition may be left in any case. -/
theorem ite (hR : EventClosed R) (p : Prop) [Decidable p] (h : R c events c') :
    R c (if p then events else []) c' := by
  split
  · exact h
  · exact hR.skip h

/-- The relation holds of the events of a body if those held back are declarations. -/
theorem body (hR : EventClosed R) {n : Nat} {closer previous : String} {mode : BodyMode}
    (h : Run.Body n closer mode previous pending c events c')
    (hpending : ∀ e ∈ pending, ∃ name span, e = .declare name span) : R c events c' := by
  induction h with
  | close ht _ => exact hR.after (hR.read ht) (hR.declares hpending _)
  | statement ht _ _ _ ih =>
    exact hR.after (hR.read ht) (hR.trans (hR.declares hpending _) (ih (List.forall_mem_nil _)))
  | block ht _ _ _ _ ihinside ih =>
    exact hR.after (hR.read ht) (hR.blockThen (ihinside (List.forall_mem_nil _)) (ih hpending))
  | group ht _ _ _ _ _ ihinside ih =>
    exact hR.after (hR.read ht) (hR.trans (ihinside (List.forall_mem_nil _)) (ih hpending))
  | mark ht _ _ hwhich _ _ ih =>
    exact hR.after (hR.read ht) (hR.after (hR.word hwhich) (ih hpending))
  | arguments ht _ _ hwhich hparen _ _ ihinside ih =>
    have hinside := hR.after (hR.sign hparen) (ihinside (List.forall_mem_nil _))
    exact hR.after (hR.read ht)
      (hR.after (hR.word hwhich) (hR.trans (hR.ite _ hinside) (ih hpending)))
  | member ht _ _ hx _ ih => exact hR.after (hR.read ht) (hR.after (hR.word hx) (ih hpending))
  | dot ht _ _ _ _ ih => exact hR.after (hR.read ht) (ih hpending)
  | loop ht _ hparen _ hbrace _ _ ihheader ihinside ih =>
    have hheader := hR.after (hR.sign hparen) (ihheader (List.forall_mem_nil _))
    have hinside := hR.after (hR.sign hbrace) (ihinside (List.forall_mem_nil _))
    have hall := hR.after (hR.read ht) (hR.blockThen (hR.trans hheader hinside) (ih hpending))
    rwa [List.append_assoc] at hall
  | declare ht _ _ hx _ ih =>
    exact hR.after (hR.read ht) (hR.after (hR.name hx) (ih (forall_mem_held hpending _)))
  | template ht _ _ hbracket _ hx _ ihinside ih =>
    -- events between the brackets are dropped
    have hskip := hR.skip (hR.after (hR.sign hbracket) (ihinside (List.forall_mem_nil _)))
    exact hR.after (hR.read ht)
      (hR.after hskip (hR.after (hR.name hx) (ih (forall_mem_held hpending _))))
  | keyword ht _ _ _ _ _ ih => exact hR.after (hR.read ht) (ih hpending)
  | parameter ht _ _ _ ih =>
    exact hR.trans (hR.after (hR.read ht) (hR.declare _ _ _)) (ih hpending)
  | reference ht _ _ hpath _ ih => exact hR.trans (hR.reference ht hpath.yields _) (ih hpending)
  | other ht _ _ _ ih => exact hR.after (hR.read ht) (ih hpending)

/-- A body keeps a relation that tokens and events keep. -/
theorem bodyUntil (hR : EventClosed R) {closer : String} {mode : BodyMode}
    (h : (Parser.bodyUntil closer mode).Yields c events c') : R c events c' := by
  obtain ⟨n, h⟩ := h.exists_comes
  exact hR.body h.run_bodyUntil (List.forall_mem_nil _)

/-- So do attributes. -/
theorem attributes (hR : EventClosed R) {n : Nat} (h : Run.Attributes n c events c') :
    R c events c' := by
  induction h with
  | nil c => exact hR.refl c
  | cons ht hwhich hargs _ ih =>
    refine hR.after (hR.sign ht) (hR.after (hR.word hwhich) (hR.trans ?_ ih))
    cases hargs with
    | none => exact hR.refl _
    | some hparen hinside =>
      exact hR.ite _ (hR.after (hR.sign hparen) (hR.body hinside (List.forall_mem_nil _)))

end EventClosed

/-! ### The order of the text -/

namespace Yields

variable {t : Text} {c₀ c c' : Cursor}

/-- A sign that is read is passed. -/
theorem reads_sign {text : String} {token : Token} (h : (sign text).Yields c token c') :
    Reads t c [token.span] c' :=
  reads_tokenIf h

theorem reads_word {token : Token} (h : word.Yields c token c') : Reads t c [token.span] c' :=
  reads_tokenIf h

theorem reads_name {token : Token} (h : name.Yields c token c') : Reads t c [token.span] c' :=
  reads_tokenIf h

/-- A word behind a separator. -/
theorem reads_step {separator : String} {token : Token}
    (h : (sign separator *> word).Yields c token c') : Reads t c [token.span] c' := by
  obtain ⟨sep, c₁, hsep, hword⟩ := h.seqRight
  exact hword.reads_word.after hsep.reads_sign

/-- The words of a path are read one after the other. -/
theorem reads_steps {separator : String} {tokens : List Token}
    (h : (Parser.many (sign separator *> word)).Yields c tokens c') :
    Reads t c (tokens.map Token.span) c' := by
  have hreads := h.many.reads (t := t) (fun token ↦ [token.span])
    fun _ _ _ htoken ↦ htoken.reads_step
  rwa [← List.map_eq_flatMap] at hreads

/-- A path covers the stretch from its first word to its last. -/
theorem reads_referencePath {first : Token} {path : List String} {span : Span} {called : Bool}
    (hfirst : Reads t c₀ [first.span] c)
    (h : (referencePath first).Yields c (path, span, called) c') : Reads t c₀ [span] c' := by
  obtain ⟨colons, c₁, hcolons, h⟩ := Yields.bind h
  obtain ⟨dots, c₂, hdots, h⟩ := h.bind
  obtain ⟨heq, rfl⟩ := h.pure
  obtain ⟨-, hspan⟩ := Prod.mk.inj heq
  obtain ⟨rfl, -⟩ := Prod.mk.inj hspan
  have hdotted : Reads t c₁ ((dots.getD []).map Token.span) c₂ := by
    rcases hdots.optional with ⟨tokens, htokens, rfl⟩ | ⟨rfl, rfl⟩
    · obtain ⟨tokens', c₃, hmany, h⟩ := htokens.bind
      obtain ⟨paren, c₄, hpeek, h⟩ := h.bind
      obtain rfl := hpeek.peek
      obtain ⟨rfl, rfl⟩ := h.pure
      exact hmany.reads_steps
    · exact .refl t _
  have hall := hfirst.trans (hcolons.reads_steps.trans hdotted)
  have hlast : ((first :: (colons ++ dots.getD [])).getLastD first).span ∈
      (first :: (colons ++ dots.getD [])).map Token.span := by
    rw [List.getLastD_cons]
    exact List.mem_map_of_mem List.getLastD_mem_cons
  intro hin
  obtain ⟨hin', hascending⟩ := hall hin
  have hwhole : t.Ascending c₀.offset ((first :: (colons ++ dots.getD [])).map Token.span)
      c₂.offset := by
    rwa [List.map_cons, List.map_append]
  exact ⟨hin', hwhole.merge hlast⟩

end Yields

/-- The spans of the elements that events lead to stand in the order of the text. -/
theorem eventClosed_reads (t : Text) :
    EventClosed fun c events c' ↦ Reads t c (childSpans events) c' where
  refl c := .refl t c
  trans h h' := by
    rw [childSpans_append]
    exact h.trans h'
  skip h := h.skip
  read h := h.reads_token.skip
  declare _ _ c := .refl t c
  block h := by
    rw [childSpans_cons, childSpans_append]
    exact h.trans (.refl t _)
  member h := h.reads_word
  reference hfirst h _ := h.reads_referencePath hfirst.reads_token

end Parser

end ShaderLink
