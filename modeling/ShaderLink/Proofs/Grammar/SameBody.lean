import ShaderLink.Proofs.Grammar.Agreement

/-!
# Bodies without their layout

What is read as a body depends on its lexemes alone: in two runs the events are the same, up to the
spans they are given (`Event.unplaced`). So are the words of paths, and whether a path is called.

The events held back to the end of a statement are values of the runs before, so that two runs with
events that differ in their spans are compared from the start (`Parser.Agree.SameBodies`). A body is
made of bodies of fewer lexemes, each read with one round less (`Parser.Agree.bodyWithin_succ`).
-/

namespace ShaderLink

open Lexeme

/-- A token without its place. -/
def Token.unplaced (t : Token) : Token :=
  { t with span := default }

/-- An event without its place. -/
def Event.unplaced : Event → Event
  | declare name _ => declare name default
  | reference path _ kind => reference path default kind
  | openBlock => openBlock
  | closeBlock => closeBlock
  | member name _ => member name default

/-- The tokens differ in their places only. -/
def Token.Same (t t' : Token) : Prop :=
  t.unplaced = t'.unplaced

/-- The events differ in their places only. -/
def SameEvents (events events' : List Event) : Prop :=
  events.map Event.unplaced = events'.map Event.unplaced

theorem Token.Same.text_eq {t t' : Token} (h : t.Same t') : t.text = t'.text :=
  show t.unplaced.text = t'.unplaced.text from congrArg Token.text h

/-- Where a lexeme stands makes no difference to its token but for the place. -/
theorem Lexeme.same_token (x : Lexeme) (i j : Nat) : (x.token i).Same (x.token j) :=
  rfl

/-- Values that are the same one by one are the same together. -/
theorem map_eq_of_forall₂ {α β : Type} {f : α → β} {as as' : List α}
    (h : List.Forall₂ (fun a a' ↦ f a = f a') as as') : as.map f = as'.map f := by
  rwa [← List.forall₂_eq_eq_eq, List.forall₂_map_left_iff, List.forall₂_map_right_iff]

namespace SameEvents

variable {events events' behind behind' : List Event}

theorem nil : SameEvents [] [] :=
  rfl

/-- Events that agree in their parts agree as a whole. -/
theorem append (h : SameEvents events events') (h' : SameEvents behind behind') :
    SameEvents (events ++ behind) (events' ++ behind') := by
  rw [SameEvents, List.map_append, List.map_append, h, h']

theorem cons {e e' : Event} (he : e.unplaced = e'.unplaced) (h : SameEvents events events') :
    SameEvents (e :: events) (e' :: events') := by
  rw [SameEvents, List.map_cons, List.map_cons, he, h]

/-- So do events that come in pieces. -/
theorem flatten {all all' : List (List Event)} (h : List.Forall₂ SameEvents all all') :
    SameEvents all.flatten all'.flatten := by
  induction h with
  | nil => exact nil
  | cons hfirst _ ih => exact hfirst.append ih

end SameEvents

namespace Parser

namespace Agree

variable {n m : Nat} {xs : List Lexeme} {t t' : Token} {α β : Type}

/-! ### Tokens -/

/-- The next tokens of both texts are the same lexeme. -/
theorem anyToken :
    Agree n m xs (Parser.token .shader) (Parser.token .shader) (Behind xs Token.Same) := by
  refine token fun x ys i j hxs ↦ ⟨?_, x.same_token i j⟩
  rw [hxs]
  exact Nat.lt_succ_self _

/-- Both readers find the sign or both miss it. -/
theorem sign (s : String) :
    Agree n m xs (Parser.sign s) (Parser.sign s) (Behind xs Token.Same) := by
  refine tokenIf (fun x i j ↦ rfl) fun x ys i j hxs _ ↦ ⟨?_, x.same_token i j⟩
  rw [hxs]
  exact Nat.lt_succ_self _

theorem word : Agree n m xs Parser.word Parser.word (Behind xs Token.Same) := by
  refine tokenIf (fun x i j ↦ rfl) fun x ys i j hxs _ ↦ ⟨?_, x.same_token i j⟩
  rw [hxs]
  exact Nat.lt_succ_self _

theorem name : Agree n m xs Parser.name Parser.name (Behind xs Token.Same) := by
  refine tokenIf (fun x i j ↦ rfl) fun x ys i j hxs _ ↦ ⟨?_, x.same_token i j⟩
  rw [hxs]
  exact Nat.lt_succ_self _

/-! ### Paths -/

/-- Words behind separators. -/
theorem steps (separator : String) :
    Agree n m xs (Parser.many (Parser.sign separator *> Parser.word))
      (Parser.many (Parser.sign separator *> Parser.word))
      (After xs (List.Forall₂ Token.Same)) :=
  many fun _ ↦ (sign separator).seqRight fun _ _ _ ⟨hless, _⟩ ↦
    word.mono fun ⟨hless', h⟩ ↦ ⟨hless'.trans hless, h⟩

/-- Words that agree spell the same path. -/
theorem texts_eq {tokens tokens' : List Token} (h : List.Forall₂ Token.Same tokens tokens') :
    tokens.map Token.text = tokens'.map Token.text :=
  map_eq_of_forall₂ (h.imp fun _ _ ↦ Token.Same.text_eq)

/-- Of a path everything but its span is the same. -/
theorem referencePath (h : t.Same t') :
    Agree n m xs (Parser.referencePath t) (Parser.referencePath t')
      (After xs fun a b ↦ a.1 = b.1 ∧ a.2.2 = b.2.2) := by
  refine (steps "::").bind fun colons colons' ys ⟨hle, hcolons⟩ ↦ ?_
  have hdots : Agree n m ys
      (do
        let dots ← Parser.many (Parser.sign "." *> Parser.word)
        let _ ← Parser.peek (Parser.sign "(")
        return dots)
      (do
        let dots ← Parser.many (Parser.sign "." *> Parser.word)
        let _ ← Parser.peek (Parser.sign "(")
        return dots) (After ys (List.Forall₂ Token.Same)) := by
    refine (steps ".").bind fun dots dots' zs hdots ↦ (sign "(").peek.bind ?_
    rintro _ _ _ ⟨rfl, -⟩
    exact .pure hdots
  refine hdots.optional.bind fun o o' zs ho ↦ .pure ?_
  rcases ho with ⟨dots, dots', rfl, rfl, hle', hdots⟩ | ⟨rfl, rfl, rfl⟩
  · exact ⟨hle'.trans hle, by
      simp only [List.map_cons, List.map_append, h.text_eq, texts_eq hcolons, Option.getD_some,
        texts_eq hdots], rfl⟩
  · exact ⟨hle, by simp only [List.map_cons, List.map_append, h.text_eq, texts_eq hcolons], rfl⟩

/-- What declares nothing is a reference, in both runs. -/
theorem mentioned (declares : Bool) (previous : String) (h : t.Same t') :
    Agree n m xs
      (if declares then return .declare t.text t.span
      else do
        let (path, span, called) ← Parser.referencePath t
        return .reference path span (if called then .call else referenceKind previous) :
        Parser Event)
      (if declares then return .declare t'.text t'.span
      else do
        let (path, span, called) ← Parser.referencePath t'
        return .reference path span (if called then .call else referenceKind previous) :
        Parser Event)
      (After xs fun e e' ↦ e.unplaced = e'.unplaced) := by
  refine .ite (fun _ ↦ .pure ⟨Nat.le_refl _, ?_⟩) fun _ ↦ ?_
  · show Event.declare t.text default = .declare t'.text default
    rw [h.text_eq]
  · refine (referencePath h).bind fun a b ys ⟨hle, hpath, hcalled⟩ ↦ .pure ⟨hle, ?_⟩
    show Event.reference a.1 default (if a.2.2 then .call else _) =
      .reference b.1 default (if b.2.2 then .call else _)
    rw [hpath, hcalled]

/-- Whether a word is recorded as a reference does not depend on its place. -/
theorem mention (mode : BodyMode) (previous : String) (h : t.Same t') :
    Agree n m xs (Parser.mention mode previous t) (Parser.mention mode previous t')
      (After xs fun e e' ↦ e.unplaced = e'.unplaced) := by
  cases mode with
  | code => exact mentioned false previous h
  | params =>
    have hcolon : Agree n m xs
        (Option.isSome <$> Parser.optional (Parser.peek (Parser.sign ":")))
        (Option.isSome <$> Parser.optional (Parser.peek (Parser.sign ":")))
        fun a b ys ↦ xs = ys ∧ a = b := by
      refine (sign ":").peek.optional.map fun ho ↦ ?_
      rcases ho with ⟨a, b, rfl, rfl, hxs, -⟩ | ⟨rfl, rfl, hxs⟩
      · exact ⟨hxs, rfl⟩
      · exact ⟨hxs, rfl⟩
    refine hcolon.bind fun declares _ _ ⟨hxs, heq⟩ ↦ ?_
    subst hxs heq
    exact mentioned declares previous h

/-- If arguments are read alike, so are the arguments of an attribute. -/
theorem attributeArgs {args args' : Parser (List Event)} {which which' : String}
    (hargs : ∀ {ys}, ys.length < xs.length → Agree n m ys args args' (After ys SameEvents))
    (hwhich : which = which') :
    Agree n m xs (Parser.attributeArgs args which) (Parser.attributeArgs args' which')
      (After xs SameEvents) := by
  subst hwhich
  refine (sign "(").optional.bind fun o o' ys ho ↦ ?_
  rcases ho with ⟨a, b, rfl, rfl, hless, -⟩ | ⟨rfl, rfl, rfl⟩
  · refine (hargs hless).bind fun events events' zs ⟨hle, hevents⟩ ↦
      .pure ⟨hle.trans hless.le, ?_⟩
    split
    · exact hevents
    · exact .nil
  · exact .pure ⟨Nat.le_refl _, .nil⟩

/-- What stands between angle brackets is left out, if it is read alike. -/
theorem template {inside inside' : Parser (List Event)}
    (hinside : ∀ {ys}, ys.length < xs.length → Agree n m ys inside inside' (After ys SameEvents)) :
    Agree n m xs (Parser.optional (Parser.sign "<" *> inside))
      (Parser.optional (Parser.sign "<" *> inside')) (After xs fun _ _ ↦ True) := by
  have hsign : Agree n m xs (Parser.sign "<" *> inside) (Parser.sign "<" *> inside')
      (After xs SameEvents) :=
    (sign "<").seqRight fun _ _ ys ⟨hless, _⟩ ↦ (hinside hless).widen hless.le
  refine hsign.optional.mono fun ho ↦ ?_
  rcases ho with ⟨events, events', rfl, rfl, hle, -⟩ | ⟨rfl, rfl, rfl⟩
  · exact ⟨hle, trivial⟩
  · exact ⟨Nat.le_refl _, trivial⟩

/-! ### Bodies -/

/-- Bodies that are read in so many rounds have the same events if those held back are the same. -/
def SameBodies (n m : Nat) (xs : List Lexeme) (i j : Nat) : Prop :=
  ∀ ⦃closer previous : String⦄ ⦃mode : BodyMode⦄ ⦃pending pending' : List Event⦄,
    SameEvents pending pending' → Agree n m xs (Parser.bodyWithin i closer mode previous pending)
      (Parser.bodyWithin j closer mode previous pending') (After xs SameEvents)

/-- Behind the first token of a body, what is inside of brackets and what comes next are bodies of
fewer lexemes. -/
theorem bodyWithin_succ {i j : Nat}
    (hfewer : ∀ {ys}, ys.length < xs.length → SameBodies n m ys i j) :
    SameBodies n m xs (i + 1) (j + 1) := by
  intro closer previous mode pending pending' hpending
  refine (anyToken.commit _).bind fun t t' ys ⟨hless, hsame⟩ ↦ ?_
  obtain ⟨kind, s, span⟩ := t
  obtain ⟨kind', s', span'⟩ := t'
  obtain ⟨rfl, rfl, -⟩ := Token.mk.inj hsame
  have hmore {zs : List Lexeme} {pending pending' : List Event} (hle : zs.length ≤ ys.length)
      (hpending : SameEvents pending pending') :
      Agree n m zs (Parser.bodyWithin i closer mode s pending)
        (Parser.bodyWithin j closer mode s pending') (After ys SameEvents) :=
    (hfewer (hle.trans_lt hless) hpending).widen hle
  have hinside {zs : List Lexeme} (bracket : String) (hle : zs.length ≤ ys.length) :
      Agree n m zs (Parser.bodyWithin i bracket .code "" [])
        (Parser.bodyWithin j bracket .code "" []) (After zs SameEvents) :=
    hfewer (hle.trans_lt hless) .nil
  refine widen (?_ : Agree n m ys _ _ (After ys SameEvents)) hless.le
  dsimp only
  refine .ite (fun _ ↦ .ite (fun _ ↦ .pure ⟨Nat.le_refl _, hpending⟩) fun _ ↦ ?_) fun _ ↦
    .ite (fun _ ↦ .ite (fun _ ↦ ?_) fun _ ↦ .ite (fun _ ↦ ?_) fun _ ↦
      .ite (fun _ ↦ hmore (Nat.le_refl _) hpending) fun _ ↦ ?_)
      fun _ ↦ hmore (Nat.le_refl _) hpending
  · have happend {zs : List Lexeme} {p p' : Parser (List Event)} (hle : zs.length ≤ ys.length)
        (h : Agree n m zs p p' (After zs SameEvents)) :
        Agree n m zs (do return (← p) ++ (← Parser.bodyWithin i closer mode s pending))
          (do return (← p') ++ (← Parser.bodyWithin j closer mode s pending'))
          (After ys SameEvents) :=
      h.bind fun first first' us ⟨hle', hfirst⟩ ↦
        (hmore (hle'.trans hle) hpending).bind fun rest rest' vs ⟨hle'', hrest⟩ ↦
          .pure ⟨hle'', hfirst.append hrest⟩
    split
    · -- the end of a statement
      exact (hmore (Nat.le_refl _) .nil).bind fun rest rest' zs ⟨hle, hrest⟩ ↦
        .pure ⟨hle, hpending.append hrest⟩
    · -- a block
      exact (hinside _ (Nat.le_refl _)).bind fun block block' zs ⟨hle, hblock⟩ ↦
        (hmore hle hpending).bind fun rest rest' us ⟨hle', hrest⟩ ↦
          .pure ⟨hle', .cons rfl (hblock.append (.cons rfl hrest))⟩
    · exact happend (Nat.le_refl _) (hinside _ (Nat.le_refl _))
    · exact happend (Nat.le_refl _) (hinside _ (Nat.le_refl _))
    · exact .abort nofun
    · exact .abort nofun
    · exact .abort nofun
    · -- an attribute
      exact (word.commit _).bind fun which which' zs ⟨hless', hwhich⟩ ↦
        happend hless'.le
          (attributeArgs (fun h ↦ hinside _ (h.le.trans hless'.le)) hwhich.text_eq)
    · -- a member of a value
      refine word.optional.bind fun o o' zs ho ↦ ?_
      rcases ho with ⟨a, b, rfl, rfl, hless', -⟩ | ⟨rfl, rfl, rfl⟩
      · exact hmore hless'.le hpending
      · exact hmore (Nat.le_refl _) hpending
    · exact hmore (Nat.le_refl _) hpending
  · -- a loop
    refine ((sign "(").commit _).bind fun _ _ zs ⟨hzs, _⟩ ↦ ?_
    refine (hinside _ hzs.le).bind fun header header' us ⟨hus, hheader⟩ ↦ ?_
    refine ((sign "\x7b").commit _).bind fun _ _ vs ⟨hvs, _⟩ ↦ ?_
    have hfew : vs.length ≤ ys.length := hvs.le.trans (hus.trans hzs.le)
    refine (hinside _ hfew).bind fun block block' ws ⟨hws, hblock⟩ ↦ ?_
    refine (hmore (hws.trans hfew) hpending).bind fun rest rest' ts ⟨hts, hrest⟩ ↦ ?_
    exact .pure ⟨hts, .cons rfl (hheader.append (hblock.append (.cons rfl hrest)))⟩
  · -- a declaration, which is held back
    refine (template fun h ↦ hinside _ h.le).bind fun _ _ zs ⟨hle, _⟩ ↦ ?_
    refine (name.commit _).bind fun found found' us ⟨hless', hfound⟩ ↦ ?_
    refine hmore (hless'.le.trans hle) (hpending.append (.cons ?_ .nil))
    show Event.declare found.text default = .declare found'.text default
    rw [hfound.text_eq]
  · -- a reference or a parameter
    refine (mention mode previous hsame).bind fun e e' zs ⟨hle, he⟩ ↦ ?_
    exact (hmore hle hpending).bind fun rest rest' us ⟨hle', hrest⟩ ↦
      .pure ⟨hle', .cons he hrest⟩

/-- Where the rounds are more than the lexemes in both runs, neither runs out of them. -/
theorem bodyWithin {i j : Nat} (hi : xs.length < i) (hj : xs.length < j) :
    SameBodies n m xs i j :=
  of_rounds (motive := SameBodies n m) bodyWithin_succ hi hj

/-- Bodies are read alike up to the bracket that closes them. -/
theorem bodyUntil (closer : String) (mode : BodyMode) :
    Agree n m xs (Parser.bodyUntil closer mode) (Parser.bodyUntil closer mode)
      (After xs SameEvents) := by
  refine rounds.bind fun i j ys ⟨hys, hi, hj⟩ ↦ ?_
  subst hys
  exact bodyWithin hi hj .nil

/-- Attributes are read alike. -/
theorem attributes :
    Agree n m xs Parser.attributes Parser.attributes (After xs SameEvents) := by
  refine map (R := After xs (List.Forall₂ SameEvents)) (many fun {ys} _ ↦ ?_)
    fun ⟨hle, hall⟩ ↦ ⟨hle, .flatten hall⟩
  refine (sign "@").bind fun _ _ zs ⟨hless, _⟩ ↦ ?_
  refine (word.commit _).bind fun which which' us ⟨hless', hwhich⟩ ↦ ?_
  exact (attributeArgs (fun _ ↦ bodyUntil ")" .code) hwhich.text_eq).mono
    fun ⟨hle, hevents⟩ ↦ ⟨by omega, hevents⟩

end Agree

end Parser

end ShaderLink
