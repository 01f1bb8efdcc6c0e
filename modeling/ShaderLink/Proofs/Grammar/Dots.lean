import ShaderLink.Proofs.Grammar.Parentheses
import ShaderLink.Proofs.Grammar.Uses

/-!
# References behind dots

In a body a dot goes with the word behind it, so that no reference starts there
(`Reading.Body.starts`). The type of a struct member is read without minding dots, so that there
every name is in a reference, except where it is in parentheses and so in a body again
(`Reading.MemberType.shown`).
-/

namespace ShaderLink

open ShaderLink.Parser

namespace Reading

variable {ts us : List Token} {t x : Token} {events found all : List Event}
  {roles : List (Token × Role)}

/-! ### Where references start -/

/-- The tokens do not end with a dot. -/
def NoDot (ts : List Token) : Prop :=
  ∀ t ∈ ts.getLast?, ¬t.IsSymbol "."

namespace NoDot

theorem nil : NoDot [] :=
  nofun

theorem concat (ts : List Token) (h : ¬t.IsSymbol ".") : NoDot (ts ++ [t]) := by
  intro u hu
  rw [List.getLast?_concat] at hu
  exact Option.some.inj hu ▸ h

/-- Tokens that do not end with a dot may stand in front, also of no tokens. -/
theorem append (h : NoDot ts) (h' : NoDot us) : NoDot (ts ++ us) := by
  intro t ht
  rw [List.getLast?_append] at ht
  rcases Option.or_eq_some_iff.1 ht with ht | ⟨-, ht⟩
  · exact h' t ht
  · exact h t ht

theorem of_word (ts : List Token) (h : t.kind = .word) : NoDot (ts ++ [t]) :=
  concat ts fun hdot ↦ hdot.not_word h

theorem of_symbol (ts : List Token) {s : String} (h : t.IsSymbol s) (hs : s ≠ ".") :
    NoDot (ts ++ [t]) :=
  concat ts (h.not_isSymbol hs)

end NoDot

/-- A body ends with the symbol that closes it. -/
theorem Ends.noDot {closer : String} (h : Ends closer ts) (hcloser : closer ≠ ".") : NoDot ts := by
  obtain ⟨front, t, rfl, ht, -⟩ := h
  exact .of_symbol _ ht hcloser

theorem Words.noDot {separator : String} {words : List Token} (h : Words separator ts words) :
    NoDot ts := by
  induction h with
  | nil => exact .nil
  | cons _ hx _ ih => exact (NoDot.of_word [_] hx).append ih

/-- A path ends with a word. -/
theorem Path.noDot {called : Bool} {words vs : List Token} (h : Path called ts words vs) :
    NoDot ts := by
  cases h with
  | plain hcolons _ _ => exact hcolons.noDot
  | called hcolons hdots _ => exact hcolons.noDot.append hdots.noDot

/-- Each reference among the events starts with a name, in front of which the tokens are as said. -/
def Starts (Behind : List Token → Prop) (ts : List Token) (events : List Event) : Prop :=
  ∀ path span kind, .reference path span kind ∈ events →
    ∃ us t vs, ts = us ++ t :: vs ∧ span.start = t.span.start ∧ t.IsName ∧ Behind us

namespace Starts

variable {Behind Behind' : List Token → Prop}

/-- Where there are no references, there is nothing to show. -/
theorem of_silent (h : Silent events) : Starts Behind ts events :=
  fun path span kind hmem ↦ absurd hmem (h path span kind)

theorem mono (h : Starts Behind ts events) (hbehind : ∀ us, Behind us → Behind' us) :
    Starts Behind' ts events := by
  intro path span kind hmem
  obtain ⟨us, t, vs, hts, hstart, hname, hus⟩ := h path span kind hmem
  exact ⟨us, t, vs, hts, hstart, hname, hbehind us hus⟩

theorem of_events (h : Starts Behind ts events)
    (hall : ∀ path span kind, .reference path span kind ∈ all →
      .reference path span kind ∈ events) : Starts Behind ts all :=
  fun path span kind hmem ↦ h path span kind (hall path span kind hmem)

/-- References in front and behind make up those of all tokens. -/
theorem append (h : Starts Behind ts found) (h' : Starts Behind' us events)
    (hbehind : ∀ front t back, us = front ++ t :: back → t.IsName → Behind' front →
      Behind (ts ++ front)) : Starts Behind (ts ++ us) (found ++ events) := by
  intro path span kind hmem
  rcases List.mem_append.1 hmem with hmem | hmem
  · obtain ⟨front, t, back, rfl, hstart, hname, hfront⟩ := h path span kind hmem
    exact ⟨front, t, back ++ us, by simp, hstart, hname, hfront⟩
  · obtain ⟨front, t, back, rfl, hstart, hname, hfront⟩ := h' path span kind hmem
    exact ⟨ts ++ front, t, back, by simp, hstart, hname, hbehind front t back rfl hname hfront⟩

/-- Behind tokens that do not end with a dot the first reference may start at once. -/
theorem append_noDot (h : Starts NoDot ts found) (h' : Starts NoDot us events)
    (hend : NoDot ts) : Starts NoDot (ts ++ us) (found ++ events) :=
  h.append h' fun _ _ _ _ _ hfront ↦ hend.append hfront

/-- In front of references more tokens can stand that have none. -/
theorem behind (h : Starts NoDot us events) (hend : NoDot ts) : Starts NoDot (ts ++ us) events :=
  (of_silent nofun : Starts NoDot ts []).append_noDot h hend

/-- Where more stands behind what is in brackets. -/
theorem bracket {vs : List Token} (h : Starts NoDot us found) (hopen : NoDot ts) (hend : NoDot us)
    (h' : Starts NoDot vs events) : Starts NoDot (ts ++ us ++ vs) (found ++ events) :=
  (h.behind hopen).append_noDot h' (hopen.append hend)

end Starts

/-- The reference of a path starts with its first word. -/
theorem starts_path {kind : ReferenceKind} {words : List Token} (ht : t.IsName) :
    Starts NoDot (t :: us) [t.reference words kind] := by
  intro path span kind hmem
  obtain ⟨rfl, rfl, rfl⟩ := Event.reference.inj (List.mem_singleton.1 hmem)
  exact ⟨[], t, us, rfl, rfl, ht, .nil⟩

/-- No reference of a body starts behind a dot. What a rule adds in front of a body ends with a dot
only if no word is behind it. -/
theorem Body.starts {closer previous : String} {mode : BodyMode} {pending : List Event}
    (h : Body closer mode previous pending ts roles events) (hpending : Silent pending) :
    Starts NoDot ts events := by
  have hone {t : Token} (ht : ¬t.IsSymbol ".") : NoDot [t] := .concat [] ht
  have hword {t x : Token} (hx : x.kind = .word) : NoDot [t, x] := .of_word [t] hx
  have hsymbol {s : String} {t : Token} (ht : t.IsSymbol s) (hs : s ≠ ".") : NoDot [t] :=
    .of_symbol [] ht hs
  induction h with
  | close => exact .of_silent hpending
  | statement ht _ _ ih =>
    exact (Starts.of_silent hpending).append_noDot (ih nofun) (hsymbol ht (by decide))
  | block ht _ hinside _ ihinside ih =>
    exact ((ihinside nofun).bracket (hsymbol ht (by decide)) (hinside.ends.noDot (by decide))
      (ih hpending)).of_events fun _ _ _ hmem ↦ by simpa using hmem
  | group ht hlast _ hinside _ ihinside ih =>
    have hdots : ∀ p ∈ groups, p.1 ≠ "." ∧ p.2 ≠ "." := by decide
    exact (ihinside nofun).bracket (hone fun hdot ↦ (hdots _ hlast).1 hdot.2)
      (hinside.ends.noDot (hdots _ hlast).2) (ih hpending)
  | «attribute» _ _ hwhich _ _ ih => exact (ih hpending).behind (hword hwhich)
  | @arguments _ _ _ _ _ _ t which paren us _ _ _ ht _ hwhich hparen hinside _ ihinside ih =>
    have hfront : NoDot [t, which, paren] := .of_symbol [t, which] hparen (by decide)
    have hargs : Starts NoDot (t :: which :: paren :: us) _ := (ihinside nofun).behind hfront
    refine Starts.append_noDot ?_ (ih hpending) (hfront.append (hinside.ends.noDot (by decide)))
    split
    · exact hargs
    · exact .of_silent nofun
  | member _ _ hx _ ih => exact (ih hpending).behind (hword hx)
  | @dot _ _ _ _ _ t vs _ _ _ hhead _ ih =>
    -- what is behind the dot is no word, so that no reference starts there
    refine (Starts.of_silent nofun : Starts NoDot [t] []).append (ih hpending) ?_
    intro front x back heq hx hfront
    cases front with
    | nil => exact absurd hx.1 (hhead x (by rw [heq]; rfl))
    | cons u front =>
      intro y hy
      exact hfront y (by rwa [List.singleton_append, List.getLast?_cons_cons] at hy)
  | @loop _ _ _ _ _ _ _ t paren brace us vs ws _ _ _ ht hparen hheader hbrace hinside _ ihheader
      ihinside ih =>
    have hblock := (ihinside nofun).bracket (hsymbol hbrace (by decide))
      (hinside.ends.noDot (by decide)) (ih hpending)
    exact ((ihheader nofun).bracket (.of_symbol [t] hparen (by decide))
      (hheader.ends.noDot (by decide)) hblock).of_events fun _ _ _ hmem ↦ by simpa using hmem
  | declare _ _ hx _ ih => exact (ih hpending.declare).behind (hword hx.1)
  | @template _ _ _ _ _ _ t _ _ _ _ _ _ _ _ hbracket hinside hx _ _ ih =>
    have hfront := (NoDot.of_symbol [t] hbracket (by decide)).append
      (hinside.ends.noDot (by decide))
    exact ((ih hpending.declare).behind (hone fun hdot ↦ hdot.not_word hx.1)).behind hfront
  | keyword ht _ _ _ _ ih => exact (ih hpending).behind (hone fun hdot ↦ hdot.not_word ht)
  | parameter ht _ _ ih =>
    exact ((ih hpending).behind (hone fun hdot ↦ hdot.not_word ht.1)).of_events fun _ _ _ hmem ↦ by
      simpa using hmem
  | reference ht _ hpath _ ih =>
    exact (starts_path ht).append_noDot (ih hpending)
      ((hone fun hdot ↦ hdot.not_word ht.1).append hpath.noDot)
  | other _ hother _ ih =>
    exact (ih hpending).behind (hone fun hdot ↦ hother hdot.1 (by simp [hdot.2, structural]))

/-! ### Declarations that are no structs -/

/-- Attributes are followed by no word that would belong to a dot in them. -/
theorem Attributes.starts (h : Attributes ts roles events) : Starts NoDot ts events ∧ NoDot ts := by
  induction h with
  | nil => exact ⟨.of_silent nofun, .nil⟩
  | @cons t which us vs _ _ inside events ht hwhich hargs _ ih =>
    have hfront : NoDot [t, which] := .of_word [t] hwhich
    have hstarts : Starts NoDot us inside ∧ NoDot us := by
      cases hargs with
      | none => exact ⟨.of_silent nofun, .nil⟩
      | some hparen hinside =>
        have hopen : NoDot [_] := .of_symbol [] hparen (by decide)
        refine ⟨?_, hopen.append (hinside.ends.noDot (by decide))⟩
        split
        · exact (hinside.starts nofun).behind hopen
        · exact .of_silent nofun
    exact ⟨(hstarts.1.append_noDot ih.1 hstarts.2).behind hfront,
      hfront.append (hstarts.2.append ih.2)⟩

/-- Apart from structs, a declaration consists of bodies behind words and symbols. -/
theorem Declaration.starts {kind : DeclKind} {name : Token}
    (h : Declaration kind name ts roles events)
    (hkind : kind ≠ .struct) : Starts NoDot ts events := by
  cases h with
  | @function word _ paren _ _ _ _ _ _ _ _ _ _ _ hparen hparams hresult hbody =>
    have hfront : NoDot [word, name, paren] := .of_symbol [word, name] hparen (by decide)
    have hrest := (hresult.starts nofun).append_noDot (hbody.starts nofun)
      (hresult.ends.noDot (by decide))
    exact (hparams.starts nofun).bracket hfront (hparams.ends.noDot (by decide)) hrest
  | struct => exact absurd rfl hkind
  | @value _ word _ _ _ _ _ _ hname h => exact (h.starts nofun).behind (.of_word [word] hname.1)
  | @template _ word bracket _ _ _ _ _ _ _ _ _ hbracket hinside hname h =>
    have hfront := (NoDot.of_symbol [word] hbracket (by decide)).append
      (hinside.ends.noDot (by decide))
    exact ((h.starts nofun).behind (.of_word [] hname.1)).behind hfront
  | @typeAlias word _ equals _ _ _ _ _ hequals h =>
    exact (h.starts nofun).behind (.of_symbol [word, name] hequals (by decide))

/-- Outside of structs no reference starts behind a dot. -/
theorem Marked.starts {kind : DeclKind} {name : Token} (h : Marked kind name ts roles events)
    (hkind : kind ≠ .struct) : Starts NoDot ts events := by
  obtain ⟨hmarks, h⟩ := h
  exact hmarks.starts.1.append_noDot (h.starts hkind) hmarks.starts.2

/-! ### Structs -/

/-- The tokens do not end with a dot, or no parenthesis is open behind them. -/
def Apart (ts : List Token) : Prop :=
  NoDot ts ∨ depth 0 ts = 0

/-- As long as all parentheses are closed, what is behind starts afresh. -/
theorem Starts.append_apart (h : Starts Apart ts found) (h' : Starts Apart us events)
    (hdepth : depth 0 ts = 0) : Starts Apart (ts ++ us) (found ++ events) := by
  refine h.append h' fun front t back heq ht hfront ↦ ?_
  rcases hfront with hdot | hzero
  · cases front with
    | nil => exact .inr (by rw [List.append_nil, hdepth])
    | cons u front =>
      refine .inl fun v hv ↦ hdot v ?_
      rwa [List.getLast?_append, List.getLast?_cons, Option.some_or, ← List.getLast?_cons] at hv
  · exact .inr (by rw [depth_append, hdepth, hzero])

/-- Outside of parentheses each name is in a reference, or what stands in front of it is as said.
References start there or where no dot is in front. -/
structure Shown (Hidden : List Token → Prop) (ts : List Token) (events : List Event) : Prop where
  depth_eq : depth 0 ts = 0
  starts : Starts Apart ts events
  used : ∀ front x back, ts = front ++ x :: back → x.IsName → depth 0 front = 0 →
    Hidden front ∨ Used ts events x

namespace Shown

variable {Hidden Hidden' : List Token → Prop}

theorem nil : Shown Hidden [] [] :=
  ⟨rfl, .of_silent nofun, fun front x back h ↦ absurd h (by simp)⟩

theorem mono (h : Shown Hidden ts events) (hhidden : ∀ us, Hidden us → Hidden' us) :
    Shown Hidden' ts events :=
  ⟨h.depth_eq, h.starts, fun front x back hsplit hx hdepth ↦
    (h.used front x back hsplit hx hdepth).imp_left (hhidden front)⟩

theorem append (h : Shown Hidden ts found) (h' : Shown Hidden us events)
    (hhidden : ∀ front, Hidden front → Hidden (ts ++ front)) :
    Shown Hidden (ts ++ us) (found ++ events) where
  depth_eq := by rw [depth_append, h.depth_eq, h'.depth_eq]
  starts := h.starts.append_apart h'.starts h.depth_eq
  used front x back hsplit hx hdepth := by
    rcases split_append hsplit with ⟨rest, hts, -⟩ | ⟨inside, rfl, hus⟩
    · exact (h.used front x rest hts hx hdepth).imp_right fun hused ↦
        hused.mono (List.prefix_append _ _).isInfix fun _ _ _ ↦ List.mem_append_left _
    · rw [depth_append, h.depth_eq] at hdepth
      exact (h'.used inside x back hus hx hdepth).imp (hhidden inside) fun hused ↦
        hused.mono (List.suffix_append _ _).isInfix fun _ _ _ ↦ List.mem_append_right _

/-- A token alone is hidden where what stands in front of nothing is. -/
theorem token (hopen : ¬t.IsSymbol "(") (ht : t.IsName → Hidden []) : Shown Hidden [t] [] where
  depth_eq := by
    by_cases hclose : t.IsSymbol ")"
    · rw [depth_close hclose, Nat.zero_sub, depth_nil]
    · exact depth_plain (by rintro (h | h) <;> contradiction) 0 []
  starts := .of_silent nofun
  used front x back hsplit hx _ := by
    rcases List.cons_eq_append_iff.1 hsplit with ⟨rfl, hcons⟩ | ⟨rest, -, hnil⟩
    · exact .inl (ht ((List.cons.inj hcons).1 ▸ hx))
    · simp at hnil

theorem symbol {s : String} (ht : t.IsSymbol s) (hs : s ≠ "(") : Shown Hidden [t] [] :=
  token (ht.not_isSymbol hs) fun h ↦ absurd h ht.not_isName

theorem word (ht : t.kind = .word) : Shown NoDot [t] [] :=
  token (fun h ↦ h.not_word ht) fun _ ↦ .nil

/-- In front of what is shown more tokens can stand that leave nothing. -/
theorem behind (h : Shown NoDot us events) (h' : Shown NoDot ts []) (hend : NoDot ts) :
    Shown NoDot (ts ++ us) events :=
  h'.append h fun _ ↦ hend.append

theorem silent (h : Shown Hidden ts events) (hsilent : Silent found) :
    Shown Hidden ts (events ++ found) where
  depth_eq := h.depth_eq
  starts := h.starts.of_events fun path span kind hmem ↦
    (List.mem_append.1 hmem).resolve_right (hsilent path span kind)
  used front x back hsplit hx hdepth := (h.used front x back hsplit hx hdepth).imp_right fun hused ↦
    hused.mono List.infix_rfl fun _ _ _ ↦ List.mem_append_left _

/-- What is in parentheses is not shown. -/
theorem parens (ht : t.IsSymbol "(") (h : Ends ")" ts) (hstarts : Starts NoDot ts events) :
    Shown Hidden (t :: ts) events where
  depth_eq := (h.parens ht).depth_eq 0
  starts := (hstarts.behind (NoDot.of_symbol [] ht (by decide))).mono fun _ ↦ .inl
  used _ _ _ hsplit hx hdepth := absurd hdepth (h.lt_depth ht hsplit hx 0).ne'

theorem path {called : Bool} {kind : ReferenceKind} {vs words : List Token} (ht : t.IsName)
    (h : Path called us words vs) : Shown Hidden (t :: us) [t.reference words kind] where
  depth_eq := (Even.cons (Token.not_isParenthesis_of_word ht.1) h.even).depth_eq 0
  starts := (starts_path ht).mono fun _ ↦ .inl
  used _ _ _ hsplit _ _ := .inr ⟨List.infix_rfl, h, List.mem_singleton_self _,
    hsplit ▸ List.mem_append_right _ List.mem_cons_self⟩

end Shown

/-- In the type of a member no name is hidden, whether a dot stands in front of it or not. -/
theorem MemberType.shown {depth : Nat} (h : MemberType depth ts roles events) :
    Shown (fun _ ↦ False) ts events := by
  induction h with
  | nil => exact .nil
  | group ht hinside _ ih =>
    exact (Shown.parens ht hinside.ends (hinside.starts nofun)).append ih fun _ ↦ id
  | reference ht hpath _ ih => exact (Shown.path ht hpath).append ih fun _ ↦ id
  | other hparen hname _ _ ih =>
    exact (Shown.token hparen hname).append ih fun _ ↦ id

/-- The words of attributes are in parentheses, or stand directly behind an at sign. -/
theorem Attributes.shown (h : Attributes ts roles events) : Shown NoDot ts events := by
  induction h with
  | nil => exact .nil
  | @cons t which us vs _ _ inside events ht hwhich hargs hrest ih =>
    have hmark : NoDot [t] := .of_symbol [] ht (by decide)
    have hfront : Shown NoDot [t, which] [] :=
      (Shown.word hwhich).behind (.symbol ht (by decide)) hmark
    refine Shown.behind ?_ hfront (.of_word [t] hwhich)
    cases hargs with
    | none => exact ih
    | some hparen hinside =>
      have hopen : NoDot [_] := .of_symbol [] hparen (by decide)
      refine Shown.append (.parens hparen hinside.ends ?_) ih fun _ ↦
        (hopen.append (hinside.ends.noDot (by decide))).append
      split
      · exact hinside.starts nofun
      · exact .of_silent nofun

/-- The words of a member in front of its type. -/
theorem MemberName.shown (h : MemberName ts roles events) : Shown NoDot ts events ∧ NoDot ts := by
  obtain ⟨hmarks, hx, hcolon⟩ := h
  have hname : Shown NoDot [_, _] [] :=
    (Shown.symbol hcolon (by decide)).behind (.word hx) (.of_word [] hx)
  have hall := hmarks.shown.append hname fun _ ↦ hmarks.starts.2.append
  rw [List.append_nil] at hall
  exact ⟨hall.silent nofun, hmarks.starts.2.append (.of_symbol [_] hcolon (by decide))⟩

/-- The symbol that ends the type of a member hides nothing. -/
theorem MemberType.shown_concat {s : String} (h : MemberType 0 ts roles events) (ht : t.IsSymbol s)
    (hs : s ≠ "(") : Shown NoDot (ts ++ [t]) events := by
  have hall := h.shown.append (.symbol ht hs) fun _ ↦ id
  rw [List.append_nil] at hall
  exact hall.mono fun _ ↦ False.elim

/-- Between members stand commas. -/
theorem Members.shown (h : Members ts roles events) : Shown NoDot ts events := by
  induction h with
  | close ht => exact .symbol ht (by decide)
  | @member us vs ws comma _ _ _ front type events hfront htype hcomma _ ih =>
    have hrest := (htype.shown_concat hcomma (by decide)).append ih fun _ ↦
      (NoDot.of_symbol vs hcomma (by decide)).append
    rw [List.append_assoc] at hrest
    exact hfront.shown.1.append hrest fun _ ↦ hfront.shown.2.append
  | last hfront htype ht =>
    exact hfront.shown.1.append (htype.shown_concat ht (by decide)) fun _ ↦ hfront.shown.2.append

/-- In a struct all names behind dots that are not in parentheses are in references. -/
theorem Marked.shown {name : Token} (h : Marked .struct name ts roles events) :
    Shown NoDot ts events := by
  obtain ⟨hmarks, h⟩ := h
  have hvalue : ∀ p ∈ valueWords, p.2 ≠ .struct := by decide
  refine hmarks.shown.append ?_ fun _ ↦ hmarks.starts.2.append
  cases h with
  | struct hword hname hbrace h =>
    exact ((h.shown.behind (.symbol hbrace (by decide)) (.of_symbol [] hbrace (by decide))).behind
      (.word hname.1) (.of_word [] hname.1)).behind (.word hword.1) (.of_word [] hword.1)
  | value _ hkind => exact absurd rfl (hvalue _ hkind)
  | template _ hkind => exact absurd rfl (hvalue _ hkind)

end Reading

end ShaderLink
