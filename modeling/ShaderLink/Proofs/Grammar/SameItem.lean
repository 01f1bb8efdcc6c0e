import ShaderLink.Proofs.Grammar.SameBody

/-!
# Declarations and statements without their layout

Like the events of bodies, the items of a text depend on its lexemes alone, up to the spans they are
given (`Item.unplaced`), where no lexeme starts an import or another directive. The rules for those
read the rest of a line in its own way, to which layout matters; here they are refused.
-/

namespace ShaderLink

open Lexeme

/-- A declaration without its places. -/
def DeclItem.unplaced (d : DeclItem) : DeclItem where
  kind := d.kind
  name := d.name.unplaced
  span := default
  exportSpan := d.exportSpan.map fun _ ↦ default
  events := d.events.map Event.unplaced

/-- An item without its places. -/
def Item.unplaced : Item → Item
  | module path _ => module path default
  | importing tree dialect _ => importing tree dialect default
  | exporting params _ => exporting params default
  | decl d => decl d.unplaced
  | text _ => text default
  | stray token => stray token.unplaced

/-- The lexeme starts neither an import nor another directive. -/
theorem Lexeme.IsCode.not_is {x : Lexeme} {rest : Text} {s : String} (h : x.IsCode)
    (hx : x.Heads rest) (hs : s ∈ ["module", "#module", "import", "#import", "#export"]) :
    ¬x.Is s := by
  rintro ⟨htext, -⟩
  have hdirective {w : String} (hw : Text.StartsWord w.toList) (heq : s.toList = '#' :: w.toList) :
      False := by
    refine h.1 (hx.kind_eq_directive (w := w.toList) ?_ hw)
    rw [← heq, ← htext, String.toList_ofList]
  have hword (hmem : s ∈ ["module", "import"]) : False := h.2 (htext ▸ hmem)
  simp only [List.mem_cons, List.not_mem_nil, or_false] at hs
  rcases hs with rfl | rfl | rfl | rfl | rfl
  · exact hword (by decide)
  · exact hdirective (w := "module") (by decide) rfl
  · exact hword (by decide)
  · exact hdirective (w := "import") (by decide) rfl
  · exact hdirective (w := "export") (by decide) rfl

namespace Parser

/-- Where code is left, no import and no other directive is next. -/
theorem lacks_of_leaves {c : Cursor} {n : Nat} {xs : List Lexeme} {ws : List String}
    (h : c.Leaves n xs) (hws : ws ⊆ ["module", "#module", "import", "#import", "#export"]) :
    Lacks n c ws := by
  cases xs with
  | nil => exact lacks_of_ends h.ends ws h.room
  | cons x xs =>
    obtain ⟨c', hnext, -⟩ := h.uncons
    have hcode := h.code x List.mem_cons_self
    exact fun s hs ↦ .sign_refused hnext h.room (hcode.not_is hnext.heads (hws hs))

/-- Kind, name and events are the same, up to places. -/
def SameDeclared (a b : DeclKind × Token × List Event) : Prop :=
  a.1 = b.1 ∧ a.2.1.Same b.2.1 ∧ SameEvents a.2.2 b.2.2

namespace Agree

variable {n m : Nat} {xs : List Lexeme}

/-! ### Declarations -/

/-- Attributes, name, parameters, result and block of a function are read alike. -/
theorem functionDecl : Agree n m xs Parser.functionDecl Parser.functionDecl
    (Behind xs SameDeclared) := by
  refine (sign "fn").bind fun _ _ ys ⟨hless, _⟩ ↦ ?_
  refine (name.commit _).bind fun declared declared' zs ⟨hless₁, hname⟩ ↦ ?_
  refine ((sign "(").commit _).bind fun _ _ us ⟨hless₂, _⟩ ↦ ?_
  refine (bodyUntil ")" .params).bind fun params params' vs ⟨hle₁, hparams⟩ ↦ ?_
  refine (bodyUntil "\x7b" .code).bind fun result result' ws ⟨hle₂, hresult⟩ ↦ ?_
  refine (bodyUntil "\x7d" .code).bind fun body body' ts ⟨hle₃, hbody⟩ ↦ ?_
  exact .pure ⟨by omega, rfl, hname, hparams.append (hresult.append hbody)⟩

/-- The type of a member is read alike. At the brace that closes the struct both runs go back. -/
theorem memberTypeWithin {i j depth : Nat} (hi : xs.length < i) (hj : xs.length < j) :
    Agree n m xs (Parser.memberTypeWithin i depth) (Parser.memberTypeWithin j depth)
      (After xs SameEvents) := by
  -- each round reads a token, so that the rounds of both readers suffice
  refine of_rounds (motive := fun xs i j ↦ ∀ depth, Agree n m xs (Parser.memberTypeWithin i depth)
    (Parser.memberTypeWithin j depth) (After xs SameEvents)) ?_ hi hj depth
  intro xs i j hfewer depth
  refine here.bind fun before before' ys ⟨hys, hbefore, hbefore'⟩ ↦ ?_
  subst hys
  refine (anyToken.commit _).bind fun t t' ys ⟨hless, hsame⟩ ↦ ?_
  obtain ⟨kind, s, span⟩ := t
  obtain ⟨kind', s', span'⟩ := t'
  obtain ⟨rfl, rfl, -⟩ := Token.mk.inj hsame
  have hmore {zs : List Lexeme} (depth : Nat) (hle : zs.length ≤ ys.length) :
      Agree n m zs (Parser.memberTypeWithin i depth) (Parser.memberTypeWithin j depth)
        (After xs SameEvents) :=
    (hfewer (hle.trans_lt hless) depth).widen (hle.trans hless.le)
  dsimp only
  split
  · exact hmore _ (Nat.le_refl _)
  · exact hmore _ (Nat.le_refl _)
  · exact .ite (fun _ ↦ .pure ⟨hless.le, .nil⟩) fun _ ↦ hmore _ (Nat.le_refl _)
  · refine .ite (fun _ ↦ ?_) fun _ ↦ hmore _ (Nat.le_refl _)
    refine (goBack hbefore hbefore').bind fun _ _ zs hzs ↦ ?_
    subst hzs
    exact .pure ⟨Nat.le_refl _, .nil⟩
  · refine (bodyUntil ")" .code).bind fun args args' zs ⟨hle, hargs⟩ ↦ ?_
    exact (hmore _ hle).bind fun rest rest' us ⟨hle', hrest⟩ ↦ .pure ⟨hle', hargs.append hrest⟩
  · refine .ite (fun _ ↦ hmore _ (Nat.le_refl _)) fun _ ↦ ?_
    refine (referencePath hsame).bind fun a b zs ⟨hle, hpath, _⟩ ↦ ?_
    refine (hmore _ hle).bind fun rest rest' us ⟨hle', hrest⟩ ↦ .pure ⟨hle', .cons ?_ hrest⟩
    show Event.reference a.1 default .type = .reference b.1 default .type
    rw [hpath]
  · exact hmore _ (Nat.le_refl _)

/-- Members of a struct are read alike, however many rounds each loop may take. -/
theorem membersWithin {i j : Nat} (hi : xs.length < i) (hj : xs.length < j) :
    Agree n m xs (Parser.membersWithin i) (Parser.membersWithin j) (After xs SameEvents) := by
  refine of_rounds (motive := fun xs i j ↦ Agree n m xs (Parser.membersWithin i)
    (Parser.membersWithin j) (After xs SameEvents)) ?_ hi hj
  intro xs i j hfewer
  refine (sign "\x7d").optional.bind fun o o' ys ho ↦ ?_
  rcases ho with ⟨a, b, rfl, rfl, hless, -⟩ | ⟨rfl, rfl, rfl⟩
  · exact .pure ⟨hless.le, .nil⟩
  · refine attributes.bind fun marks marks' ys ⟨hle, hmarks⟩ ↦ ?_
    refine (word.commit _).bind fun member member' zs ⟨hless, hmember⟩ ↦ ?_
    refine ((sign ":").commit _).bind fun _ _ us ⟨hless', _⟩ ↦ ?_
    refine rounds.bind fun k l vs ⟨hvs, hk, hl⟩ ↦ ?_
    subst hvs
    refine (memberTypeWithin hk hl).bind fun type type' ws ⟨hle', htype⟩ ↦ ?_
    have hfew : ws.length < xs.length :=
      ((hle'.trans hless'.le).trans_lt hless).trans_le hle
    refine ((hfewer hfew).widen hfew.le).bind fun rest rest' ts ⟨hts, hrest⟩ ↦ ?_
    refine .pure ⟨hts, hmarks.append (.cons ?_ (htype.append hrest))⟩
    show Event.member member.text default = .member member'.text default
    rw [hmember.text_eq]

/-- Structs are read alike. -/
theorem structDecl : Agree n m xs Parser.structDecl Parser.structDecl
    (Behind xs SameDeclared) := by
  refine (sign "struct").bind fun _ _ ys ⟨hless, _⟩ ↦ ?_
  refine (name.commit _).bind fun declared declared' zs ⟨hless₁, hname⟩ ↦ ?_
  refine ((sign "\x7b").commit _).bind fun _ _ us ⟨hless₂, _⟩ ↦ ?_
  refine rounds.bind fun i j vs ⟨hvs, hi, hj⟩ ↦ ?_
  subst hvs
  refine (membersWithin hi hj).bind fun events events' ws ⟨hle, hevents⟩ ↦ ?_
  exact .pure ⟨by omega, rfl, hname, hevents⟩

theorem valueDecl : Agree n m xs Parser.valueDecl Parser.valueDecl
    (Behind xs SameDeclared) := by
  have hkind (s : String) (kind : DeclKind) :
      Agree n m xs ((fun _ ↦ kind) <$> Parser.sign s) ((fun _ ↦ kind) <$> Parser.sign s)
        (Behind xs Eq) :=
    (sign s).map fun ⟨hless, _⟩ ↦ ⟨hless, rfl⟩
  refine (firstOf (.cons (hkind "var" .var) (.cons (hkind "const" .const)
    (.cons (hkind "override" .override) .nil)))).bind fun kind _ ys ⟨hless, heq⟩ ↦ ?_
  subst heq
  refine (template fun _ ↦ bodyUntil ">" .code).bind fun _ _ zs ⟨hle, _⟩ ↦ ?_
  refine (name.commit _).bind fun declared declared' us ⟨hless₁, hname⟩ ↦ ?_
  refine (bodyUntil ";" .code).bind fun events events' vs ⟨hle₁, hevents⟩ ↦ ?_
  exact .pure ⟨by omega, rfl, hname, hevents⟩

theorem aliasDecl : Agree n m xs Parser.aliasDecl Parser.aliasDecl (Behind xs SameDeclared) := by
  refine (sign "alias").bind fun _ _ ys ⟨hless, _⟩ ↦ ?_
  refine (name.commit _).bind fun declared declared' zs ⟨hless₁, hname⟩ ↦ ?_
  refine ((sign "=").commit _).bind fun _ _ us ⟨hless₂, _⟩ ↦ ?_
  refine (bodyUntil ";" .code).bind fun events events' vs ⟨hle, hevents⟩ ↦ ?_
  exact .pure ⟨by omega, rfl, hname, hevents⟩

/-- So is every kind of declaration, since both readers try the kinds in the same order. -/
theorem unmarkedDecl : Agree n m xs Parser.unmarkedDecl Parser.unmarkedDecl
    (Behind xs SameDeclared) := by
  refine attributes.bind fun marks marks' ys ⟨hle, hmarks⟩ ↦ ?_
  refine (firstOf (.cons functionDecl (.cons structDecl (.cons valueDecl
    (.cons aliasDecl .nil))))).bind fun a b zs ⟨hless, hkind, hname, hevents⟩ ↦ ?_
  exact .pure ⟨by omega, hkind, hname, hmarks.append hevents⟩

/-! ### Items -/

/-- The relation of items in two runs. -/
def SameItem (a b : Item) : Prop :=
  a.unplaced = b.unplaced

/-- An item is the same up to places if its mark and its declaration are. -/
theorem declItem : Agree n m xs Parser.declItem Parser.declItem (Behind xs SameItem) := by
  refine (sign "export").spanned.optional.bind fun mark mark' ys hmark ↦ ?_
  obtain ⟨hle, hmark⟩ : ys.length ≤ xs.length ∧
      (mark.map Prod.snd).map (fun _ ↦ (default : Span)) =
        (mark'.map Prod.snd).map (fun _ ↦ (default : Span)) ∧ mark.isSome = mark'.isSome := by
    rcases hmark with ⟨a, b, rfl, rfl, hless, -⟩ | ⟨rfl, rfl, rfl⟩
    · exact ⟨hless.le, rfl, rfl⟩
    · exact ⟨Nat.le_refl _, rfl, rfl⟩
  have hdecl {zs : List Lexeme} (a b : (DeclKind × Token × List Event) × Span)
      (h : Behind ys SameDeclared a.1 b.1 zs) :
      Behind xs SameItem (.decl ⟨a.1.1, a.1.2.1, a.2, mark.map Prod.snd, a.1.2.2⟩)
        (.decl ⟨b.1.1, b.1.2.1, b.2, mark'.map Prod.snd, b.1.2.2⟩) zs := by
    obtain ⟨hless, hkind, hname, hevents⟩ := h
    refine ⟨by omega, ?_⟩
    show Item.decl ⟨a.1.1, a.1.2.1.unplaced, default, _, a.1.2.2.map Event.unplaced⟩ =
      .decl ⟨b.1.1, b.1.2.1.unplaced, default, _, b.1.2.2.map Event.unplaced⟩
    rw [hkind, hname, hevents, hmark.1]
  dsimp only
  rw [hmark.2]
  exact .ite (fun _ ↦ unmarkedDecl.spanned.insist.bind fun a b zs h ↦ .pure (hdecl a b h))
    fun _ ↦ unmarkedDecl.spanned.bind fun a b zs h ↦ .pure (hdecl a b h)

theorem textItem : Agree n m xs Parser.textItem Parser.textItem (Behind xs SameItem) := by
  have hword : Agree n m xs
      (Parser.firstOf [Parser.sign "enable", Parser.sign "requires", Parser.sign "diagnostic",
        Parser.sign "const_assert"])
      (Parser.firstOf [Parser.sign "enable", Parser.sign "requires", Parser.sign "diagnostic",
        Parser.sign "const_assert"]) (Behind xs Token.Same) :=
    firstOf (.cons (sign _) (.cons (sign _) (.cons (sign _) (.cons (sign _) .nil))))
  have hstatement : Agree n m xs
      (do
        let _ ← Parser.firstOf [Parser.sign "enable", Parser.sign "requires",
          Parser.sign "diagnostic", Parser.sign "const_assert"]
        let _ ← Parser.bodyUntil ";" .code)
      (do
        let _ ← Parser.firstOf [Parser.sign "enable", Parser.sign "requires",
          Parser.sign "diagnostic", Parser.sign "const_assert"]
        let _ ← Parser.bodyUntil ";" .code) (Behind xs Eq) := by
    refine hword.bind fun _ _ ys ⟨hless, _⟩ ↦ ?_
    exact (bodyUntil ";" .code).bind fun _ _ zs ⟨hle, _⟩ ↦ .pure ⟨by omega, rfl⟩
  have hsemicolon : Agree n m xs (do let _ ← Parser.sign ";") (do let _ ← Parser.sign ";")
      (Behind xs Eq) :=
    (sign ";").bind fun _ _ ys ⟨hless, _⟩ ↦ .pure ⟨hless, rfl⟩
  refine (firstOf (.cons hsemicolon (.cons hstatement .nil))).spanned.bind
    fun a b ys ⟨hless, _⟩ ↦ .pure ⟨hless, ?_⟩
  rfl

theorem strayItem : Agree n m xs Parser.strayItem Parser.strayItem (Behind xs SameItem) :=
  anyToken.map fun ⟨hless, h⟩ ↦ ⟨hless, congrArg Item.stray h⟩

/-- Every kind of item is read alike. -/
theorem item : Agree n m xs Parser.item Parser.item (Behind xs SameItem) := by
  have hrefused {p : Parser Item} {ws : List String}
      (hws : ws ⊆ ["module", "#module", "import", "#import", "#export"])
      (h : ∀ {c c₁ k}, c.Skips c₁ → Lacks k c₁ ws → c.rest.length < k → p.Meets k c .refused) :
      Agree n m xs p p (Behind xs SameItem) := by
    have hmeets {k : Nat} {c : Cursor} (hc : c.Leaves k xs) : p.Meets k c .refused := by
      obtain ⟨c₁, hskips, hc₁⟩ := hc.exists_skips
      exact h hskips (lacks_of_leaves hc₁ hws) hc.room
    exact of_refused hmeets hmeets
  exact firstOf (.cons (hrefused (by decide) Meets.moduleItem_refused)
    (.cons (hrefused (by decide) Meets.importItem_refused)
    (.cons (hrefused (by decide) Meets.exportItem_refused)
    (.cons textItem (.cons declItem (.cons strayItem .nil))))))

/-- Two runs on the same lexemes read the same items, up to their places, or fail alike. -/
theorem items : Agree n m xs Parser.items Parser.items
    fun items items' _ ↦ items.map Item.unplaced = items'.map Item.unplaced := by
  refine (many fun _ ↦ item).bind fun items items' ys ⟨_, hall⟩ ↦ ?_
  have hfinished : Agree n m ys (Parser.finished .shader) (Parser.finished .shader)
      fun _ _ zs ↦ ys = zs :=
    absent (token (R := fun _ _ _ ↦ True) fun _ _ _ _ _ ↦ trivial)
  exact hfinished.bind fun _ _ zs _ ↦ .pure (map_eq_of_forall₂ hall)

end Agree

end Parser

end ShaderLink
