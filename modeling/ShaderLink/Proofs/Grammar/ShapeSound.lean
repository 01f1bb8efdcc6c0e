import ShaderLink.Proofs.Grammar.CodeSound

/-!
# Declarations are read as declarations

All that the rules for declarations read is in the language of declarations, whatever names are put
in the place of the name that is declared and of the references
(`Parser.Comes.covers_unmarkedDecl`).
-/

namespace ShaderLink

open Lexeme ShaderLink.Parser

namespace Parser

theorem Yields.covers_keyword {c c' : Cursor} {token : Token} {s : String} {ws : List String}
    (h : (sign s).Yields c token c') (hs : Text.StartsWord s.toList) (hmem : s ∈ ws) :
    c.Covers (keywordOf ws) [] c' :=
  (Cursor.Covers.next (h.next_keyword hs)).mono (fun _ hts ↦ ⟨s, hmem, Eq.symm hts⟩) (.refl _)

end Parser

namespace Run

variable {n depth : Nat} {c c' : Cursor} {events : List Event} {kind : DeclKind} {declared : Token}

/-! ### Attributes -/

theorem Arguments.covers {which : String} (h : Run.Arguments n which c events c')
    (hc : c.rest.length < n) : c.Covers arguments (childSpans events) c' := by
  cases h with
  | none => exact covers_no_arguments c
  | some hparen hinside =>
    have hc₁ := (hparen.covers_symbol (by decide)).length_le.trans_lt hc
    have hinside := hinside.covers (by decide) (List.forall_mem_nil _) hc₁
    exact (covers_arguments hparen hinside).mono (fun _ hts ↦ hts) (childSpans_ite_sublist _ _)

theorem Attributes.covers (h : Run.Attributes n c events c') (hc : c.rest.length < n) :
    c.Covers marks (childSpans events) c' := by
  induction h with
  | nil c =>
    exact (Cursor.Covers.refl c).mono (fun ts hts ↦ by rw [hts]; exact Marks.nil) (.refl _)
  | cons ht hwhich hargs _ ih =>
    have hfront := (ht.covers_symbol (by decide)).trans hwhich.covers_word
    have hc₂ := hfront.length_le.trans_lt hc
    have hargs := hargs.covers hc₂
    have hrest := ih (hargs.length_le.trans_lt hc₂)
    refine ((hfront.trans hargs).trans hrest).mono mul_marks ?_
    rw [childSpans_append]
    exact (List.sublist_append_right _ _).append (.refl _)

/-! ### Structs -/

theorem MemberType.covers (h : Run.MemberType n depth c events c') (hc : c.rest.length < n) :
    c.Covers (memberTypes depth) (childSpans events) c' := by
  induction h with
  | nil c =>
    refine (Cursor.Covers.refl c).mono (fun ts hts ↦ ?_) (.refl _)
    rw [hts]
    exact ShaderLink.MemberType.nil
  | opening ht hsymbol _ ih =>
    have hread := ht.covers_isSymbol hsymbol
    have hrest := ih (hread.length_le.trans_lt hc)
    exact (hread.trans hrest).mono (singleton_mul_memberTypes fun _ ↦ .opening) (.refl _)
  | closing ht hsymbol _ ih =>
    have hread := ht.covers_isSymbol hsymbol
    have hrest := ih (hread.length_le.trans_lt hc)
    exact (hread.trans hrest).mono (singleton_mul_memberTypes fun _ ↦ .closing) (.refl _)
  | inner ht hsymbol hs hdepth _ ih =>
    have hread := ht.covers_isSymbol hsymbol
    have hrest := ih (hread.length_le.trans_lt hc)
    exact (hread.trans hrest).mono (singleton_mul_memberTypes fun _ ↦ .inner hs hdepth) (.refl _)
  | group ht hsymbol hinside _ ih =>
    have hread := ht.covers_isSymbol hsymbol
    have hc₁ := hread.length_le.trans_lt hc
    have hinside := hinside.covers (by decide) (List.forall_mem_nil _) hc₁
    have hrest := ih (hinside.length_le.trans_lt hc₁)
    rw [childSpans_append]
    exact ((hread.trans hinside).trans hrest).mono bracketed_mul_memberTypes (.refl _)
  | reference ht hname hpath _ ih =>
    have hc₁ := ht.next_token.length_le.trans_lt hc
    have hpath := (hpath.covers_path ht hname.1 hname.2 hc₁).1
    have hrest := ih (hpath.length_le.trans_lt hc)
    exact (hpath.trans hrest).mono
      (mul_memberTypes_le fun _ hts _ hxs ↦ .path hts hxs) (.refl _)
  | other ht _ hsymbol _ ih =>
    have hread := Cursor.Covers.next ht.next_token
    have hrest := ih (hread.length_le.trans_lt hc)
    refine (hread.trans hrest).mono (singleton_mul_memberTypes fun _ ↦ .other fun hkind ↦ ?_)
      (.refl _)
    rw [Token.ofList_text_lexeme]
    exact hsymbol hkind

/-- The members are read up to the brace that closes the struct. -/
theorem Members.covers (h : Run.Members n c events c') (hc : c.rest.length < n) :
    c.Covers members (childSpans events) c' := by
  induction h with
  | close hbrace =>
    refine (hbrace.covers_symbol (by decide)).mono (fun ts hts ↦ ?_) (.refl _)
    obtain rfl : ts = _ := hts
    exact ShaderLink.Members.close
  | member _ hmarks hx hcolon htype hend h ih =>
    have hmarks := hmarks.covers hc
    have hfront := hmarks.trans (hx.covers_word.trans (hcolon.covers_symbol (by decide)))
    have hc₃ := hfront.length_le.trans_lt hc
    have htype := htype.covers hc₃
    have hc₄ := htype.length_le.trans_lt hc₃
    cases hend with
    | comma ht hsymbol =>
      have htype := htype.trans (ht.covers_isSymbol hsymbol)
      have hrest := ih (htype.length_le.trans_lt hc₃)
      refine (hfront.trans (htype.trans hrest)).mono mul_members ?_
      simp [Event.child?]
    | brace ht hsymbol =>
      obtain ⟨rfl, brace, hbrace⟩ := h.eq_nil_of_brace hc₄ ht hsymbol
      refine (hfront.trans (htype.trans (hbrace.covers_symbol (by decide)))).mono mul_close ?_
      simp [Event.child?]

/-! ### Functions, structs, variables, aliases -/

theorem Declaration.covers (h : Run.Declaration n kind declared c events c')
    (hc : c.rest.length < n) :
    c.Covers (functions + structs + values + aliases) (declared.span :: childSpans events) c' := by
  cases h with
  | function hword hname hparen hparams hresult h =>
    have hword := hword.covers_keyword (by decide) (List.mem_singleton_self "fn")
    have hfront := hword.trans hname.covers_name
    have hparen := hparen.covers_symbol (by decide)
    have hc₃ := hparen.length_le.trans_lt (hfront.length_le.trans_lt hc)
    have hparams := hparams.covers (by decide) (List.forall_mem_nil _) hc₃
    have hc₄ := hparams.length_le.trans_lt hc₃
    have hresult := hresult.covers (by decide) (List.forall_mem_nil _) hc₄
    have hc₅ := hresult.length_le.trans_lt hc₄
    have hbody := h.covers (by decide) (List.forall_mem_nil _) hc₅
    refine (hfront.trans (((hparen.trans hparams).trans hresult).trans hbody)).mono
      (fun _ hts ↦ .inl (.inl (.inl hts))) ?_
    simp
  | struct hword hname hbrace h =>
    have hword := hword.covers_keyword (by decide) (List.mem_singleton_self "struct")
    have hfront := hword.trans hname.covers_name
    have hbrace := hbrace.covers_symbol (by decide)
    have hmembers := h.covers (hbrace.length_le.trans_lt (hfront.length_le.trans_lt hc))
    exact (hfront.trans (hbrace.trans hmembers)).mono
      (fun _ hts ↦ .inl (.inl (.inr hts))) (.refl _)
  | value hkind hword hname h =>
    obtain ⟨hstarts, hmem⟩ := Reading.forall_mem_valueWords _ hkind
    have hword := hword.covers_keyword hstarts hmem
    have hfront := (hword.trans (covers_no_template _)).trans hname.covers_name
    have hbody := h.covers (by decide) (List.forall_mem_nil _) (hfront.length_le.trans_lt hc)
    exact (hfront.trans hbody).mono (fun _ hts ↦ .inl (.inr hts)) (.refl _)
  | template hkind hword hbracket hinside hname h =>
    obtain ⟨hstarts, hmem⟩ := Reading.forall_mem_valueWords _ hkind
    have hword := hword.covers_keyword hstarts hmem
    have hc₁ := hword.length_le.trans_lt hc
    have hc₂ := (hbracket.covers_symbol (by decide)).length_le.trans_lt hc₁
    have hinside := hinside.covers (by decide) (List.forall_mem_nil _) hc₂
    have hfront := (hword.trans (covers_template hbracket hinside)).trans hname.covers_name
    have hbody := h.covers (by decide) (List.forall_mem_nil _) (hfront.length_le.trans_lt hc)
    refine (hfront.trans hbody).mono (fun _ hts ↦ .inl (.inr hts)) ?_
    simp
  | typeAlias hword hname hequals h =>
    have hword := hword.covers_keyword (by decide) (List.mem_singleton_self "alias")
    have hfront := hword.trans hname.covers_name
    have hequals := hequals.covers_symbol (by decide)
    have hc₃ := hequals.length_le.trans_lt (hfront.length_le.trans_lt hc)
    have hbody := h.covers (by decide) (List.forall_mem_nil _) hc₃
    exact (hfront.trans (hequals.trans hbody)).mono (fun _ hts ↦ .inr hts) (.refl _)

end Run

/-- A declaration is read with its name behind what its attributes refer to. -/
theorem Parser.Comes.covers_unmarkedDecl {n : Nat} {c c' : Cursor} {events : List Event}
    {kind : DeclKind} {declared : Token} (hc : c.rest.length < n)
    (h : Parser.unmarkedDecl.Comes n c (.accepted (kind, declared, events) c')) :
    ∃ front back, childSpans events = front ++ back ∧
      c.Covers declarations (front ++ declared.span :: back) c' := by
  obtain ⟨hmarks, h⟩ := h.run_unmarkedDecl
  have hmarks := hmarks.covers hc
  have hdecl := h.covers (hmarks.length_le.trans_lt hc)
  exact ⟨_, _, childSpans_append _ _, hmarks.trans hdecl⟩

end ShaderLink
