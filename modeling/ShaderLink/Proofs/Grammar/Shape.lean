import ShaderLink.Proofs.Grammar.Code

/-!
# The language of declarations

What a declaration may be made of, as a language of lexemes (`declarations`). The parts of
functions, variables and aliases are bodies. The type of a struct member is read by counting angle
brackets, and so has a language of its own for each depth (`MemberType`).
-/

namespace ShaderLink

open Lexeme

/-- Attributes one behind the other. -/
inductive Marks : List Lexeme → Prop
  | nil : Marks []
  | cons {x : Lexeme} {args xs : List Lexeme} (hx : x.kind = .word) (hargs : args ∈ arguments)
    (h : Marks xs) : Marks (symbol "@" :: x :: (args ++ xs))

/-- The language of attributes. -/
def marks : Language Lexeme :=
  {ts | Marks ts}

/-- One more attribute may stand in front of attributes. -/
theorem mul_marks : ∀ ts ∈ ({[symbol "@"]} : Language Lexeme) * words * arguments * marks,
    ts ∈ marks := by
  intro ts hts
  obtain ⟨_, hfront, us, hus, rfl⟩ := Language.mem_mul.1 hts
  obtain ⟨_, hmark, vs, hvs, rfl⟩ := Language.mem_mul.1 hfront
  obtain ⟨_, rfl, _, ⟨x, hx, rfl⟩, rfl⟩ := Language.mem_mul.1 hmark
  have h := Marks.cons hx hvs hus
  show Marks _
  simpa using h

/-- The symbols that mean something in the type of a member. -/
def typeSymbols : List String :=
  ["<", ">", ",", "\x7d", "("]

/-- The lexemes are those of a member's type from a depth of angle brackets on, in front of the
symbol that ends it. -/
inductive MemberType : Nat → List Lexeme → Prop
  | nil : MemberType 0 []
  | opening {depth : Nat} {xs : List Lexeme} (h : MemberType (depth + 1) xs) :
    MemberType depth (symbol "<" :: xs)
  | closing {depth : Nat} {xs : List Lexeme} (h : MemberType (depth - 1) xs) :
    MemberType depth (symbol ">" :: xs)
  | inner {depth : Nat} {s : String} {xs : List Lexeme} (hs : s = "," ∨ s = "\x7d")
    (hdepth : depth ≠ 0) (h : MemberType depth xs) : MemberType depth (symbol s :: xs)
  | args {depth : Nat} {xs ys : List Lexeme} (hargs : Code ")" false xs)
    (h : MemberType depth ys) : MemberType depth (symbol "(" :: (xs ++ symbol ")" :: ys))
  | other {depth : Nat} {x : Lexeme} {xs : List Lexeme}
    (hx : x.kind = .symbol → String.ofList x.text ∉ typeSymbols) (h : MemberType depth xs) :
    MemberType depth (x :: xs)

/-- A word may stand anywhere in a type. -/
theorem MemberType.word {depth : Nat} {x : Lexeme} {xs : List Lexeme} (hx : x.kind = .word)
    (h : MemberType depth xs) : MemberType depth (x :: xs) :=
  .other (fun hsymbol ↦ by
    rw [hx] at hsymbol
    cases hsymbol) h

/-- So may the rest of a path. -/
theorem MemberType.steps {depth : Nat} {separator : String} {ts xs : List Lexeme}
    (hseparator : separator ∉ typeSymbols) (hsteps : Steps separator ts)
    (h : MemberType depth xs) : MemberType depth (ts ++ xs) := by
  induction hsteps with
  | nil => exact h
  | cons hx hrest ih =>
    refine .other (fun _ ↦ ?_) (.word hx ih)
    rwa [show String.ofList (symbol separator).text = separator from String.ofList_toList]

theorem MemberType.path {depth : Nat} {ts xs : List Lexeme} (hpath : ts ∈ paths)
    (h : MemberType depth xs) : MemberType depth (ts ++ xs) := by
  obtain ⟨x, colons, dots, hx, hcolons, hdots, rfl⟩ := hpath
  rw [List.cons_append, List.append_assoc]
  exact .word hx.1 (.steps (by decide) hcolons (.steps (by decide) hdots h))

/-- The language of the rest of a member's type. -/
def memberTypes (depth : Nat) : Language Lexeme :=
  {ts | MemberType depth ts}

/-- What may stand in front of all types may stand in front of the rest of one. -/
theorem mul_memberTypes_le {depth depth' : Nat} {L : Language Lexeme}
    (h : ∀ ts ∈ L, ∀ xs, MemberType depth' xs → MemberType depth (ts ++ xs)) :
    ∀ ts ∈ L * memberTypes depth', ts ∈ memberTypes depth := by
  intro ts hts
  obtain ⟨us, hus, xs, hxs, rfl⟩ := Language.mem_mul.1 hts
  exact h us hus xs hxs

/-- The case of a single lexeme in front. -/
theorem singleton_mul_memberTypes {depth depth' : Nat} {x : Lexeme}
    (h : ∀ xs, MemberType depth' xs → MemberType depth (x :: xs)) :
    ∀ ts ∈ ({[x]} : Language Lexeme) * memberTypes depth', ts ∈ memberTypes depth :=
  mul_memberTypes_le fun ts hts xs hxs ↦ by
    obtain rfl : ts = [x] := hts
    exact h xs hxs

/-- Parentheses may stand anywhere in a type, with a body inside. -/
theorem bracketed_mul_memberTypes {depth : Nat} :
    ∀ ts ∈ ({[symbol "("]} : Language Lexeme) * bodies ")" * memberTypes depth,
      ts ∈ memberTypes depth :=
  mul_memberTypes_le fun ts hts xs hxs ↦ by
    obtain ⟨us, hus, rfl⟩ := exists_of_mem_bracketed hts
    rw [List.cons_append, List.append_assoc]
    exact .args hus hxs

/-- The lexemes are those of the members of a struct and of the brace that closes it. -/
inductive Members : List Lexeme → Prop
  | close : Members [symbol "\x7d"]
  | member {ms ts xs : List Lexeme} {x : Lexeme} (hmarks : Marks ms) (hx : x.kind = .word)
    (htype : MemberType 0 ts) (h : Members xs) :
    Members (ms ++ x :: symbol ":" :: (ts ++ symbol "," :: xs))
  | last {ms ts : List Lexeme} {x : Lexeme} (hmarks : Marks ms) (hx : x.kind = .word)
    (htype : MemberType 0 ts) :
    Members (ms ++ x :: symbol ":" :: (ts ++ [symbol "\x7d"]))

/-- The language of members. -/
def members : Language Lexeme :=
  {ts | Members ts}

/-- One more member with a comma may stand in front of members. -/
theorem mul_members : ∀ ts ∈ marks * (words * {[symbol ":"]}) *
    (memberTypes 0 * {[symbol ","]} * members), ts ∈ members := by
  intro ts hts
  obtain ⟨_, hfront, _, hback, rfl⟩ := Language.mem_mul.1 hts
  obtain ⟨ms, hms, _, hname, rfl⟩ := Language.mem_mul.1 hfront
  obtain ⟨_, ⟨x, hx, rfl⟩, _, rfl, rfl⟩ := Language.mem_mul.1 hname
  obtain ⟨_, htype, xs, hxs, rfl⟩ := Language.mem_mul.1 hback
  obtain ⟨us, hus, _, rfl, rfl⟩ := Language.mem_mul.1 htype
  have h := Members.member hms hx hus hxs
  show Members _
  simpa using h

/-- The last member needs no comma. -/
theorem mul_close : ∀ ts ∈ marks * (words * {[symbol ":"]}) *
    (memberTypes 0 * {[symbol "\x7d"]}), ts ∈ members := by
  intro ts hts
  obtain ⟨_, hfront, _, hback, rfl⟩ := Language.mem_mul.1 hts
  obtain ⟨ms, hms, _, hname, rfl⟩ := Language.mem_mul.1 hfront
  obtain ⟨_, ⟨x, hx, rfl⟩, _, rfl, rfl⟩ := Language.mem_mul.1 hname
  obtain ⟨us, hus, _, rfl, rfl⟩ := Language.mem_mul.1 hback
  have h := Members.last hms hx hus
  show Members _
  simpa using h

/-- One of some reserved words. -/
def keywordOf (ws : List String) : Language Lexeme :=
  {ts | ∃ w ∈ ws, [keyword w] = ts}

/-- The language of what a template may have in angle brackets, if it has any. -/
def templates : Language Lexeme :=
  1 + {[symbol "<"]} * bodies ">"

/-- The language of functions. -/
def functions : Language Lexeme :=
  keywordOf ["fn"] * names * ({[symbol "("]} * bodies ")" * bodies "\x7b" * bodies "\x7d")

/-- The language of structs. -/
def structs : Language Lexeme :=
  keywordOf ["struct"] * names * ({[symbol "\x7b"]} * members)

/-- The language of variables, constants and overrides. -/
def values : Language Lexeme :=
  keywordOf ["var", "const", "override"] * templates * names * bodies ";"

/-- The language of type aliases. -/
def aliases : Language Lexeme :=
  keywordOf ["alias"] * names * ({[symbol "="]} * bodies ";")

/-- The language of declarations. -/
def declarations : Language Lexeme :=
  marks * (functions + structs + values + aliases)

/-- The language of statements that are kept as they are. -/
def statements : Language Lexeme :=
  {[symbol ";"]} + keywordOf ["enable", "requires", "diagnostic", "const_assert"] * bodies ";"

/-! ### How declarations start -/

/-- All that is in the language starts with one of some reserved words. -/
def Language.StartsWith (L : Language Lexeme) (ws : List String) : Prop :=
  ∀ ts ∈ L, ∃ w ∈ ws, ts.head? = some (keyword w)

/-- A single reserved word starts with itself. -/
theorem startsWith_keywordOf (ws : List String) : Language.StartsWith (keywordOf ws) ws := by
  rintro ts ⟨w, hw, rfl⟩
  exact ⟨w, hw, rfl⟩

/-- What follows makes no difference to how it starts. -/
theorem Language.StartsWith.mul {L M : Language Lexeme} {ws : List String}
    (h : Language.StartsWith L ws) : Language.StartsWith (L * M) ws := by
  intro ts hts
  obtain ⟨us, hus, vs, -, rfl⟩ := Language.mem_mul.1 hts
  obtain ⟨w, hw, hhead⟩ := h us hus
  refine ⟨w, hw, ?_⟩
  show (us ++ vs).head? = _
  rw [List.head?_append, hhead]
  rfl

/-- A choice starts with the words of both sides. -/
theorem Language.StartsWith.add {L M : Language Lexeme} {ws ws' : List String}
    (h : Language.StartsWith L ws) (h' : Language.StartsWith M ws') :
    Language.StartsWith (L + M) (ws ++ ws') := by
  rintro ts (hts | hts)
  · obtain ⟨w, hw, hhead⟩ := h ts hts
    exact ⟨w, List.mem_append_left _ hw, hhead⟩
  · obtain ⟨w, hw, hhead⟩ := h' ts hts
    exact ⟨w, List.mem_append_right _ hw, hhead⟩

theorem startsWith_functions : Language.StartsWith functions ["fn"] :=
  (startsWith_keywordOf _).mul.mul

theorem startsWith_structs : Language.StartsWith structs ["struct"] :=
  (startsWith_keywordOf _).mul.mul

theorem startsWith_values : Language.StartsWith values ["var", "const", "override"] :=
  (startsWith_keywordOf _).mul.mul.mul

theorem startsWith_aliases : Language.StartsWith aliases ["alias"] :=
  (startsWith_keywordOf _).mul.mul

/-! ### How declarations end -/

/-- All that is in the language ends with the lexeme. -/
def Language.EndsWith (L : Language Lexeme) (x : Lexeme) : Prop :=
  ∀ ts ∈ L, ts.getLast? = some x

/-- What is in front makes no difference to how it ends. -/
theorem Language.EndsWith.mul {L M : Language Lexeme} {x : Lexeme} (h : Language.EndsWith M x) :
    Language.EndsWith (L * M) x := by
  intro ts hts
  obtain ⟨us, -, vs, hvs, rfl⟩ := Language.mem_mul.1 hts
  show (us ++ vs).getLast? = some x
  rw [List.getLast?_append, h vs hvs]
  rfl

/-- A body ends with the symbol that closes it. -/
theorem endsWith_bodies (closer : String) : Language.EndsWith (bodies closer) (symbol closer) := by
  rintro ts ⟨xs, -, rfl⟩
  exact List.getLast?_concat

/-- The members of a struct end with a brace. -/
theorem endsWith_members : Language.EndsWith members (symbol "\x7d") := by
  intro ts hts
  have h : Members ts := hts
  clear hts
  induction h with
  | close => rfl
  | member hmarks hx htype h ih =>
    rw [List.getLast?_append, List.getLast?_cons_cons, List.getLast?_cons, List.getLast?_append,
      List.getLast?_cons, ih]
    rfl
  | last hmarks hx htype =>
    rw [List.getLast?_append, List.getLast?_cons_cons, List.getLast?_cons, List.getLast?_concat]
    rfl

/-- A declaration ends with a closing symbol. -/
theorem getLast?_of_mem_declarations {ts : List Lexeme} (h : ts ∈ declarations) :
    ∃ s, IsClosing s ∧ ts.getLast? = some (symbol s) := by
  obtain ⟨ms, -, us, hus, rfl⟩ := Language.mem_mul.1 h
  have hlast : ∃ s, IsClosing s ∧ us.getLast? = some (symbol s) := by
    rcases hus with ((hus | hus) | hus) | hus
    · exact ⟨"\x7d", .inl rfl, (endsWith_bodies "\x7d").mul.mul us hus⟩
    · exact ⟨"\x7d", .inl rfl, endsWith_members.mul.mul us hus⟩
    · exact ⟨";", .inr rfl, (endsWith_bodies ";").mul us hus⟩
    · exact ⟨";", .inr rfl, (endsWith_bodies ";").mul.mul us hus⟩
  obtain ⟨s, hs, hlast⟩ := hlast
  refine ⟨s, hs, ?_⟩
  show (ms ++ us).getLast? = _
  rw [List.getLast?_append, hlast]
  rfl

/-- A statement ends with a semicolon. -/
theorem endsWith_statements : Language.EndsWith statements (symbol ";") := by
  rintro ts (rfl | hts)
  · rfl
  · exact (endsWith_bodies ";").mul ts hts

/-- A declaration or a statement ends with a closing symbol. -/
theorem getLast?_of_mem_unit {ts : List Lexeme} (h : ts ∈ declarations + statements) :
    ∃ s, IsClosing s ∧ ts.getLast? = some (symbol s) := by
  rcases h with h | h
  · exact getLast?_of_mem_declarations h
  · exact ⟨";", .inr rfl, endsWith_statements ts h⟩

end ShaderLink
