import ShaderLink.Proofs.Grammar.Cover

/-!
# The language of bodies

What a body may be made of, as a language of lexemes (`Code`). Brackets are closed, an attribute has
a name, a loop a header and a block, and a `let` declares a name. Otherwise anything goes, with one
exception: directly behind a path, as in `a::for`, a reserved word goes on with the path if it
stands behind a separator, while anywhere else it begins what it always begins.

A language that can stand in front of all code can be read as a part of it (`mul_bodies_le`).
-/

namespace ShaderLink

open Lexeme

/-! ### The language -/

/-- The brackets that everything in them is read up to the end of. -/
def brackets : List (String × String) :=
  [("(", ")"), ("[", "]"), ("\x7b", "\x7d")]

/-- The symbols that mean something in bodies. -/
def structural : List String :=
  ["(", ")", "[", "]", "\x7b", "\x7d", "@", "."]

/-- The words that declare something. -/
def declaring : List String :=
  ["let", "var", "const"]

/-- The lexeme is nothing that has to be followed by something. -/
structure Lexeme.IsPlain (x : Lexeme) : Prop where
  symbol : x.kind = .symbol → String.ofList x.text ∉ structural
  word : x.kind = .word → isKeyword (String.ofList x.text) = true ∧
    String.ofList x.text ≠ "for" ∧ String.ofList x.text ∉ declaring

/-- The lexemes are those of code in front of the closing symbol. The flag says whether they stand
directly behind a path. -/
inductive Code : String → Bool → List Lexeme → Prop
  | nil {closer : String} {behind : Bool} : Code closer behind []
  | plain {closer : String} {behind : Bool} {x : Lexeme} {xs : List Lexeme} (hx : x.IsPlain)
    (hne : x ≠ symbol closer) (hpath : behind = true → ¬StartsStep "::" (x :: xs))
    (h : Code closer false xs) : Code closer behind (x :: xs)
  | name {closer : String} {behind : Bool} {x : Lexeme} {xs : List Lexeme} (hx : x.IsName)
    (h : Code closer true xs) : Code closer behind (x :: xs)
  | segment {closer : String} {x : Lexeme} {xs : List Lexeme} (hx : x.kind = .word)
    (h : Code closer true xs) : Code closer true (symbol "::" :: x :: xs)
  | member {closer : String} {behind : Bool} {x : Lexeme} {xs : List Lexeme} (hx : x.kind = .word)
    (h : Code closer false xs) : Code closer behind (symbol "." :: x :: xs)
  | dot {closer : String} {behind : Bool} {xs : List Lexeme} (hxs : ∀ x ∈ xs.head?, x.kind ≠ .word)
    (h : Code closer false xs) : Code closer behind (symbol "." :: xs)
  | mark {closer : String} {behind : Bool} {x : Lexeme} {xs : List Lexeme} (hx : x.kind = .word)
    (h : Code closer false xs) : Code closer behind (symbol "@" :: x :: xs)
  | bracket {closer first last : String} {behind : Bool} {xs ys : List Lexeme}
    (hbracket : (first, last) ∈ brackets) (hne : first ≠ closer) (hinside : Code last false xs)
    (h : Code closer false ys) : Code closer behind (symbol first :: (xs ++ symbol last :: ys))
  | loop {closer : String} {behind : Bool} {header block xs : List Lexeme}
    (hheader : Code ")" false header) (hblock : Code "\x7d" false block)
    (h : Code closer false xs) :
    Code closer behind (keyword "for" :: symbol "(" :: (header ++ symbol ")" ::
      symbol "\x7b" :: (block ++ symbol "\x7d" :: xs)))
  | declare {closer declares : String} {behind : Bool} {x : Lexeme} {xs : List Lexeme}
    (hdeclares : declares ∈ declaring) (hx : x.IsName) (h : Code closer false xs) :
    Code closer behind (keyword declares :: x :: xs)
  | template {closer declares : String} {behind : Bool} {x : Lexeme} {args xs : List Lexeme}
    (hdeclares : declares ∈ declaring) (hargs : Code ">" false args) (hx : x.IsName)
    (h : Code closer false xs) :
    Code closer behind (keyword declares :: symbol "<" :: (args ++ symbol ">" :: x :: xs))

/-- Behind a path stands what may stand anywhere, if the path does not go on. -/
theorem Code.behind {closer : String} {behind : Bool} {xs : List Lexeme}
    (h : Code closer false xs) (hpath : ¬StartsStep "::" xs) : Code closer behind xs := by
  cases behind with
  | false => exact h
  | true =>
    cases h with
    | nil => exact .nil
    | plain hx hne _ h => exact .plain hx hne (fun _ ↦ hpath) h
    | name hx h => exact .name hx h
    | member hx h => exact .member hx h
    | dot hxs h => exact .dot hxs h
    | mark hx h => exact .mark hx h
    | bracket hbracket hne hinside h => exact .bracket hbracket hne hinside h
    | loop hheader hblock h => exact .loop hheader hblock h
    | declare hdeclares hx h => exact .declare hdeclares hx h
    | template hdeclares hargs hx h => exact .template hdeclares hargs hx h

/-- What stands behind a path that does not go on may stand anywhere. -/
theorem Code.ahead {closer : String} {xs : List Lexeme} (h : Code closer true xs)
    (hpath : ¬StartsStep "::" xs) : Code closer false xs := by
  cases h with
  | nil => exact .nil
  | plain hx hne _ h => exact .plain hx hne nofun h
  | name hx h => exact .name hx h
  | segment hx h => exact absurd ⟨_, _, hx, rfl⟩ hpath
  | member hx h => exact .member hx h
  | dot hxs h => exact .dot hxs h
  | mark hx h => exact .mark hx h
  | bracket hbracket hne hinside h => exact .bracket hbracket hne hinside h
  | loop hheader hblock h => exact .loop hheader hblock h
  | declare hdeclares hx h => exact .declare hdeclares hx h
  | template hdeclares hargs hx h => exact .template hdeclares hargs hx h

/-- Code with the symbol that closes it. -/
def bodies (closer : String) : Language Lexeme :=
  {ts | ∃ xs, Code closer false xs ∧ xs ++ [symbol closer] = ts}

/-- A single lexeme that is a name. -/
def names : Language Lexeme :=
  {ts | ∃ x : Lexeme, x.IsName ∧ [x] = ts}

/-- A single lexeme that is a word. -/
def words : Language Lexeme :=
  {ts | ∃ x : Lexeme, x.kind = .word ∧ [x] = ts}

/-- Words, each of them behind a separator. -/
inductive Steps (separator : String) : List Lexeme → Prop
  | nil : Steps separator []
  | cons {x : Lexeme} {xs : List Lexeme} (hx : x.kind = .word) (h : Steps separator xs) :
    Steps separator (symbol separator :: x :: xs)

/-- A path, of which the first word is a name. -/
def paths : Language Lexeme :=
  {ts | ∃ x colons dots, IsName x ∧ Steps "::" colons ∧ Steps "." dots ∧
    x :: (colons ++ dots) = ts}

/-- Arguments in parentheses, or none. -/
def arguments : Language Lexeme :=
  {ts | ts = [] ∨ ∃ xs, Code ")" false xs ∧ symbol "(" :: (xs ++ [symbol ")"]) = ts}

/-! ### Code put together -/

section

variable {closer : String} {behind : Bool} {ts us : List Lexeme}

/-- Steps by one separator do not start with a step by another. -/
theorem not_startsStep_of_steps {separator other : String} (hne : separator ≠ other)
    (hsteps : Steps separator ts) (h : ¬StartsStep other us) : ¬StartsStep other (ts ++ us) := by
  cases hsteps with
  | nil => exact h
  | cons hx hrest =>
    rintro ⟨y, ys, -, heq⟩
    exact hne (String.ext (Lexeme.mk.inj (List.cons.inj heq).1).2)

theorem Code.dots (hdots : Steps "." ts) (h : Code closer false us) :
    Code closer false (ts ++ us) := by
  induction hdots with
  | nil => exact h
  | cons hx hrest ih => exact .member hx ih

theorem Code.colons (hcolons : Steps "::" ts) (h : Code closer true us) :
    Code closer true (ts ++ us) := by
  induction hcolons with
  | nil => exact h
  | cons hx hrest ih => exact .segment hx ih

/-- A path may stand in code if what follows does not go on with it. -/
theorem Code.path (hpath : ts ∈ paths) (h : Code closer false us) (hus : ¬StartsStep "::" us) :
    Code closer behind (ts ++ us) := by
  obtain ⟨x, colons, dots, hx, hcolons, hdots, rfl⟩ := hpath
  rw [List.cons_append, List.append_assoc]
  exact .name hx (.colons hcolons
    ((h.dots hdots).behind (not_startsStep_of_steps (by decide) hdots hus)))

/-- Arguments may stand in code, or be missing. -/
theorem Code.arguments (hargs : ts ∈ arguments) (hcloser : closer ≠ "(")
    (h : Code closer false us) : Code closer false (ts ++ us) := by
  rcases hargs with rfl | ⟨xs, hxs, rfl⟩
  · exact h
  · rw [List.cons_append, List.append_assoc]
    exact .bracket (by decide) hcloser.symm hxs h

/-- What may stand in front of all code may stand in front of a body. -/
theorem mul_bodies_le {L : Language Lexeme}
    (h : ∀ ts ∈ L, ∀ us, Code closer false us → Code closer false (ts ++ us)) :
    ∀ ts ∈ L * bodies closer, ts ∈ bodies closer := by
  intro ts hts
  obtain ⟨us, hus, vs, ⟨xs, hxs, rfl⟩, rfl⟩ := Language.mem_mul.1 hts
  exact ⟨us ++ xs, h us hus xs hxs, List.append_assoc _ _ _⟩

/-- A body in brackets. -/
theorem exists_of_mem_bracketed {first last : String}
    (h : ts ∈ ({[symbol first]} : Language Lexeme) * bodies last) :
    ∃ xs, Code last false xs ∧ symbol first :: (xs ++ [symbol last]) = ts := by
  obtain ⟨_, rfl, _, ⟨xs, hxs, rfl⟩, rfl⟩ := Language.mem_mul.1 h
  exact ⟨xs, hxs, rfl⟩

/-- What means nothing in code may stand in front of a body that it does not close. -/
theorem plain_mul_bodies {x : Lexeme} (hx : x.IsPlain) (hne : x ≠ symbol closer) :
    ∀ ts ∈ ({[x]} : Language Lexeme) * bodies closer, ts ∈ bodies closer :=
  mul_bodies_le fun ts hts us hus ↦ by
    obtain rfl : ts = [x] := hts
    exact .plain hx hne nofun hus

/-- Brackets may, with a body inside. -/
theorem bracketed_mul_bodies {first last : String} (hbracket : (first, last) ∈ brackets)
    (hne : first ≠ closer) :
    ∀ ts ∈ ({[symbol first]} : Language Lexeme) * bodies last * bodies closer,
      ts ∈ bodies closer :=
  mul_bodies_le fun ts hts us hus ↦ by
    obtain ⟨xs, hxs, rfl⟩ := exists_of_mem_bracketed hts
    rw [List.cons_append, List.append_assoc]
    exact .bracket hbracket hne hxs hus

/-- Attributes may. -/
theorem mark_mul_bodies (hne : closer ≠ "(") :
    ∀ ts ∈ ({[symbol "@"]} : Language Lexeme) * words * arguments * bodies closer,
      ts ∈ bodies closer :=
  mul_bodies_le fun ts hts us hus ↦ by
    obtain ⟨_, hmark, vs, hvs, rfl⟩ := Language.mem_mul.1 hts
    obtain ⟨_, rfl, _, ⟨x, hx, rfl⟩, rfl⟩ := Language.mem_mul.1 hmark
    exact .mark hx (.arguments hvs hne hus)

/-- A dot may with the word behind it. -/
theorem member_mul_bodies :
    ∀ ts ∈ ({[symbol "."]} : Language Lexeme) * words * bodies closer, ts ∈ bodies closer :=
  mul_bodies_le fun ts hts us hus ↦ by
    obtain ⟨_, rfl, _, ⟨x, hx, rfl⟩, rfl⟩ := Language.mem_mul.1 hts
    exact .member hx hus

/-- And a dot may without a word. -/
theorem dot_mul_bodies : ∀ ts ∈ ({[symbol "."]} : Language Lexeme) *
    Language.notWordFirst (bodies closer), ts ∈ bodies closer := by
  intro ts hts
  obtain ⟨_, rfl, _, ⟨⟨xs, hxs, rfl⟩, hhead⟩, rfl⟩ := Language.mem_mul.1 hts
  refine ⟨symbol "." :: xs, .dot (fun x hx ↦ hhead x ?_) hxs, rfl⟩
  cases xs with
  | nil => cases hx
  | cons y ys => exact hx

/-- A loop may with its header and its block. -/
theorem loop_mul_bodies :
    ∀ ts ∈ ({[keyword "for"]} : Language Lexeme) * ({[symbol "("]} * bodies ")") *
      ({[symbol "\x7b"]} * bodies "\x7d") * bodies closer, ts ∈ bodies closer :=
  mul_bodies_le fun ts hts us hus ↦ by
    obtain ⟨_, hfront, _, hblock, rfl⟩ := Language.mem_mul.1 hts
    obtain ⟨_, rfl, _, hheader, rfl⟩ := Language.mem_mul.1 hfront
    obtain ⟨xs, hxs, rfl⟩ := exists_of_mem_bracketed hheader
    obtain ⟨ys, hys, rfl⟩ := exists_of_mem_bracketed hblock
    have h : Code _ false _ := .loop hxs hys hus
    simpa using h

/-- A declaration may with its name and perhaps a template. -/
theorem declare_mul_bodies {declares : String} (hdeclares : declares ∈ declaring) :
    ∀ ts ∈ ({[keyword declares]} : Language Lexeme) *
      (1 + {[symbol "<"]} * bodies ">") * names * bodies closer, ts ∈ bodies closer :=
  mul_bodies_le fun ts hts us hus ↦ by
    obtain ⟨_, hfront, _, ⟨x, hx, rfl⟩, rfl⟩ := Language.mem_mul.1 hts
    obtain ⟨_, rfl, vs, hvs, rfl⟩ := Language.mem_mul.1 hfront
    rcases hvs with rfl | hvs
    · exact .declare hdeclares hx hus
    · obtain ⟨xs, hxs, rfl⟩ := exists_of_mem_bracketed hvs
      have h : Code _ false _ := .template hdeclares hxs hx hus
      simpa using h

/-- A path may, if the body does not go on with it. -/
theorem path_mul_bodies :
    ∀ ts ∈ paths * Language.notStepFirst "::" (bodies closer), ts ∈ bodies closer := by
  intro ts hts
  obtain ⟨us, hus, _, ⟨⟨xs, hxs, rfl⟩, hpath⟩, rfl⟩ := Language.mem_mul.1 hts
  refine ⟨us ++ xs, .path hus hxs ?_, List.append_assoc _ _ _⟩
  rintro ⟨x, ys, hx, rfl⟩
  exact hpath ⟨x, ys ++ [symbol closer], hx, rfl⟩

end

end ShaderLink
