import ShaderLink.Proofs.Grammar.Outside
import ShaderLink.Proofs.Module.Parts
import ShaderLink.Proofs.Provenance.Order

/-!
# The structure of a module

The elements of a module at module level stand one behind the other in its text, and every token
that is outside of all of them is pointed out as skipped, by a warning of its own. In the list of
elements each declaration is followed by what is inside it, which stands in order in its span and
apart from its name (`Module.WellStructured`). Every module that is parsed has this structure
(`Module.wellStructured_of_parse`), whatever its text is, because every item takes a stretch of text
or is a stray token.
-/

namespace ShaderLink

/-! ### The list of elements -/

/-- From a place on, the list consists of elements at module level, each declaration with as many
elements behind it as it says are inside. -/
inductive Element.Grouped : Nat → List Element → Prop
  | nil (place : Nat) : Element.Grouped place []
  | plain {place : Nat} {e : Element} {es : List Element} (hdecl : e.decl? = none)
    (houter : e.outer? ≠ none) (hrest : Element.Grouped (place + 1) es) :
    Element.Grouped place (e :: es)
  | decl {place : Nat} {d : Decl} {inner es : List Element} (hfirst : d.firstChild = place + 1)
    (hcount : d.childCount = inner.length) (hinner : ∀ e ∈ inner, e.outer? = none)
    (hrest : Element.Grouped (place + 1 + inner.length) es) :
    Element.Grouped place (.decl d :: (inner ++ es))

namespace Element.Grouped

variable {place i j : Nat} {es es' : List Element} {d d' : Decl}

theorem append (h : Grouped place es) (h' : Grouped (place + es.length) es') :
    Grouped place (es ++ es') := by
  induction h with
  | nil => exact h'
  | plain hdecl houter _ ih =>
    refine .plain hdecl houter (ih ?_)
    rwa [Nat.add_assoc, Nat.add_comm 1]
  | @decl place d inner es hfirst hcount hinner _ ih =>
    rw [List.cons_append, List.append_assoc]
    refine .decl hfirst hcount hinner (ih ?_)
    rw [List.length_cons, List.length_append] at h'
    convert h' using 1
    omega

/-- What is inside a declaration stands right behind it, and nothing else is there. -/
theorem children (h : Grouped place es) (hd : es[i]? = some (.decl d)) :
    d.firstChild = place + i + 1 ∧ i + 1 + d.childCount ≤ es.length ∧
      ∀ j e, i < j → j < i + 1 + d.childCount → es[j]? = some e → e.outer? = none := by
  induction h generalizing i with
  | nil => cases hd
  | plain hdecl _ _ ih =>
    cases i with
    | zero =>
      obtain rfl := Option.some.inj hd
      cases hdecl
    | succ i =>
      obtain ⟨hfirst, hle, hinner⟩ := ih hd
      refine ⟨by omega, by rw [List.length_cons]; omega, fun j e hij hj he ↦ ?_⟩
      obtain ⟨j, rfl⟩ : ∃ k, j = k + 1 := ⟨j - 1, by omega⟩
      exact hinner j e (by omega) (by omega) he
  | @decl place d' inner es hfirst hcount hinner _ ih =>
    rw [List.length_cons, List.length_append]
    cases i with
    | zero =>
      obtain rfl : d' = d := Element.decl.inj (Option.some.inj hd)
      refine ⟨hfirst, by omega, fun j e hij hj he ↦ ?_⟩
      obtain ⟨j, rfl⟩ : ∃ k, j = k + 1 := ⟨j - 1, by omega⟩
      rw [List.getElem?_cons_succ, List.getElem?_append_left (by omega)] at he
      exact hinner e (List.mem_of_getElem? he)
    | succ i =>
      rw [List.getElem?_cons_succ] at hd
      -- the elements inside are no declarations
      have hi : inner.length ≤ i := by
        refine Nat.le_of_not_lt fun hlt ↦ ?_
        rw [List.getElem?_append_left hlt] at hd
        cases hinner _ (List.mem_of_getElem? hd)
      rw [List.getElem?_append_right hi] at hd
      obtain ⟨hfirst', hle, hinner'⟩ := ih hd
      refine ⟨by omega, by omega, fun j e hij hj he ↦ ?_⟩
      obtain ⟨j, rfl⟩ : ∃ k, j = k + 1 := ⟨j - 1, by omega⟩
      rw [List.getElem?_cons_succ, List.getElem?_append_right (by omega)] at he
      exact hinner' _ e (by omega) (by omega) he

/-- What is not at module level is inside a declaration. -/
theorem exists_decl (h : Grouped place es) {e : Element} (he : es[j]? = some e)
    (hinner : e.outer? = none) :
    ∃ i d, es[i]? = some (.decl d) ∧ i < j ∧ j < i + 1 + d.childCount := by
  induction h generalizing j with
  | nil => cases he
  | plain _ houter _ ih =>
    cases j with
    | zero =>
      obtain rfl := Option.some.inj he
      exact absurd hinner houter
    | succ j =>
      obtain ⟨i, d, hd, hij, hj⟩ := ih he
      exact ⟨i + 1, d, hd, by omega, by omega⟩
  | @decl place d inner es _ hcount _ _ ih =>
    cases j with
    | zero =>
      obtain rfl := Option.some.inj he
      cases hinner
    | succ j =>
      rw [List.getElem?_cons_succ] at he
      by_cases hj : j < inner.length
      · exact ⟨0, d, rfl, by omega, by omega⟩
      · rw [List.getElem?_append_right (by omega)] at he
        obtain ⟨i, d', hd', hij, hj'⟩ := ih he
        refine ⟨inner.length + i + 1, d', ?_, by omega, by omega⟩
        rw [List.getElem?_cons_succ, List.getElem?_append_right (by omega), Nat.add_sub_cancel_left]
        exact hd'

/-- What is inside a declaration ends in front of the next. -/
theorem apart (h : Grouped place es) (hd : es[i]? = some (.decl d))
    (hd' : es[j]? = some (.decl d')) (hij : i < j) : i + 1 + d.childCount ≤ j :=
  Nat.le_of_not_lt fun hlt ↦ nomatch (h.children hd).2.2 j _ hij hlt hd'

end Element.Grouped

namespace Assembly

variable {a : Assembly} {exportsAll : Bool} {items : List Item}

/-- Reading an item adds elements at the end that are grouped. -/
theorem grouped_item (h : Element.Grouped 0 a.elements) (i : Item) :
    Element.Grouped 0 (a.item exportsAll i).elements := by
  cases i with
  | decl d =>
    refine h.append ?_
    rw [Nat.zero_add]
    have hinner := List.filterMap_eq_nil_iff.1 (BodyAssembly.children_ofEvents a.scopes d.events).2
    have hdecl (decl : Decl) (place : Nat) (hfirst : decl.firstChild = place + 1)
        (hcount : decl.childCount = (BodyAssembly.ofEvents a.scopes d.events).children.length) :
        Element.Grouped place
          (.decl decl :: (BodyAssembly.ofEvents a.scopes d.events).children) := by
      have hgroup := Element.Grouped.decl hfirst hcount hinner (.nil _)
      rwa [List.append_nil] at hgroup
    cases d.exportSpan with
    | none => exact hdecl _ _ rfl rfl
    | some word => exact .plain rfl nofun (hdecl _ _ rfl rfl)
  | stray token => exact h
  | _ => exact h.append (.plain rfl nofun (.nil _))

theorem grouped_foldl (h : Element.Grouped 0 a.elements) :
    Element.Grouped 0 (items.foldl (item exportsAll) a).elements := by
  induction items generalizing a with
  | nil => exact h
  | cons i items ih => exact ih (grouped_item h i)

/-- An item is the elements at module level that take its stretches. -/
theorem outer_item (exportsAll : Bool) (a : Assembly) (i : Item) :
    (a.item exportsAll i).elements.filterMap Element.outer? =
      a.elements.filterMap Element.outer? ++ i.outerSpans := by
  cases i with
  | decl d =>
    have hinner := (BodyAssembly.children_ofEvents a.scopes d.events).2
    rw [item, decl, List.filterMap_append, List.filterMap_append, List.filterMap_cons, hinner,
      Item.outerSpans]
    cases d.exportSpan <;> rfl
  | stray token => exact (List.append_nil _).symm
  | _ =>
    rw [item, List.filterMap_append]
    rfl

theorem outer_foldl (exportsAll : Bool) (items : List Item) (a : Assembly) :
    (items.foldl (item exportsAll) a).elements.filterMap Element.outer? =
      a.elements.filterMap Element.outer? ++ items.flatMap Item.outerSpans := by
  induction items generalizing a with
  | nil => exact (List.append_nil _).symm
  | cons i items ih => rw [List.foldl_cons, ih, outer_item, List.flatMap_cons, List.append_assoc]

end Assembly

/-! ### Warnings about skipped tokens -/

/-- What is said about a token that starts nothing. -/
def Token.skipMessage (token : Token) : String :=
  "unexpected `" ++ token.text ++ "` at module level, skipped"

/-- Whether a message says that a token was skipped. -/
def isSkipMessage (message : String) : Bool :=
  "unexpected `".toList.isPrefixOf message.toList &&
    "` at module level, skipped".toList.isSuffixOf message.toList

theorem isSkipMessage_skipMessage (token : Token) : isSkipMessage token.skipMessage = true := by
  simp only [isSkipMessage, Token.skipMessage, String.toList_append, Bool.and_eq_true,
    List.isPrefixOf_iff_prefix, List.isSuffixOf_iff_suffix]
  exact ⟨(List.prefix_append _ _).trans (List.prefix_append _ _), List.suffix_append _ _⟩

namespace Conditional

variable {conditions : String → Bool}

/-- What conditional lines are warned about. -/
def messages : List String :=
  ["#else without #if", "#endif without #if", "#if without #endif"]

theorem mem_messages_line {r : Reading} (h : ∀ p ∈ r.problems, p.2 ∈ messages) (offset : Nat)
    (line : Text) : ∀ p ∈ (r.line conditions offset line).problems, p.2 ∈ messages := by
  simp only [Reading.line]
  split
  · exact h
  · exact h
  · exact List.forall_mem_append.2 ⟨h, by simp [messages]⟩
  · exact h
  · exact List.forall_mem_append.2 ⟨h, by simp [messages]⟩
  · split <;> exact h

theorem mem_messages_lines {r : Reading} (h : ∀ p ∈ r.problems, p.2 ∈ messages) (offset : Nat)
    (lines : List Text) : ∀ p ∈ (r.lines conditions offset lines).problems, p.2 ∈ messages := by
  induction lines generalizing r offset with
  | nil => exact h
  | cons line lines ih => exact ih (mem_messages_line h offset line) _

/-- Conditional lines are not said to be skipped. -/
theorem not_isSkipMessage {source : SourceId} {t : Text} {w : Warning}
    (hw : w ∈ (process conditions source t).warnings) : isSkipMessage w.message = false := by
  have hmessages : ∀ message ∈ messages, isSkipMessage message = false := by decide
  obtain ⟨problem, hproblem, rfl⟩ := List.mem_map.1 hw
  refine hmessages problem.2 ?_
  rcases List.mem_append.1 hproblem with hproblem | hproblem
  · exact mem_messages_lines (List.forall_mem_nil _) 0 t.lines problem hproblem
  · obtain ⟨block, -, rfl⟩ := List.mem_map.1 hproblem
    simp [messages]

end Conditional

namespace Assembly

/-- The problems with tokens that start nothing are the stray items. -/
theorem strayProblems_eq (items : List Item) :
    strayProblems items =
      (items.flatMap Item.strays).map fun token ↦ (token.span, token.skipMessage) := by
  induction items with
  | nil => rfl
  | cons i items ih =>
    rw [List.flatMap_cons, List.map_append, ← ih]
    cases i <;> rfl

/-- All other problems are not said to be skipped. -/
theorem exists_problems_ofItems (items : List Item) :
    ∃ added, (ofItems items).problems = strayProblems items ++ added ∧
      ∀ p ∈ added, isSkipMessage p.2 = false := by
  obtain ⟨added, hadded, hmarks⟩ := problems_foldl (!items.any Item.marksExport) items
    ⟨none, [], globalScope items, strayProblems items, none, 0⟩
  have hmark : isSkipMessage "#export is not followed by a declaration" = false := by decide
  refine ⟨_, (congrArg (· ++ unusedExport _) hadded).trans (List.append_assoc _ _ _), ?_⟩
  refine List.forall_mem_append.2 ⟨fun p hp ↦ ?_, fun p hp ↦ ?_⟩
  · rw [hmarks p hp, hmark]
  · rw [eq_of_mem_unusedExport hp, hmark]

end Assembly

namespace Module

variable {options : ParseOptions} {file : String} {source : Text} {m : Module}

/-- The warning about a token that starts nothing. -/
def skipWarning (m : Module) (token : Token) : Warning :=
  m.warning token.span.start token.skipMessage

/-- The tokens outside of the elements at module level are pointed out, each by one warning, and
nothing else is said to be skipped. -/
def ReportsOutside (m : Module) : Prop :=
  ∃ tokens : List Token,
    (∀ tokens', m.text.Outside (m.elements.filterMap Element.outer?) tokens' ↔ tokens' = tokens) ∧
    (m.warnings.filter fun w ↦ isSkipMessage w.message) = tokens.map m.skipWarning ∧
    ∀ token ∈ tokens, m.warnings.count (m.skipWarning token) = 1

/-- The elements of a module fit its text and each other. -/
structure WellStructured (m : Module) : Prop where
  /-- Elements at module level stand one behind the other in the text. -/
  outer : m.text.Ascending 0 (m.elements.filterMap Element.outer?) m.text.size
  /-- Every token is in one of them or is pointed out. -/
  outside : m.ReportsOutside
  /-- What is inside a declaration directly follows it. -/
  children : ∀ (i : Nat) (d : Decl), m.elements[i]? = some (.decl d) → d.firstChild = i + 1 ∧
    d.firstChild + d.childCount ≤ m.elements.length ∧
    ∀ e ∈ d.childrenIn m.elements, e.outer? = none
  /-- What is inside a declaration ends in front of the next declaration. -/
  apart : ∀ (i j : Nat) (d d' : Decl), m.elements[i]? = some (.decl d) →
    m.elements[j]? = some (.decl d') → i < j → d.firstChild + d.childCount < d'.firstChild
  /-- Whatever is not at module level is inside a declaration. -/
  owned : ∀ (j : Nat) (e : Element), m.elements[j]? = some e → e.outer? = none →
    ∃ (i : Nat) (d : Decl), m.elements[i]? = some (.decl d) ∧ d.firstChild ≤ j ∧
      j < d.firstChild + d.childCount
  /-- The name of a declaration and what is inside it stand one behind the other in its span. -/
  inside : ∀ d : Decl, .decl d ∈ m.elements → d.InOrder m.text (d.childrenIn m.elements)

/-- The warnings about skipped tokens are those about the stray items. -/
theorem filter_isSkipMessage_ofItems (file : String) (source : Text) (conditions : String → Bool)
    (items : List Item) {m : Module}
    (hm : m = ofItems file source (Conditional.process conditions ⟨file⟩ source) items) :
    (m.warnings.filter fun w ↦ isSkipMessage w.message) =
      (items.flatMap Item.strays).map m.skipWarning := by
  obtain ⟨added, hproblems, hadded⟩ := Assembly.exists_problems_ofItems items
  have hwarnings : m.warnings = (Conditional.process conditions ⟨file⟩ source).warnings ++
      ((items.flatMap Item.strays).map m.skipWarning ++
        added.map fun problem ↦ m.warning problem.1.start problem.2) := by
    have hmap := congrArg (List.map fun problem ↦ m.warning problem.1.start problem.2) hproblems
    rw [List.map_append, Assembly.strayProblems_eq, List.map_map] at hmap
    subst hm
    exact congrArg _ hmap
  have hskipped : ∀ w ∈ (items.flatMap Item.strays).map m.skipWarning,
      isSkipMessage w.message = true := by
    intro w hw
    obtain ⟨token, -, rfl⟩ := List.mem_map.1 hw
    exact isSkipMessage_skipMessage token
  rw [hwarnings, List.filter_append, List.filter_append, List.filter_eq_self.2 hskipped,
    List.filter_eq_nil_iff.2 fun w hw ↦ by simp [Conditional.not_isSkipMessage hw],
    List.filter_eq_nil_iff.2 fun w hw ↦ ?_, List.nil_append, List.append_nil]
  obtain ⟨problem, hproblem, rfl⟩ := List.mem_map.1 hw
  exact Bool.eq_false_iff.1 (hadded problem hproblem)

/-- The elements at module level take the stretches of the items. -/
theorem outer_of_items {processed : Conditional.Processed} {items : List Item}
    (hm : m = ofItems file source processed items) :
    m.elements.filterMap Element.outer? = items.flatMap Item.outerSpans := by
  rw [hm]
  exact Assembly.outer_foldl _ items _

/-- Further tokens are skipped further on. -/
theorem pairwise_skipWarning {conditions : String → Bool} {items : List Item} {tokens : List Token}
    {spans : List Span} (hm : m = ofItems file source
      (Conditional.process conditions ⟨file⟩ source) items)
    (houtside : m.text.Outside spans tokens) :
    (tokens.map m.skipWarning).Pairwise fun w w' ↦ w.offset < w'.offset := by
  obtain ⟨c', hpasses, -⟩ := houtside
  obtain ⟨-, -, hbounds, hpairwise⟩ := hpasses.bounds (.start _)
  refine List.pairwise_map.2 (hpairwise.imp_of_mem fun {a b} _ hb hlt ↦ ?_)
  have hsize := (hbounds b hb).2
  subst hm
  exact Conditional.originOffset_lt conditions ⟨file⟩ source hlt hsize

theorem reportsOutside_of_parse (h : parse options file source = .ok m) : m.ReportsOutside := by
  obtain ⟨items, c', e, hrun, hm⟩ := exists_items h
  have htext : m.text = (Conditional.process options.conditions ⟨file⟩ source).map.text := by
    rw [hm]
    rfl
  have houtside := Parser.outside_of_items hrun
  rw [← htext, ← outer_of_items hm] at houtside
  have hfilter := filter_isSkipMessage_ofItems file source options.conditions items hm
  have hnodup : ((items.flatMap Item.strays).map m.skipWarning).Nodup :=
    (pairwise_skipWarning hm houtside).imp fun hlt heq ↦ (heq ▸ hlt).ne rfl
  refine ⟨items.flatMap Item.strays, fun tokens' ↦ ⟨fun houtside' ↦ ?_, ?_⟩, hfilter,
    fun token htoken ↦ ?_⟩
  · obtain ⟨c₁, hpasses, hend⟩ := houtside
    obtain ⟨c₂, hpasses', hend'⟩ := houtside'
    exact hpasses'.unique hpasses (.start _) hend' hend
  · rintro rfl
    exact houtside
  · have hmem : m.skipWarning token ∈ (items.flatMap Item.strays).map m.skipWarning :=
      List.mem_map_of_mem htoken
    rw [← hfilter] at hnodup hmem
    have hone := List.count_eq_one_of_mem hnodup hmem
    rwa [List.count_filter (List.of_mem_filter hmem)] at hone

/-- Elements and text of a parsed module fit together. -/
theorem wellStructured_of_parse (h : parse options file source = .ok m) : m.WellStructured := by
  have hordered := elementsInOrder_of_parse h
  have hgrouped : Element.Grouped 0 m.elements := by
    obtain ⟨items, c', e, -, rfl⟩ := exists_items h
    exact Assembly.grouped_foldl (.nil 0)
  refine ⟨hordered.outer, reportsOutside_of_parse h, fun i d hd ↦ ?_, fun i j d d' hd hd' hij ↦ ?_,
    fun j e he hinner ↦ ?_, fun d hd ↦ (hordered.inside d hd).2⟩
  · -- the elements right behind a declaration are its children
    obtain ⟨hfirst, hle, hinner⟩ := hgrouped.children hd
    rw [Nat.zero_add] at hfirst
    refine ⟨hfirst, by omega, fun e he ↦ ?_⟩
    obtain ⟨k, hk⟩ := List.mem_iff_getElem?.1 he
    have hlt := (List.getElem?_eq_some_iff.1 hk).1
    rw [Decl.childrenIn, List.length_take] at hlt
    rw [Decl.childrenIn, List.getElem?_take_of_lt (by omega), List.getElem?_drop] at hk
    exact hinner _ e (by omega) (by omega) hk
  · have hfirst := (hgrouped.children hd).1
    have hfirst' := (hgrouped.children hd').1
    have hle := hgrouped.apart hd hd' hij
    omega
  · obtain ⟨i, d, hd, hij, hj⟩ := hgrouped.exists_decl he hinner
    have hfirst := (hgrouped.children hd).1
    exact ⟨i, d, hd, by omega, by omega⟩

/-- Of this text two tokens are in no element. -/
theorem wellStructured_scattered :
    ∃ m ∈ (parse .default "main"
        ("module m; ) export fn f(a: i32) \x7b let b = a; g(b); \x7d\n" ++
          "] @id(n) override x: f32;").toList).toOption,
      m.warnings.length = 2 ∧ m.WellStructured := by
  have heval : (parse .default "main"
      ("module m; ) export fn f(a: i32) \x7b let b = a; g(b); \x7d\n" ++
        "] @id(n) override x: f32;").toList).toOption.map (fun m ↦ m.warnings.length) = some 2 := by
    decide +kernel
  obtain ⟨m, hm, hlength⟩ := Option.map_eq_some_iff.1 heval
  exact ⟨m, hm, hlength, wellStructured_of_parse (Except.eq_ok_of_toOption hm)⟩

end Module

end ShaderLink
