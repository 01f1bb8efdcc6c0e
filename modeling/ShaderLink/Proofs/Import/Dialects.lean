import ShaderLink.Proofs.Import.RoundTrip

/-!
# The two dialects agree

What is imported `from` a module in one dialect is what stands behind the path of the module in the
other (`ImportTree.dialects_agree`). The one puts the tree below the path as it is
(`ImportTree.under`), the other has read the path as the beginning of the tree
(`ImportTree.behind`). These differ for a tree that is a path itself, which the first leaves below
another one, but they have the same leaves.
-/

namespace ShaderLink

open Lexeme

/-! ### Paths to modules -/

/-- The lexemes are those of names with separators between them. -/
inductive NamesPrinting : List String → List Lexeme → Prop
  | last {s : String} (hs : IsWord s) : NamesPrinting [s] [word s]
  | cons {s separator : String} {names : List String} {xs : List Lexeme} (hs : IsWord s)
    (hseparator : separator ∈ ["/", "::", "."]) (h : NamesPrinting names xs) :
    NamesPrinting (s :: names) (word s :: symbol separator :: xs)

/-- The lexemes are those of a path to a module, which ends with a name. -/
inductive ModulePath.Printing : List String → List Lexeme → Prop
  | names {names : List String} {xs : List Lexeme} (h : NamesPrinting names xs) : Printing names xs
  | marker {s : String} {segments : List String} {xs : List Lexeme} (hs : IsMarker s)
    (h : Printing segments xs) : Printing (s :: segments) (marker (s ++ "/") :: xs)

/-- The path may be written as the text. -/
def ModulePath.Prints (path : List String) (t : Text) : Prop :=
  ∃ xs, ModulePath.Printing path xs ∧ Spaced xs t

namespace NamesPrinting

variable {names : List String} {xs : List Lexeme} {separator : String}

/-- The names that are printed are words. -/
theorem isWord (h : NamesPrinting names xs) : ∀ s ∈ names, IsWord s := by
  induction h with
  | last hs => exact List.forall_mem_singleton.2 hs
  | cons hs _ _ ih => exact List.forall_mem_cons.2 ⟨hs, ih⟩

theorem signless (h : NamesPrinting names xs) : Signless xs := by
  induction h with
  | last hs => exact .cons (signless_word hs) .nil
  | cons hs hseparator _ ih =>
    exact .cons (signless_word hs) (.cons (signless_separator hseparator) ih)

/-- With a separator behind them, names lead on to something else. -/
theorem pathPrinting (h : NamesPrinting names xs) (hseparator : separator ∈ ["/", "::", "."]) :
    PathPrinting names (xs ++ [symbol separator]) := by
  induction h with
  | last hs => exact .name (fun hmarker ↦ hmarker.not_isWord hs) hseparator .nil
  | cons hs hseparator' _ ih => exact .name (fun hmarker ↦ hmarker.not_isWord hs) hseparator' ih

end NamesPrinting

namespace ModulePath.Printing

variable {path : List String} {xs : List Lexeme} {separator : String}

/-- Only paths to modules are printed. -/
theorem isPath (h : Printing path xs) : IsPath path := by
  induction h with
  | names h => exact ⟨[], _, rfl, List.forall_mem_nil _, h.isWord⟩
  | marker hs _ ih =>
    obtain ⟨markers, names, rfl, hmarkers, hnames⟩ := ih
    exact ⟨_ :: markers, names, rfl, List.forall_mem_cons.2 ⟨hs, hmarkers⟩, hnames⟩

theorem ne_nil (h : Printing path xs) : path ≠ [] := by
  cases h with
  | names h => cases h <;> exact List.cons_ne_nil _ _
  | marker => exact List.cons_ne_nil _ _

theorem signless (h : Printing path xs) : Signless xs := by
  induction h with
  | names h => exact h.signless
  | marker hs _ ih => exact .cons (signless_marker hs) ih

/-- With a separator behind it, a path leads on to something else. -/
theorem pathPrinting (h : Printing path xs) (hseparator : separator ∈ ["/", "::", "."]) :
    PathPrinting path (xs ++ [symbol separator]) := by
  induction h with
  | names h => exact h.pathPrinting hseparator
  | marker hs _ ih => exact .marker hs ih

/-- A path has its markers in front. -/
theorem exists_names (h : Printing path xs) :
    ∃ markers names ms ns, path = markers ++ names ∧ xs = ms ++ ns ∧ PathPrinting markers ms ∧
      (∀ s ∈ markers, IsMarker s) ∧ NamesPrinting names ns := by
  induction h with
  | names h => exact ⟨[], _, [], _, rfl, rfl, .nil, List.forall_mem_nil _, h⟩
  | marker hs _ ih =>
    obtain ⟨markers, names, ms, ns, rfl, rfl, hms, hmarkers, hns⟩ := ih
    exact ⟨_, names, _, ns, rfl, rfl, .marker hs hms, List.forall_mem_cons.2 ⟨hs, hmarkers⟩, hns⟩

end ModulePath.Printing

/-! ### Reading paths -/

theorem isIdentifier_from : Text.IsIdentifier "from".toList := by
  decide

/-- A path ends in front of `from`. -/
theorem stops_from (xs : List Lexeme) : Stops (keyword "from" :: xs) := by
  rintro _ _ heq
  obtain ⟨rfl, rfl⟩ := List.cons.inj heq
  exact ⟨.word isIdentifier_from, by decide⟩

namespace Parser

variable {n m : Nat} {xs ys : List Lexeme} {path : List String} {tree : ImportTree} {s : String}
  {names : List String}

/-- Behind the first name, the others are read in the rounds of a loop. -/
theorem exists_manyNames (hn : 1 < n) (h : NamesPrinting names xs) (hys : Stops ys) :
    ∃ s more zs, names = s :: more ∧ xs = Lexeme.word s :: zs ∧ IsWord s ∧
      ∀ m, more.length < m →
        (manyWithin (pathSeparator *> directiveWord) m).Takes n (zs ++ ys) (· = more) ys := by
  induction h with
  | @last s hs =>
    refine ⟨s, [], [], rfl, rfl, hs, fun m hm ↦ ?_⟩
    obtain ⟨m, rfl⟩ := Nat.exists_eq_add_of_lt hm
    have hseparators : ∀ s ∈ ["/", "::", "."], (Parser.mark s).Declines n ys :=
      fun s hs ↦ .mark_of_stops hn hys (List.mem_append_left ["(", "as"] hs)
    exact .manyWithin_nil (Declines.pathSeparator hseparators).bind _
  | @cons s separator names xs hs hseparator h ih =>
    obtain ⟨s', more, zs, rfl, rfl, hs', hmore⟩ := ih
    refine ⟨s, s' :: more, _, rfl, rfl, hs, fun m hm ↦ ?_⟩
    obtain ⟨m, rfl⟩ : ∃ k, m = k + 1 := ⟨m - 1, by omega⟩
    have hopens : (Lexeme.word s').Opens := Opening.opens (.inl ⟨rfl, hs'⟩)
    have hfirst := (Takes.pathSeparator hn hseparator hopens).seqRight (.name hn hs' (zs ++ ys))
    refine hfirst.manyWithin_cons (hmore m (Nat.lt_of_succ_lt_succ hm)) ?_
    rintro _ _ rfl rfl
    rfl

/-- A path without an extension at its end stays as it is. -/
theorem dropExtension_eq (hlast : ∀ s ∈ path.getLast?, s ∉ ["wgsl", "wesl"]) :
    dropExtension path = path := by
  have hnone : path.getLast?.any (["wgsl", "wesl"].contains ·) = false := by
    cases hend : path.getLast? with
    | none => rfl
    | some s =>
      refine Bool.eq_false_iff.2 fun hany ↦ hlast s hend ?_
      exact List.contains_iff_mem.1 hany
  rw [dropExtension, hnone, Bool.and_false]
  rfl

/-- A path is read up to what is not part of it, and then its extension is dropped. -/
theorem Takes.modulePath (hn : 1 < n) (h : ModulePath.Printing path xs) (hys : Stops ys)
    (hlength : path.length < n) :
    Parser.modulePath.Takes n (xs ++ ys) (· = dropExtension path) ys := by
  obtain ⟨markers, names, ms, ns, rfl, rfl, hms, hmarkers, hns⟩ := h.exists_names
  obtain ⟨s, more, zs, rfl, rfl, hs, hmore⟩ := exists_manyNames hn hns hys
  rw [List.length_append, List.length_cons] at hlength
  have hstop : (Parser.ofKind .directive .relativePrefix).Declines n (Lexeme.word s :: zs ++ ys) :=
    .ofKind hn (.word hs) (by decide : TokenKind.word ≠ _)
  have hnames := (Takes.name hn hs (zs ++ ys)).separated₁ (hmore n (by omega))
    (S := (· = s :: more)) fun a as ha has ↦ by rw [ha, has]
  rw [List.append_assoc]
  refine (Takes.relativeMarkers hn hmarkers hms hstop (by omega)).bind ?_
  rintro _ rfl
  refine hnames.bind ?_
  rintro _ rfl
  exact .pure rfl

/-- The tree and the module it is from are read. -/
theorem Takes.importFrom (hn : 1 < n) (h : tree.Printing xs) (hnormal : tree.Normal)
    (hpath : ModulePath.Printing path ys) (hlast : ∀ s ∈ path.getLast?, s ∉ ["wgsl", "wesl"])
    {zs : List Lexeme} (hzs : Stops zs) (hlength : xs.length < n) (hlength' : path.length < n) :
    Parser.importFrom.Takes n (xs ++ keyword "from" :: (ys ++ zs)) (· = tree.under path) zs := by
  have hmark : (Parser.mark "from").Takes n (keyword "from" :: (ys ++ zs)) _ (ys ++ zs) :=
    .mark hn (.word isIdentifier_from) (is_keyword "from")
  have hread := Takes.modulePath hn hpath hzs hlength'
  rw [dropExtension_eq hlast] at hread
  have hfrom := hmark.seqRight (hread.commit "module path")
  refine (Takes.importTree h hnormal (stops_from _) hlength).bind ?_
  rintro _ rfl
  refine hfrom.optional_some.bind ?_
  rintro _ ⟨_, rfl, rfl⟩
  exact .pure rfl

end Parser

/-! ### Trees behind paths -/

/-- Printed paths are put one behind the other. -/
theorem PathPrinting.append {path segments : List String} {xs ys : List Lexeme}
    (h : PathPrinting path xs) (hys : PathPrinting segments ys) :
    PathPrinting (path ++ segments) (xs ++ ys) := by
  induction h with
  | nil => exact hys
  | marker hs _ ih => exact .marker hs ih
  | name hs hseparator _ ih => exact .name hs hseparator ih

/-- A marker of relative paths is `.` or `..`. -/
theorem isMarker_iff {s : String} : ModulePath.isMarker s = true ↔ IsMarker s := by
  rw [ModulePath.isMarker, Bool.or_eq_true, beq_iff_eq, beq_iff_eq]
  rfl

/-- What goes on with a path has no markers of its own. -/
theorem IsPath.append {path segments : List String} (h : IsPath path) (hsegments : IsPath segments)
    (hrelative : segments.head?.any ModulePath.isMarker = false) : IsPath (path ++ segments) := by
  obtain ⟨markers, names, rfl, hmarkers, hnames⟩ := h
  obtain ⟨markers', names', rfl, hmarkers', hnames'⟩ := hsegments
  cases markers' with
  | nil =>
    exact ⟨markers, names ++ names', List.append_assoc _ _ _, hmarkers,
      List.forall_mem_append.2 ⟨hnames, hnames'⟩⟩
  | cons s markers' =>
    have hmarker := isMarker_iff.2 (hmarkers' s List.mem_cons_self)
    exact absurd hmarker (Bool.eq_false_iff.1 hrelative)

namespace ImportTree

variable {tree : ImportTree} {path : List String} {xs ys : List Lexeme} {separator : String}

/-- Whether the tree starts with a marker. -/
def isRelative : ImportTree → Bool
  | .path segments _ => segments.head?.any ModulePath.isMarker
  | _ => false

/-- The tree behind a path. If it is a path itself, both are one. -/
def behind (path : List String) : ImportTree → ImportTree
  | .path segments tail => .path (path ++ segments) tail
  | tree => .path path tree

/-- A tree behind a path has the leaves that it has under the path. -/
theorem leaves_behind (path : List String) (tree : ImportTree) :
    (tree.behind path).leaves = (tree.under path).leaves := by
  rw [leaves, leaves, leavesBelow_under]
  cases tree with
  | path segments tail => simp [behind, leavesBelow]
  | _ => rfl

/-- The two trees are the same, unless a path is put in front of a path. -/
theorem behind_eq_under (hne : path ≠ []) (hpath : tree.isPath = false) :
    tree.behind path = tree.under path := by
  rw [under_of_ne_nil hne]
  cases tree with
  | path => cases hpath
  | _ => rfl

/-- Behind a path and a separator, a tree goes on with the path. -/
theorem Printing.behind (h : tree.Printing ys) (hpath : PathPrinting path xs) :
    (tree.behind path).Printing (xs ++ ys) := by
  cases h with
  | path hsegments h =>
    rw [← List.append_assoc]
    exact .path (hpath.append hsegments) h
  | item => exact .path hpath (.item _ _ _)
  | wildcard => exact .path hpath (.wildcard _)
  | list h => exact .path hpath (.list h)

/-- Such a tree is normal if the one behind the path is not relative. -/
theorem Normal.behind (h : tree.Normal) (hrelative : tree.isRelative = false) (hpath : IsPath path)
    (hne : path ≠ []) : (tree.behind path).Normal := by
  cases tree with
  | path segments tail =>
    obtain ⟨hsegments, -, htail, hnormal⟩ := h
    exact ⟨hpath.append hsegments hrelative, List.append_ne_nil_of_left_ne_nil hne _, htail,
      hnormal⟩
  | item => exact ⟨hpath, hne, rfl, h⟩
  | wildcard => exact ⟨hpath, hne, rfl, h⟩
  | list => exact ⟨hpath, hne, rfl, h⟩

theorem spaced_from {t : Text} (h : Spaced xs t) :
    Spaced (keyword "from" :: xs) (" from ".toList ++ t) := by
  have hblank : Text.IsSpacing [' '] := List.forall_mem_singleton.2 (by decide)
  have hapart : (keyword "from").Apart (' ' :: t) := ⟨fun _ ↦ rfl, fun h ↦ absurd h (by decide)⟩
  have hspaced : Spaced xs (' ' :: t) := h.behind hblank
  exact hspaced.cons hblank hapart

/-- **Both dialects agree.** Importing a tree from a module, and importing it behind the path of the
module, is accepted in either case and imports the same leaves. It is the same tree unless the tree
is itself a path. -/
theorem dialects_agree {t p e : Text} (hnormal : tree.Normal) (hrelative : tree.isRelative = false)
    (ht : tree.Prints t) (hp : ModulePath.Prints path p)
    (hlast : ∀ s ∈ path.getLast?, s ∉ ["wgsl", "wesl"]) (he : e ∈ [[], [';']]) :
    ∃ directive statement : ImportTree,
      Text.IsImport ("#import ".toList ++ t ++ " from ".toList ++ p ++ e) .directive directive ∧
      Text.IsImport ("import ".toList ++ p ++ ['/'] ++ t ++ e) .tree statement ∧
      directive.leaves = statement.leaves ∧ (tree.isPath = false → directive = statement) := by
  obtain ⟨xs, hxs, ht⟩ := ht
  obtain ⟨ps, hps, hp⟩ := hp
  obtain ⟨es, hes, hsignless, hend⟩ := LineEnds.exists_of_mem he
  have hslash : "/" ∈ ["/", "::", "."] := by decide
  have hlength := (hps.pathPrinting hslash).length_le
  rw [List.length_append] at hlength
  refine ⟨tree.under path, tree.behind path, ?_, ?_, (leaves_behind path tree).symm,
    fun hpath ↦ (behind_eq_under hps.ne_nil hpath).symm⟩
  · -- the directive, where the path stands behind the tree
    have hspaced :
        Spaced (xs ++ keyword "from" :: (ps ++ es)) (t ++ (" from ".toList ++ (p ++ e))) :=
      ht.append (spaced_from (hend hp)) rfl fun h ↦ absurd (Option.some.inj h) (by decide)
    have hall : Signless (xs ++ keyword "from" :: (ps ++ es)) :=
      (hxs.signless hnormal).append (.cons (by decide) (hps.signless.append hsignless))
    simp only [List.append_assoc]
    show Text.IsImport (ImportDialect.directive.opening.text ++
      ' ' :: (t ++ (" from ".toList ++ (p ++ e)))) .directive (tree.under path)
    refine Text.isImport hspaced hall (fun n hn hless ↦ ?_) hes
    simp only [List.length_append, List.length_cons, List.length_nil] at hlength hless
    exact .importFrom hn hxs hnormal hps hlast hes.stops (by omega) (by omega)
  · -- the statement, where it stands in front of it
    have hapart : (symbol "/").Apart (t ++ e) := ⟨nofun, fun h ↦ absurd h (by decide)⟩
    have hspaced : Spaced (ps ++ symbol "/" :: (xs ++ es)) (p ++ '/' :: (t ++ e)) :=
      hp.append (.cons_next hapart (hend ht)) rfl fun h ↦ absurd (Option.some.inj h) (by decide)
    have hall : Signless (ps ++ symbol "/" :: (xs ++ es)) :=
      hps.signless.append (.cons (by decide) ((hxs.signless hnormal).append hsignless))
    have hbehind := hxs.behind (hps.pathPrinting hslash)
    simp only [List.append_assoc]
    show Text.IsImport (ImportDialect.tree.opening.text ++ ' ' :: (p ++ '/' :: (t ++ e))) .tree
      (tree.behind path)
    refine Text.isImport hspaced hall (fun n hn hless ↦ ?_) hes
    have hread := Parser.Takes.importTree hbehind (hnormal.behind hrelative hps.isPath hps.ne_nil)
      hes.stops (n := n)
    simp only [List.length_append, List.length_cons, List.append_assoc, List.cons_append,
      List.nil_append] at hread hless
    exact hread (by omega)

/-- `a as b` from `../m` is `../m/a as b`. -/
theorem dialects_agree_renamed : (ImportTree.item "a" (some "b") none).Normal ∧
    ∃ directive statement : ImportTree,
      Text.IsImport ("#import ".toList ++ "a as b".toList ++ " from ".toList ++ "../m".toList ++ [])
        .directive directive ∧
      Text.IsImport ("import ".toList ++ "../m".toList ++ ['/'] ++ "a as b".toList ++ []) .tree
        statement ∧
      directive.leaves = statement.leaves ∧
      ((ImportTree.item "a" (some "b") none).isPath = false → directive = statement) := by
  have hnormal : (ImportTree.item "a" (some "b") none).Normal := ⟨by decide, by decide, nofun⟩
  have hend : Spaced [] [] := List.forall_mem_nil _
  have hblank : Text.IsSpacing [' '] := List.forall_mem_singleton.2 (by decide)
  have ht : (ImportTree.item "a" (some "b") none).Prints "a as b".toList := by
    refine ⟨_, .item "a" (some "b") none, .cons_next (by decide) ?_⟩
    have hname : Spaced [word "b"] "b".toList := .cons_next (by decide) hend
    exact (Spaced.cons (hname.behind hblank) hblank (by decide) : Spaced (keyword "as" :: _) _)
  have hp : ModulePath.Prints ["..", "m"] "../m".toList :=
    ⟨_, .marker (.inr rfl) (.names (.last (by decide))), .cons_next (by decide)
      (.cons_next (by decide) hend)⟩
  exact ⟨hnormal, dialects_agree hnormal rfl ht hp (by decide) (by decide)⟩

end ImportTree

end ShaderLink
