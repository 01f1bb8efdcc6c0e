import Mathlib.Data.List.Perm.Basic
import ShaderLink.Proofs.Registry.Exporters
import ShaderLink.Proofs.Resolution.Choice

/-!
# The order of imports

Writing the imports of a module in another order puts the best matches for a reference in another
order, and any order of them can come about. So the kind of answer, the target and the candidates of
an ambiguous reference do not depend on the order (`Resolution.Alike`).

Two things do. Imports of one target with different arguments are not taken for ambiguous: the
arguments of the first one count. And of equal candidates only neighbours are listed once, so
another one in between makes a candidate appear twice. Where the best imports give no occasion for
either (`ImportMap.Settled`), the order decides nothing at all, and nowhere else
(`ImportMap.order_decides_nothing_iff`).
-/

namespace ShaderLink

/-! ### Lists in another order -/

/-- Every order of what a partial function makes of a list comes from an order of the list. -/
theorem exists_perm_filterMap {α β : Type} {f : α → Option β} {bs : List β} {as : List α}
    (h : bs.Perm (as.filterMap f)) : ∃ as' : List α, as'.Perm as ∧ as'.filterMap f = bs := by
  induction bs generalizing as with
  | nil => exact ⟨as, .refl as, (List.nil_perm.1 h)⟩
  | cons b bs ih =>
    obtain ⟨a, ha, hb⟩ := List.mem_filterMap.1 (h.subset List.mem_cons_self)
    obtain ⟨front, back, rfl⟩ := List.append_of_mem ha
    have hfirst : (front ++ a :: back).Perm (a :: (front ++ back)) := List.perm_middle
    have hrest := h.trans (hfirst.filterMap f)
    rw [List.filterMap_cons_some hb] at hrest
    obtain ⟨as', hperm, rfl⟩ := ih hrest.cons_inv
    exact ⟨a :: as', (hperm.cons a).trans hfirst.symm, List.filterMap_cons_some hb⟩

/-- If some elements of a list are the same and not all are, then in some order another one stands
between two that are the same. -/
theorem exists_perm_between {α β : Type} {f : α → β} {as : List α} (hrepeated : ¬(as.map f).Nodup)
    (hvarious : ¬∀ a ∈ as, ∀ b ∈ as, f a = f b) :
    ∃ a b a' rest, (a :: b :: a' :: rest).Perm as ∧ f a = f a' ∧ f a ≠ f b := by
  have htwice : ∃ a a' rest, (a :: a' :: rest).Perm as ∧ f a = f a' := by
    clear hvarious
    induction as with
    | nil => exact absurd List.nodup_nil hrepeated
    | cons a as ih =>
      by_cases ha : f a ∈ as.map f
      · obtain ⟨a', ha', heq⟩ := List.mem_map.1 ha
        obtain ⟨front, back, rfl⟩ := List.append_of_mem ha'
        exact ⟨a, a', front ++ back, (List.perm_middle.symm).cons a, heq.symm⟩
      · obtain ⟨b, b', rest, hperm, heq⟩ :=
          ih fun hnodup ↦ hrepeated (List.nodup_cons.2 ⟨ha, hnodup⟩)
        have hfront : (b :: b' :: a :: rest).Perm (a :: b :: b' :: rest) :=
          (List.perm_middle : ([b, b'] ++ a :: rest).Perm (a :: ([b, b'] ++ rest)))
        exact ⟨b, b', a :: rest, hfront.trans (hperm.cons a), heq⟩
  obtain ⟨a, a', rest, hperm, heq⟩ := htwice
  have hother : ∃ b ∈ as, f a ≠ f b := by
    by_contra hsame
    push Not at hsame
    exact hvarious fun b hb c hc ↦ (hsame b hb).symm.trans (hsame c hc)
  obtain ⟨b, hb, hne⟩ := hother
  rcases List.mem_cons.1 (hperm.symm.subset hb) with rfl | hb
  · exact absurd rfl hne
  rcases List.mem_cons.1 hb with rfl | hb
  · exact absurd heq hne
  obtain ⟨front, back, rfl⟩ := List.append_of_mem hb
  have hbetween : (b :: a' :: (front ++ back)).Perm (a' :: (front ++ b :: back)) :=
    (List.perm_middle : (a' :: front ++ b :: back).Perm (b :: (a' :: front ++ back))).symm
  exact ⟨a, b, a', front ++ back, (hbetween.cons a).trans hperm, heq, hne⟩

section EraseReps

variable {α : Type} [BEq α] [LawfulBEq α] {as : List α}

theorem eraseReps_of_nodup (h : as.Nodup) : as.eraseReps = as := by
  induction as with
  | nil => rfl
  | cons a as ih =>
    obtain ⟨ha, has⟩ := List.nodup_cons.1 h
    cases as with
    | nil => rfl
    | cons b as =>
      have hne : ¬(a == b) = true := fun heq ↦ ha (beq_iff_eq.1 heq ▸ List.mem_cons_self)
      rw [eraseReps_cons_cons, if_neg hne, ih has]

/-- Of elements that are all the same, one is left. -/
theorem nodup_eraseReps_of_forall_eq (h : ∀ a ∈ as, ∀ b ∈ as, a = b) : as.eraseReps.Nodup := by
  induction as with
  | nil => exact List.nodup_nil
  | cons a as ih =>
    cases as with
    | nil => exact List.nodup_singleton a
    | cons b as =>
      rw [eraseReps_cons_cons, if_pos (beq_iff_eq.2 (h a (by simp) b (by simp)))]
      exact ih fun c hc d hd ↦ h c (List.mem_cons_of_mem a hc) d (List.mem_cons_of_mem a hd)

/-- What stands between two that are the same keeps both. -/
theorem not_nodup_eraseReps {a b : α} (hne : a ≠ b) (as : List α) :
    ¬(a :: b :: a :: as).eraseReps.Nodup := by
  rw [eraseReps_cons_cons, if_neg (by simpa using hne)]
  exact fun hnodup ↦ (List.nodup_cons.1 hnodup).1 (mem_eraseReps_iff.2 (by simp))

end EraseReps

/-! ### Answers -/

namespace Resolution

/-- Two answers of one kind, with the same target or the same candidates. -/
inductive Alike : Resolution → Resolution → Prop
  | found {target : Target} {path path' : List String} {args args' : Option (List String)} :
    Alike (.found target path args) (.found target path' args')
  | unresolved : Alike .unresolved .unresolved
  | ambiguous {paths paths' : List String} (hpaths : ∀ path, path ∈ paths ↔ path ∈ paths') :
    Alike (.ambiguous paths) (.ambiguous paths')

/-- Two answers that are alike, and say the same about arguments. Each candidate is listed once. -/
inductive Agrees : Resolution → Resolution → Prop
  | found {target : Target} {path path' : List String} {args : Option (List String)} :
    Agrees (.found target path args) (.found target path' args)
  | unresolved : Agrees .unresolved .unresolved
  | ambiguous {paths paths' : List String} (hnodup : paths.Nodup) (hnodup' : paths'.Nodup)
    (hpaths : ∀ path, path ∈ paths ↔ path ∈ paths') :
    Agrees (.ambiguous paths) (.ambiguous paths')

variable {resolution : Resolution} {target : Target} {path : List String}
  {args : Option (List String)} {paths : List String}

theorem Agrees.eq_found (h : resolution.Agrees (.found target path args)) :
    ∃ path', resolution = .found target path' args := by
  cases h
  exact ⟨_, rfl⟩

theorem Agrees.nodup (h : resolution.Agrees (.ambiguous paths)) : paths.Nodup := by
  cases h
  assumption

end Resolution

namespace ImportMap

variable {imports : ImportMap} {reference : List String} {entries : List ImportEntry}

/-- The best matches give the order of imports nothing to decide. -/
structure Settled (imports : ImportMap) (reference : List String) : Prop where
  /-- Those of one target have the same arguments. -/
  args : (∀ c ∈ imports.bestMatches reference, ∀ d ∈ imports.bestMatches reference,
      c.target = d.target) →
    ∀ c ∈ imports.bestMatches reference, ∀ d ∈ imports.bestMatches reference, c.args = d.args
  /-- Those of several targets have candidates that are all different, or all the same. -/
  candidates : (∃ c ∈ imports.bestMatches reference, ∃ d ∈ imports.bestMatches reference,
      c.target ≠ d.target) →
    ((imports.bestMatches reference).map ImportMatch.candidate).Nodup ∨
      ∀ c ∈ imports.bestMatches reference, ∀ d ∈ imports.bestMatches reference,
        c.candidate = d.candidate

/-! ### The best matches in another order -/

theorem longest_perm {all all' : List ImportMatch} (h : all.Perm all') :
    Shortlist.longest all = Shortlist.longest all' :=
  (h.map ImportMatch.overlap).foldl_eq 0

/-- The order of imports does not change which matches are the best. -/
theorem bestMatches_reorder (h : entries.Perm imports.entries) :
    ({ imports with entries } : ImportMap).bestMatches reference =
      entries.filterMap (imports.bestMatch? reference) := by
  have hmatches : (({ imports with entries } : ImportMap).matchesOf reference).Perm
      (imports.matchesOf reference) := h.filterMap _
  rw [bestMatches_eq_filterMap]
  refine List.filterMap_congr fun e _ ↦ ?_
  rw [bestMatch?, bestMatch?, longest_perm hmatches]
  rfl

theorem bestMatches_perm (reference : List String) (h : entries.Perm imports.entries) :
    (({ imports with entries } : ImportMap).bestMatches reference).Perm
      (imports.bestMatches reference) := by
  rw [bestMatches_reorder h, bestMatches_eq_filterMap]
  exact h.filterMap _

/-- Any order of the best matches is that for some order of imports. -/
theorem exists_bestMatches_eq {best : List ImportMatch}
    (h : best.Perm (imports.bestMatches reference)) : ∃ entries, entries.Perm imports.entries ∧
      ({ imports with entries } : ImportMap).bestMatches reference = best := by
  rw [bestMatches_eq_filterMap] at h
  obtain ⟨entries, hperm, hbest⟩ := exists_perm_filterMap h
  exact ⟨entries, hperm, (bestMatches_reorder hperm).trans hbest⟩

/-! ### The answer in another order -/

theorem unresolved_of_perm (h : entries.Perm imports.entries)
    (hresolve : imports.resolve reference = .unresolved) :
    ({ imports with entries } : ImportMap).resolve reference = .unresolved := by
  have hnil := bestMatches_eq_nil_iff.2 (resolve_eq_unresolved_iff.1 hresolve)
  have hperm := bestMatches_perm reference h
  rw [hnil, List.perm_nil] at hperm
  exact resolve_eq_unresolved_iff.2 (bestMatches_eq_nil_iff.1 hperm)

/-- The same target is found, by one of the best matches. -/
theorem found_of_perm (h : entries.Perm imports.entries) {target : Target} {path : List String}
    {args : Option (List String)} (hresolve : imports.resolve reference = .found target path args) :
    ∃ c ∈ imports.bestMatches reference,
      ({ imports with entries } : ImportMap).resolve reference =
        .found target c.exportPath c.args := by
  obtain ⟨c, cs, hcons, htarget, -, -⟩ := resolve_eq_found_iff.1 hresolve
  have hperm := bestMatches_perm reference h
  rw [hcons] at hperm
  cases hcons' : ({ imports with entries } : ImportMap).bestMatches reference with
  | nil => exact absurd (hcons' ▸ hperm).symm.eq_nil (List.cons_ne_nil c cs)
  | cons d ds =>
    refine ⟨d, hcons ▸ hperm.subset (hcons' ▸ List.mem_cons_self), ?_⟩
    exact resolve_eq_found_iff.2 ⟨d, ds, hcons', fun d' hd' ↦
      htarget d' (hperm.subset (hcons' ▸ hd')), rfl, rfl⟩

/-- The candidates are those of the best matches, in the order of these. -/
theorem ambiguous_of_perm (h : entries.Perm imports.entries) {paths : List String}
    (hresolve : imports.resolve reference = .ambiguous paths) :
    ({ imports with entries } : ImportMap).resolve reference = .ambiguous
      ((({ imports with entries } : ImportMap).bestMatches reference).map
        ImportMatch.candidate).eraseReps := by
  obtain ⟨⟨c, hc, d, hd, hne⟩, -⟩ := resolve_eq_ambiguous_iff.1 hresolve
  have hsubset := (bestMatches_perm reference h).symm.subset
  exact resolve_eq_ambiguous_iff.2 ⟨⟨c, hsubset hc, d, hsubset hd, hne⟩, rfl⟩

theorem alike_of_perm (reference : List String) (h : entries.Perm imports.entries) :
    (imports.resolve reference).Alike
      (({ imports with entries } : ImportMap).resolve reference) := by
  cases hresolve : imports.resolve reference with
  | unresolved =>
    rw [unresolved_of_perm h hresolve]
    exact .unresolved
  | found target path args =>
    obtain ⟨c, -, hfound⟩ := found_of_perm h hresolve
    rw [hfound]
    exact .found
  | ambiguous paths =>
    rw [ambiguous_of_perm h hresolve, (resolve_eq_ambiguous_iff.1 hresolve).2]
    refine .ambiguous fun path ↦ ?_
    rw [mem_eraseReps_iff, mem_eraseReps_iff]
    exact ((bestMatches_perm reference h).map _).symm.mem_iff

theorem agrees_of_settled (hsettled : imports.Settled reference)
    (h : entries.Perm imports.entries) : (imports.resolve reference).Agrees
      (({ imports with entries } : ImportMap).resolve reference) := by
  have halike := alike_of_perm reference h
  cases hresolve : imports.resolve reference with
  | unresolved =>
    rw [unresolved_of_perm h hresolve]
    exact .unresolved
  | found target path args =>
    obtain ⟨d, hd, hfound⟩ := found_of_perm h hresolve
    obtain ⟨c, cs, hcons, htarget, -, rfl⟩ := resolve_eq_found_iff.1 hresolve
    rw [← hcons] at htarget
    rw [hfound, hsettled.args (fun c hc d hd ↦ (htarget c hc).trans (htarget d hd).symm) c
      (hcons ▸ List.mem_cons_self) d hd]
    exact .found
  | ambiguous paths =>
    obtain ⟨hdiffer, rfl⟩ := resolve_eq_ambiguous_iff.1 hresolve
    rw [hresolve, ambiguous_of_perm h hresolve] at halike
    rw [ambiguous_of_perm h hresolve]
    cases halike with
    | ambiguous hpaths =>
      -- whether no candidate stands twice does not depend on the order either
      have hnodup {best : List ImportMatch} (hperm : best.Perm (imports.bestMatches reference)) :
          (best.map ImportMatch.candidate).eraseReps.Nodup := by
        rcases hsettled.candidates hdiffer with hnodup | hsame
        · have hnodup := (hperm.map ImportMatch.candidate).nodup_iff.2 hnodup
          rwa [eraseReps_of_nodup hnodup]
        · refine nodup_eraseReps_of_forall_eq fun p hp q hq ↦ ?_
          obtain ⟨c, hc, rfl⟩ := List.mem_map.1 hp
          obtain ⟨d, hd, rfl⟩ := List.mem_map.1 hq
          exact hsame c (hperm.subset hc) d (hperm.subset hd)
      exact .ambiguous (hnodup (.refl _)) (hnodup (bestMatches_perm reference h)) hpaths

section Agrees

variable (h : ∀ entries, entries.Perm imports.entries →
  (imports.resolve reference).Agrees (({ imports with entries } : ImportMap).resolve reference))
include h

/-- Any of the best matches can come first and give its arguments. -/
theorem exists_found_args {target : Target}
    (htarget : ∀ c ∈ imports.bestMatches reference, c.target = target) {c : ImportMatch}
    (hc : c ∈ imports.bestMatches reference) :
    ∃ path, imports.resolve reference = .found target path c.args := by
  obtain ⟨front, back, hbest⟩ := List.append_of_mem hc
  have hfirst : (c :: (front ++ back)).Perm (imports.bestMatches reference) :=
    hbest ▸ List.perm_middle.symm
  obtain ⟨entries, hperm, hcons⟩ := exists_bestMatches_eq hfirst
  have hfound := resolve_eq_found_iff.2
    ⟨c, _, hcons, fun d hd ↦ htarget d (hfirst.subset hd), rfl, rfl⟩
  exact (hfound ▸ h entries hperm).eq_found

theorem settled_of_agrees : imports.Settled reference where
  args := by
    intro hsame c hc d hd
    obtain ⟨path, hpath⟩ := exists_found_args h (fun d hd ↦ hsame d hd c hc) hc
    obtain ⟨path', hpath'⟩ := exists_found_args h (fun d hd ↦ hsame d hd c hc) hd
    exact (Resolution.found.inj (hpath.symm.trans hpath')).2.2
  candidates := by
    rintro ⟨c, hc, d, hd, hne⟩
    by_contra hsettled
    obtain ⟨hrepeated, hvarious⟩ := not_or.1 hsettled
    obtain ⟨a, b, a', rest, hperm, heq, hother⟩ := exists_perm_between hrepeated hvarious
    obtain ⟨entries, hentries, hbest⟩ := exists_bestMatches_eq hperm
    have hambiguous := resolve_eq_ambiguous_iff.2
      ⟨⟨c, hbest ▸ hperm.symm.subset hc, d, hbest ▸ hperm.symm.subset hd, hne⟩, rfl⟩
    have hnodup := (hambiguous ▸ h entries hentries).nodup
    rw [hbest, List.map_cons, List.map_cons, List.map_cons, ← heq] at hnodup
    exact not_nodup_eraseReps hother _ hnodup

end Agrees

/-- The order of imports decides neither on the kind of answer nor on the target or the set of
candidates. It decides on nothing else either, and each candidate is listed once in every order, if
and only if the best matches of one target have the same arguments, and the candidates of several
targets are all different or all the same. -/
theorem order_decides_nothing_iff (imports : ImportMap) (reference : List String) :
    (∀ entries, entries.Perm imports.entries → (imports.resolve reference).Alike
      (({ imports with entries } : ImportMap).resolve reference)) ∧
    ((∀ entries, entries.Perm imports.entries → (imports.resolve reference).Agrees
      (({ imports with entries } : ImportMap).resolve reference)) ↔ imports.Settled reference) :=
  ⟨fun _ ↦ alike_of_perm reference, settled_of_agrees, fun h _ ↦ agrees_of_settled h⟩

end ImportMap

namespace Registry

/-- A module that imports one function with different arguments, and two functions of one name, one
of them again behind the other. -/
def arguing : Registry :=
  ofSources .default
    [("main", ("import lib/f(i32);\nimport lib/f(f32);\n" ++
        "import a/g;\nimport b/g;\nimport a/g;\n").toList),
      ("lib", "#export(T)\nfn f(x: T) \x7b\x7d\n".toList), ("a", "fn g() \x7b\x7d\n".toList),
      ("b", "fn g() \x7b\x7d\n".toList)] []

/-- For both of the names, some order of the imports does not agree with the one written. -/
theorem order_decides_nothing_iff_arguing : ∃ main imports warnings,
    arguing.module? ["main"] = some main ∧
    main.importMap arguing = .ok (imports, warnings) ∧
    ∀ name ∈ ["f", "g"], ∃ entries, entries.Perm imports.entries ∧
      ¬(imports.resolve [name]).Agrees (({ imports with entries } : ImportMap).resolve [name]) := by
  have heval : (do
      let main ← arguing.module? ["main"]
      let (imports, _) ← (main.importMap arguing).toOption
      return (imports.bestMatches ["f"], imports.bestMatches ["g"])) =
      some ([⟨1, .decl ["lib"] 1, ["lib", "f"], some ["i32"]⟩,
          ⟨1, .decl ["lib"] 1, ["lib", "f"], some ["f32"]⟩],
        [⟨1, .decl ["a"] 0, ["a", "g"], none⟩, ⟨1, .decl ["b"] 0, ["b", "g"], none⟩,
          ⟨1, .decl ["a"] 0, ["a", "g"], none⟩]) := by
    decide +kernel
  generalize arguing = r at heval ⊢
  obtain ⟨main, hmain, heval⟩ := Option.bind_eq_some_iff.1 heval
  obtain ⟨⟨imports, warnings⟩, himports, heval⟩ := Option.bind_eq_some_iff.1 heval
  obtain ⟨hf, hg⟩ := Prod.mk.inj (Option.some.inj heval)
  refine ⟨main, imports, warnings, hmain, Except.eq_ok_of_toOption himports, fun name hname ↦ ?_⟩
  have hunsettled : ¬imports.Settled [name] := by
    rintro ⟨hargs, hcandidates⟩
    rcases List.mem_pair.1 hname with rfl | rfl
    · rw [hf] at hargs
      exact absurd hargs (by decide)
    · rw [hg] at hcandidates
      exact absurd hcandidates (by decide)
  by_contra hagrees
  push Not at hagrees
  exact hunsettled ((ImportMap.order_decides_nothing_iff imports [name]).2.1 hagrees)

end Registry

end ShaderLink
