import Mathlib.Data.List.Nodup
import ShaderLink.Proofs.Resolution.Target

/-!
# What resolution chooses

A reference is found if all best imports lead it to one target, and then by the first of them; it is
ambiguous if they lead to several, and unresolved if no import contributes at all. Whatever is found
is an exported declaration or a generator of the registry, under the path it was found by
(`Module.resolves_to_best`).

An import contributes by its longest overlap only. An overlap that is not the longest is not tried,
even if the longest leads to no export. This takes a path in which a segment stands twice, like
`util/util`: there `util::util` overlaps with both segments, and what `util` alone leaves of it is
not looked up. Resolution falls back from one import to another, though, and there is no other way
to miss an export (`ImportMap.falls_back_iff`).
-/

namespace ShaderLink

/-- What a match is listed as where a reference is ambiguous. -/
def ImportMatch.candidate (c : ImportMatch) : String :=
  codePath c.exportPath

namespace ImportMap

variable (imports : ImportMap) (reference : List String)

/-- One of the best imports, and none of those written in front of it. -/
structure FirstBest (e : ImportEntry) (k : Nat) (target : Target) : Prop where
  best : imports.Best reference e k target
  first : ∃ front back, imports.entries = front ++ e :: back ∧
    ∀ e' ∈ front, ∀ k' target', ¬imports.Best reference e' k' target'

variable {imports reference} {e : ImportEntry} {k : Nat} {target : Target}
  {c : ImportMatch} {cs : List ImportMatch} {path : List String} {args : Option (List String)}

theorem bestMatch?_eq_none_iff (he : e ∈ imports.entries) :
    imports.bestMatch? reference e = none ↔ ∀ k target, ¬imports.Best reference e k target := by
  constructor
  · intro hnone k target h
    have hsome := (bestMatch?_eq_some_iff he).2 ⟨k, target, h, rfl⟩
    rw [hnone] at hsome
    cases hsome
  · intro h
    refine Option.eq_none_iff_forall_ne_some.2 fun c hc ↦ ?_
    obtain ⟨k, target, hbest, -⟩ := (bestMatch?_eq_some_iff he).1 hc
    exact h k target hbest

/-- The first of the best matches is that of the first of the best imports. -/
theorem exists_bestMatches_eq_cons_iff : (∃ cs, imports.bestMatches reference = c :: cs) ↔
    ∃ e k target, imports.FirstBest reference e k target ∧
      c = ⟨k, target, e.exportPath ++ reference.drop k, e.args⟩ := by
  rw [bestMatches_eq_filterMap]
  constructor
  · rintro ⟨cs, hcs⟩
    obtain ⟨front, e, back, hentries, hfront, hc, -⟩ := List.filterMap_eq_cons_iff.1 hcs
    have hmem (e' : ImportEntry) (he' : e' ∈ front) : e' ∈ imports.entries :=
      hentries ▸ List.mem_append_left _ he'
    obtain ⟨k, target, hbest, rfl⟩ := (bestMatch?_eq_some_iff (hentries ▸ by simp)).1 hc
    exact ⟨e, k, target, ⟨hbest, front, back, hentries, fun e' he' ↦
      (bestMatch?_eq_none_iff (hmem e' he')).1 (hfront e' he')⟩, rfl⟩
  · rintro ⟨e, k, target, ⟨hbest, front, back, hentries, hfront⟩, rfl⟩
    refine ⟨back.filterMap (imports.bestMatch? reference), List.filterMap_eq_cons_iff.2
      ⟨front, e, back, hentries, fun e' he' ↦ ?_, ?_, rfl⟩⟩
    · exact (bestMatch?_eq_none_iff (hentries ▸ List.mem_append_left _ he')).2 (hfront e' he')
    · exact (bestMatch?_eq_some_iff (hentries ▸ by simp)).2 ⟨k, target, hbest, rfl⟩

/-- The best imports lead to the target. -/
theorem forall_best_iff :
    (∀ e ∈ imports.entries, ∀ k t, imports.Best reference e k t → t = target) ↔
      ∀ c ∈ imports.bestMatches reference, c.target = target := by
  constructor
  · intro h c hc
    obtain ⟨e, he, k, t, hbest, rfl⟩ := mem_bestMatches_iff.1 hc
    exact h e he k t hbest
  · intro h e he k t hbest
    exact h _ (mem_bestMatches_iff.2 ⟨e, he, k, t, hbest, rfl⟩)

/-! ### The three answers -/

theorem resolve_eq_unresolved_iff : imports.resolve reference = .unresolved ↔
    ∀ e ∈ imports.entries, ∀ k target, ¬imports.Contributes reference e k target := by
  rw [← bestMatches_eq_nil_iff, resolve]
  split
  · rename_i hnil
    exact iff_of_true rfl hnil
  · rename_i c cs hcons
    refine iff_of_false (fun h ↦ ?_) (hcons ▸ List.cons_ne_nil c cs)
    split at h <;> cases h

theorem resolve_eq_found_iff : imports.resolve reference = .found target path args ↔
    ∃ c cs, imports.bestMatches reference = c :: cs ∧ (∀ d ∈ c :: cs, d.target = target) ∧
      path = c.exportPath ∧ args = c.args := by
  rw [resolve]
  split
  · rename_i hnil
    refine iff_of_false (fun h ↦ by cases h) ?_
    rintro ⟨c, cs, hcons, -⟩
    exact List.cons_ne_nil c cs (hcons.symm.trans hnil)
  · rename_i c cs hcons
    have hall : (cs.all fun d ↦ d.target == c.target) = true ↔
        ∀ d ∈ c :: cs, d.target = c.target := by
      simp
    split
    · rename_i hsame
      rw [hall] at hsame
      constructor
      · intro h
        obtain ⟨rfl, rfl, rfl⟩ := Resolution.found.inj h
        exact ⟨c, cs, hcons, hsame, rfl, rfl⟩
      · rintro ⟨c', cs', hcons', htarget, rfl, rfl⟩
        obtain ⟨rfl, rfl⟩ := List.cons.inj (hcons.symm.trans hcons')
        rw [htarget c List.mem_cons_self]
    · rename_i hdiffer
      rw [hall] at hdiffer
      refine iff_of_false (fun h ↦ by cases h) ?_
      rintro ⟨c', cs', hcons', htarget, -, -⟩
      obtain ⟨rfl, rfl⟩ := List.cons.inj (hcons.symm.trans hcons')
      exact hdiffer fun d hd ↦ (htarget d hd).trans (htarget c List.mem_cons_self).symm

theorem resolve_eq_ambiguous_iff {paths : List String} :
    imports.resolve reference = .ambiguous paths ↔
      (∃ c ∈ imports.bestMatches reference, ∃ d ∈ imports.bestMatches reference,
        c.target ≠ d.target) ∧
      paths = ((imports.bestMatches reference).map ImportMatch.candidate).eraseReps := by
  rw [resolve]
  split
  · rename_i hnil
    refine iff_of_false (fun h ↦ by cases h) ?_
    rintro ⟨⟨c, hc, -⟩, -⟩
    exact absurd hc (hnil ▸ List.not_mem_nil)
  · rename_i c cs hcons
    rw [hcons]
    split
    · rename_i hsame
      have hsame : ∀ d ∈ c :: cs, d.target = c.target := by simpa using hsame
      refine iff_of_false (fun h ↦ by cases h) ?_
      rintro ⟨⟨d, hd, d', hd', hne⟩, -⟩
      exact hne ((hsame d hd).trans (hsame d' hd').symm)
    · rename_i hdiffer
      have hdiffer : ∃ d ∈ cs, d.target ≠ c.target := by simpa using hdiffer
      obtain ⟨d, hd, hne⟩ := hdiffer
      rw [Resolution.ambiguous.injEq, eq_comm]
      exact (and_iff_right
        ⟨d, List.mem_cons_of_mem _ hd, c, List.mem_cons_self, hne⟩).symm

/-! ### Falling back -/

variable (imports reference) in
/-- An import leads a reference to an export by an overlap of `k` segments, whether or not this is
the longest. -/
structure LeadsBy (e : ImportEntry) (k : Nat) : Prop where
  pos : 0 < k
  overlaps : e.Overlaps reference k
  exported : (imports.exports.get? (e.exportPath ++ reference.drop k)).isSome

theorem LeadsBy.contributes (h : imports.LeadsBy reference e k)
    (hlongest : ∀ j, e.Overlaps reference j → j ≤ k) :
    ∃ target, imports.Contributes reference e k target := by
  obtain ⟨target, htarget⟩ := Option.isSome_iff_exists.1 h.exported
  exact ⟨target, .overlap h.pos h.overlaps hlongest, htarget⟩

theorem exists_contributes_iff : (∃ k target, imports.Contributes reference e k target) ↔
    (∃ k, imports.LeadsBy reference e k ∧ ∀ j, e.Overlaps reference j → j ≤ k) ∨
      e.visible = [] ∧ (imports.exports.get? (e.exportPath ++ reference)).isSome := by
  constructor
  · rintro ⟨k, target, htakes, htarget⟩
    cases htakes with
    | nothing hvisible => exact .inr ⟨hvisible, Option.isSome_of_eq_some htarget⟩
    | overlap hpos hoverlap hlongest =>
      exact .inl ⟨k, ⟨hpos, hoverlap, Option.isSome_of_eq_some htarget⟩, hlongest⟩
  · rintro (⟨k, hleads, hlongest⟩ | ⟨hvisible, hexported⟩)
    · exact ⟨k, hleads.contributes hlongest⟩
    · obtain ⟨target, htarget⟩ := Option.isSome_iff_exists.1 hexported
      exact ⟨0, target, .nothing hvisible, htarget⟩

/-- A reference is resolved if and only if an import leads it to an export by the longest overlap,
or one that makes everything visible does. Any overlap will do for an import in whose visible path
no segment stands twice. -/
theorem falls_back_iff (imports : ImportMap) (reference : List String) :
    (imports.resolve reference ≠ .unresolved ↔
      (∃ e ∈ imports.entries, ∃ k, imports.LeadsBy reference e k ∧
        ∀ j, e.Overlaps reference j → j ≤ k) ∨
      ∃ e ∈ imports.entries, e.visible = [] ∧
        (imports.exports.get? (e.exportPath ++ reference)).isSome) ∧
    ∀ e ∈ imports.entries, e.visible.Nodup → ∀ k, imports.LeadsBy reference e k →
      imports.resolve reference ≠ .unresolved := by
  have hresolved : imports.resolve reference ≠ .unresolved ↔
      ∃ e ∈ imports.entries, ∃ k target, imports.Contributes reference e k target := by
    simp only [ne_eq, resolve_eq_unresolved_iff, not_forall, Classical.not_not, exists_prop]
  refine ⟨?_, fun e he hnodup k hleads ↦ hresolved.2 ⟨e, he, k, ?_⟩⟩
  · simp only [hresolved, exists_contributes_iff, and_or_left, exists_or]
  · refine hleads.contributes fun j hj ↦ Nat.not_lt.1 fun hlt ↦ ?_
    exact hlt.ne (hleads.overlaps.eq_of_nodup hnodup hleads.pos hj hlt.le)

end ImportMap

namespace Module

variable {m : Module} {r : Registry} {imports : ImportMap} {warnings : List Warning}

/-- A reference is unresolved if no import contributes, found by the first of the best imports if
they all lead to one target, and ambiguous otherwise. What it is found to be is an exported
declaration or a generator of the registry, and the path is that of its module and its name. -/
theorem resolves_to_best (hr : r.Built) (h : m.importMap r = .ok (imports, warnings))
    (reference : List String) :
    (imports.resolve reference = .unresolved ↔
      ∀ e ∈ imports.entries, ∀ k target, ¬imports.Contributes reference e k target) ∧
    (∀ target path args, imports.resolve reference = .found target path args ↔
      (∀ e ∈ imports.entries, ∀ k t, imports.Best reference e k t → t = target) ∧
      ∃ e k, imports.FirstBest reference e k target ∧
        path = e.exportPath ++ reference.drop k ∧ args = e.args) ∧
    ((∃ paths, imports.resolve reference = .ambiguous paths) ↔
      ∃ e ∈ imports.entries, ∃ e' ∈ imports.entries, ∃ k k' t t',
        imports.Best reference e k t ∧ imports.Best reference e' k' t' ∧ t ≠ t') ∧
    ∀ target path args, imports.resolve reference = .found target path args →
      r.Leads path target := by
  refine ⟨ImportMap.resolve_eq_unresolved_iff, fun target path args ↦ ?found, ?ambiguous,
    fun target path args hfound ↦ leads_of_importMap hr h (ImportMap.get?_of_resolve hfound)⟩
  case found =>
    rw [ImportMap.resolve_eq_found_iff, ImportMap.forall_best_iff]
    constructor
    · rintro ⟨c, cs, hcons, htarget, rfl, rfl⟩
      obtain ⟨e, k, t, hfirst, rfl⟩ := ImportMap.exists_bestMatches_eq_cons_iff.1 ⟨cs, hcons⟩
      obtain rfl := htarget _ List.mem_cons_self
      exact ⟨hcons ▸ htarget, e, k, hfirst, rfl, rfl⟩
    · rintro ⟨htarget, e, k, hfirst, rfl, rfl⟩
      obtain ⟨cs, hcons⟩ := ImportMap.exists_bestMatches_eq_cons_iff.2 ⟨e, k, target, hfirst, rfl⟩
      exact ⟨_, cs, hcons, hcons ▸ htarget, rfl, rfl⟩
  case ambiguous =>
    -- ambiguous means that two of the best matches have different targets
    have hambiguous : (∃ paths, imports.resolve reference = .ambiguous paths) ↔
        ∃ c ∈ imports.bestMatches reference, ∃ d ∈ imports.bestMatches reference,
          c.target ≠ d.target := by
      simp only [ImportMap.resolve_eq_ambiguous_iff, exists_and_left, exists_eq, and_true]
    rw [hambiguous]
    constructor
    · rintro ⟨c, hc, d, hd, hne⟩
      obtain ⟨e, he, k, t, hbest, rfl⟩ := ImportMap.mem_bestMatches_iff.1 hc
      obtain ⟨e', he', k', t', hbest', rfl⟩ := ImportMap.mem_bestMatches_iff.1 hd
      exact ⟨e, he, e', he', k, k', t, t', hbest, hbest', hne⟩
    · rintro ⟨e, he, e', he', k, k', t, t', hbest, hbest', hne⟩
      exact ⟨_, ImportMap.mem_bestMatches_iff.2 ⟨e, he, k, t, hbest, rfl⟩,
        _, ImportMap.mem_bestMatches_iff.2 ⟨e', he', k', t', hbest', rfl⟩, hne⟩

end Module

namespace Registry

/-- A module with an import of an item, one of the module of the item and one of all it holds. -/
def overlapping : Registry :=
  ofSources .default
    [("main", "import util;\nimport util/foo;\nimport util/* as u;\n".toList),
      ("util", "fn bar() \x7b\x7d\nfn foo() \x7b\x7d\n".toList)] []

/-- The import of the item takes both segments of the reference and wins. -/
theorem resolves_to_best_overlapping : ∃ main imports warnings,
    overlapping.module? ["main"] = some main ∧
    main.importMap overlapping = .ok (imports, warnings) ∧
    imports.resolve ["util", "foo"] = .found (.decl ["util"] 1) ["util", "foo"] none ∧
    (∃ e k, imports.FirstBest ["util", "foo"] e k (.decl ["util"] 1)) ∧
    overlapping.Leads ["util", "foo"] (.decl ["util"] 1) := by
  have heval : (do
      let main ← overlapping.module? ["main"]
      let (imports, _) ← (main.importMap overlapping).toOption
      return imports.resolve ["util", "foo"]) =
      some (.found (.decl ["util"] 1) ["util", "foo"] none) := by
    decide +kernel
  have hbuilt : overlapping.Built := (built_ofSources _ _ _).1
  generalize overlapping = r at heval hbuilt ⊢
  obtain ⟨main, hmain, heval⟩ := Option.bind_eq_some_iff.1 heval
  obtain ⟨⟨imports, warnings⟩, himports, heval⟩ := Option.bind_eq_some_iff.1 heval
  have hfound := Option.some.inj heval
  have himports := Except.eq_ok_of_toOption himports
  obtain ⟨-, hfound_iff, -, hleads⟩ := Module.resolves_to_best hbuilt himports ["util", "foo"]
  obtain ⟨-, e, k, hfirst, -, -⟩ := (hfound_iff _ _ _).1 hfound
  exact ⟨main, imports, warnings, hmain, himports, hfound, ⟨e, k, hfirst⟩, hleads _ _ _ hfound⟩

/-- A module that imports another one whose path has one segment twice. -/
def repeating : Registry :=
  ofSources .default
    [("main", "import util/util;\n".toList), ("util/util", "fn util() \x7b\x7d\n".toList)] []

/-- The last segment of the import leads to the function, but the import is taken to overlap with
both. -/
theorem falls_back_iff_repeating : ∃ main imports warnings,
    repeating.module? ["main"] = some main ∧
    main.importMap repeating = .ok (imports, warnings) ∧
    (∃ e ∈ imports.entries, imports.LeadsBy ["util", "util"] e 1) ∧
    imports.resolve ["util", "util"] = .unresolved := by
  have heval : (do
      let main ← repeating.module? ["main"]
      let (imports, _) ← (main.importMap repeating).toOption
      return (imports.entries.map fun e ↦ (e.visible, e.exportPath),
        imports.exports.get? ["util", "util"], imports.exports.get? ["util", "util", "util"])) =
      some ([(["util", "util"], ["util", "util"])], none,
        some (.decl ["util", "util"] 0)) := by
    decide +kernel
  generalize repeating = r at heval ⊢
  obtain ⟨main, hmain, heval⟩ := Option.bind_eq_some_iff.1 heval
  obtain ⟨⟨imports, warnings⟩, himports, heval⟩ := Option.bind_eq_some_iff.1 heval
  obtain ⟨hentries, heval⟩ := Prod.mk.inj (Option.some.inj heval)
  obtain ⟨hnone, hsome⟩ := Prod.mk.inj heval
  obtain ⟨e, hsingle, he⟩ := List.map_eq_singleton_iff.1 hentries
  obtain ⟨hvisible, hpath⟩ := Prod.mk.inj he
  refine ⟨main, imports, warnings, hmain, Except.eq_ok_of_toOption himports,
    ⟨e, hsingle ▸ List.mem_singleton_self e, by decide, ⟨by decide, ?_⟩, ?_⟩, ?_⟩
  · rw [hvisible]
    decide
  · rw [hpath]
    exact Option.isSome_of_eq_some hsome
  · -- the longest overlap leads to no export
    by_contra hresolved
    rcases (ImportMap.falls_back_iff imports ["util", "util"]).1.1 hresolved with
      ⟨e', he', k, hleads, hlongest⟩ | ⟨e', he', hempty, -⟩
    · obtain rfl := List.mem_singleton.1 (hsingle ▸ he')
      have htwo : 2 ≤ k := hlongest 2 ⟨by decide, by rw [hvisible]; decide⟩
      have hk : k = 2 := Nat.le_antisymm hleads.overlaps.1 htwo
      have hexported := hleads.exported
      rw [hpath, hk, show ["util", "util"] ++ ["util", "util"].drop 2 = ["util", "util"] from rfl,
        hnone] at hexported
      cases hexported
    · obtain rfl := List.mem_singleton.1 (hsingle ▸ he')
      rw [hvisible] at hempty
      cases hempty

end Registry

end ShaderLink
