import Mathlib.Data.List.Induction
import ShaderLink.Proofs.Registry.Built

/-!
# Files and what is recorded of them

A file is added to a registry whenever it has changed. The registry records the outcome under a
path, which is the path of the module, or the path that a text that cannot be parsed declares, or
the path of the file. It does not record which file an outcome came from. So an outcome stays until
another one is recorded under the same path; only a failure also goes away when a file that has its
path can be parsed, whatever path the module of this file has.

This tells exactly when a registry reflects the last versions of its files. Two things can go wrong
even if different files are never recorded under the same path: an earlier version of a file stays
recorded under a path that the file does not have any more, and the failure of a file is forgotten
when another file can be parsed.
-/

namespace ShaderLink

/-- An element of a list that nothing behind it puts an end to. -/
def Lasts {α : Type} (ends : α → α → Prop) (as : List α) (a : α) : Prop :=
  ∃ front behind, as = front ++ a :: behind ∧ ∀ b ∈ behind, ¬ ends b a

section Lasts

variable {α : Type} {ends : α → α → Prop} {as : List α} {a b : α}

theorem not_lasts_nil : ¬ Lasts ends [] a := by
  rintro ⟨front, behind, heq, -⟩
  exact absurd heq (by simp)

theorem lasts_append_singleton :
    Lasts ends (as ++ [b]) a ↔ a = b ∨ Lasts ends as a ∧ ¬ ends b a := by
  constructor
  · rintro ⟨front, behind, heq, hlasts⟩
    rcases List.eq_nil_or_concat behind with rfl | ⟨behind, c, rfl⟩
    · obtain ⟨-, hb⟩ := List.append_inj' heq rfl
      exact .inl (List.singleton_inj.1 hb).symm
    · have heq : as ++ [b] = (front ++ a :: behind) ++ [c] := by simpa using heq
      obtain ⟨has, hb⟩ := List.append_inj' heq rfl
      obtain rfl := List.singleton_inj.1 hb
      rw [List.concat_eq_append] at hlasts
      have hall := List.forall_mem_append.1 hlasts
      exact .inr ⟨⟨front, behind, has, hall.1⟩, hall.2 b List.mem_cons_self⟩
  · rintro (rfl | ⟨⟨front, behind, rfl, hlasts⟩, hb⟩)
    · exact ⟨as, [], rfl, fun _ h ↦ nomatch h⟩
    · refine ⟨front, behind ++ [b], by simp, List.forall_mem_append.2 ⟨hlasts, ?_⟩⟩
      simpa using hb

/-- Of two places in a list, one is behind the other unless they are the same. -/
theorem mem_or_eq_or_mem {front behind front' behind' : List α}
    (h : front ++ a :: behind = front' ++ b :: behind') :
    b ∈ behind ∨ (a = b ∧ behind = behind') ∨ a ∈ behind' := by
  rcases List.append_eq_append_iff.1 h with ⟨cs, -, hrest⟩ | ⟨cs, -, hrest⟩
  · cases cs with
    | nil =>
      obtain ⟨rfl, rfl⟩ := List.cons.inj hrest
      exact .inr (.inl ⟨rfl, rfl⟩)
    | cons c cs =>
      obtain ⟨-, rfl⟩ := List.cons.inj hrest
      exact .inl (List.mem_append_right cs List.mem_cons_self)
  · cases cs with
    | nil =>
      obtain ⟨rfl, rfl⟩ := List.cons.inj hrest
      exact .inr (.inl ⟨rfl, rfl⟩)
    | cons c cs =>
      obtain ⟨-, rfl⟩ := List.cons.inj hrest
      exact .inr (.inr (List.mem_append_right cs List.mem_cons_self))

end Lasts

namespace Registry

/-- A file and its text. -/
abbrev Version := String × Text

section Version

variable (options : ParseOptions)

/-- The path that the outcome of parsing a file is recorded under. -/
def recordPath (s : Version) : ModulePath :=
  match Module.parse options s.1 s.2 with
  | .ok m => m.path
  | .error _ => failurePath s.1 s.2

/-- A failure is forgotten when the file that has its path can be parsed. -/
def Forgets (s' s : Version) : Prop :=
  (∃ e, Module.parse options s.1 s.2 = .error e) ∧ (∃ m, Module.parse options s'.1 s'.2 = .ok m) ∧
    ModulePath.ofFile s'.1.toList = recordPath options s

/-- An outcome is gone when another one is recorded under its path, or when it is forgotten. -/
def Supersedes (s' s : Version) : Prop :=
  recordPath options s' = recordPath options s ∨ Forgets options s' s

end Version

/-- The last version of a file. -/
abbrev IsLast (versions : List Version) (s : Version) : Prop :=
  Lasts (fun s' s ↦ s'.1 = s.1) versions s

/-- The registry reflects the last versions of files: its modules and failures are just the outcomes
of parsing them. -/
structure Reflects (r : Registry) (versions : List Version) : Prop where
  modules : ∀ path m, r.module? path = some m ↔ ∃ s, IsLast versions s ∧
    Module.parse r.options s.1 s.2 = .ok m ∧ m.path = path
  failures : ∀ path e, r.failure? path = some e ↔ ∃ s, IsLast versions s ∧
    Module.parse r.options s.1 s.2 = .error e ∧ failurePath s.1 s.2 = path

/-- What is recorded under a path: a module, or why there is none. -/
def record? (r : Registry) (path : ModulePath) : Option (Except ParseError Module) :=
  match r.module? path with
  | some m => some (.ok m)
  | none => (r.failure? path).map .error

variable {r : Registry} {path : ModulePath} {outcome : Except ParseError Module}
  {options : ParseOptions} {versions : List Version}

theorem recordPath_of_ok {s : Version} {m : Module} (h : Module.parse options s.1 s.2 = .ok m) :
    recordPath options s = m.path := by
  delta recordPath
  rw [h]

theorem recordPath_of_error {s : Version} {e : ParseError}
    (h : Module.parse options s.1 s.2 = .error e) :
    recordPath options s = failurePath s.1 s.2 := by
  delta recordPath
  rw [h]

/-- A module is on record if it is in the registry, -/
theorem record?_eq_ok_iff {m : Module} :
    r.record? path = some (.ok m) ↔ r.module? path = some m := by
  rw [record?]
  cases r.module? path <;> simp

/-- and an error if the last try to read the module failed. -/
theorem record?_eq_error_iff (h : r.Coherent) {e : ParseError} :
    r.record? path = some (.error e) ↔ r.failure? path = some e := by
  rw [record?]
  cases hm : r.module? path with
  | none => simp
  | some m =>
    have hnone : r.failure? path = none := by
      by_contra hfailure
      have hkey := h.unfailed path (Option.isSome_iff_ne_none.2 hfailure)
      rw [h.module?_eq_none_iff.2 hkey] at hm
      cases hm
    simp [hnone]

/-- A module that is put in takes the place of what was on record for its path. -/
theorem record?_insert (h : r.Coherent) (m : Module) (path : ModulePath) :
    (r.insert m).2.record? path = if path = m.path then some (.ok m) else r.record? path := by
  rw [record?, h.module?_insert, failure?_insert]
  by_cases hpath : path = m.path
  · simp only [if_pos hpath]
  · simp only [if_neg hpath, record?]

/-- Adding a file records the outcome, and may forget a failure. -/
theorem record?_addSource (h : r.Coherent) (s : Version) :
    (r.addSource s.1 s.2).2.record? path = some outcome ↔
      (recordPath r.options s = path ∧ Module.parse r.options s.1 s.2 = outcome) ∨
      (recordPath r.options s ≠ path ∧ r.record? path = some outcome ∧
        ¬ ((∃ e, outcome = .error e) ∧ (∃ m, Module.parse r.options s.1 s.2 = .ok m) ∧
          ModulePath.ofFile s.1.toList = path)) := by
  cases hresult : Module.parse r.options s.1 s.2 with
  | ok m =>
    rw [recordPath_of_ok hresult, addSource_of_ok hresult, record?_insert (h.forget _)]
    -- what was recorded under another path stays, unless it was a failure that is forgotten
    have hforget : ({ r with failures := r.failures.erase (.ofFile s.1.toList) } : Registry).record?
        path = some outcome ↔ r.record? path = some outcome ∧
          ¬ ((∃ e, outcome = .error e) ∧ ModulePath.ofFile s.1.toList = path) := by
      cases outcome with
      | ok m' => simp [record?_eq_ok_iff]; rfl
      | error e =>
        rw [record?_eq_error_iff (h.forget _), record?_eq_error_iff h]
        simp only [failure?, OrderedMap.get?_erase]
        by_cases hpath : path = ModulePath.ofFile s.1.toList
        · simp [hpath]
        · simp [hpath, eq_comm]
    by_cases hpath : path = m.path
    · simp [hpath]
    · simp [hpath, Ne.symm hpath, hforget]
  | error e =>
    rw [recordPath_of_error hresult, addSource_of_error hresult]
    have hcoherent := h.addSource s.1 s.2
    rw [addSource_of_error hresult] at hcoherent
    cases outcome with
    | ok m =>
      have hmodule := h.module?_remove (failurePath s.1 s.2) path
      rw [record?_eq_ok_iff, record?_eq_ok_iff]
      change (r.remove (failurePath s.1 s.2)).2.module? path = some m ↔ _
      by_cases hpath : path = failurePath s.1 s.2
      · rw [hmodule, if_pos hpath]
        simp [hpath]
      · rw [hmodule, if_neg hpath]
        simp [Ne.symm hpath]
    | error e' =>
      rw [record?_eq_error_iff hcoherent, record?_eq_error_iff h]
      simp only [failure?, OrderedMap.get?_insert]
      by_cases hpath : path = failurePath s.1 s.2
      · simp [hpath]
      · simp [hpath, Ne.symm hpath]

/-- The last version is the last to be added. -/
theorem ofSources_append_singleton (options : ParseOptions) (versions : List Version)
    (s : Version) : ofSources options (versions ++ [s]) [] =
      ((ofSources options versions []).addSource s.1 s.2).2 := by
  simp [ofSources]

theorem options_ofSources (options : ParseOptions) (versions : List Version) :
    (ofSources options versions []).options = options := by
  induction versions using List.reverseRecOn with
  | nil => rfl
  | append_singleton versions s ih => rw [ofSources_append_singleton, options_addSource, ih]

/-- What is recorded under a path is the last outcome there, unless it has been forgotten. -/
theorem record?_ofSources : (ofSources options versions []).record? path = some outcome ↔
    ∃ s, Lasts (Supersedes options) versions s ∧ recordPath options s = path ∧
      Module.parse options s.1 s.2 = outcome := by
  induction versions using List.reverseRecOn with
  | nil =>
    refine iff_of_false (fun h ↦ nomatch h) ?_
    rintro ⟨s, hlasts, -⟩
    exact not_lasts_nil hlasts
  | append_singleton versions s ih =>
    have hcoherent := (built_ofSources options versions []).1.coherent
    rw [ofSources_append_singleton, record?_addSource hcoherent, ih, options_ofSources]
    simp only [lasts_append_singleton, Supersedes, Forgets]
    constructor
    · rintro (⟨hpath, houtcome⟩ | ⟨hne, ⟨s', hlasts, rfl, rfl⟩, hkept⟩)
      · exact ⟨s, .inl rfl, hpath, houtcome⟩
      · exact ⟨s', .inr ⟨hlasts, not_or.2 ⟨hne, hkept⟩⟩, rfl, rfl⟩
    · rintro ⟨s', rfl | ⟨hlasts, hstays⟩, rfl, rfl⟩
      · exact .inl ⟨rfl, rfl⟩
      · exact .inr ⟨(not_or.1 hstays).1, ⟨s', hlasts, rfl, rfl⟩, (not_or.1 hstays).2⟩

/-- Reflecting is to have recorded the outcomes of the last versions. -/
theorem reflects_iff_record : (ofSources options versions []).Reflects versions ↔
    ∀ path outcome, (ofSources options versions []).record? path = some outcome ↔
      ∃ s, IsLast versions s ∧ recordPath options s = path ∧
        Module.parse options s.1 s.2 = outcome := by
  have hcoherent := (built_ofSources options versions []).1.coherent
  -- the record of a file that can be read is at the path of its module
  have hok (path : ModulePath) (m : Module) :
      (∃ s, IsLast versions s ∧ recordPath options s = path ∧
          Module.parse options s.1 s.2 = .ok m) ↔
        ∃ s, IsLast versions s ∧ Module.parse options s.1 s.2 = .ok m ∧ m.path = path := by
    refine exists_congr fun s ↦ and_congr_right fun _ ↦ ?_
    rw [and_comm]
    exact and_congr_right fun hparse ↦ by rw [recordPath_of_ok hparse]
  -- the record of one that cannot be read is at the path of its failure
  have herror (path : ModulePath) (e : ParseError) :
      (∃ s, IsLast versions s ∧ recordPath options s = path ∧
          Module.parse options s.1 s.2 = .error e) ↔
        ∃ s, IsLast versions s ∧ Module.parse options s.1 s.2 = .error e ∧
          failurePath s.1 s.2 = path := by
    refine exists_congr fun s ↦ and_congr_right fun _ ↦ ?_
    rw [and_comm]
    exact and_congr_right fun hparse ↦ by rw [recordPath_of_error hparse]
  constructor
  · rintro ⟨hmodules, hfailures⟩ path outcome
    rw [options_ofSources] at hmodules hfailures
    cases outcome with
    | ok m => rw [record?_eq_ok_iff, hok, hmodules]
    | error e => rw [record?_eq_error_iff hcoherent, herror, hfailures]
  · intro h
    refine ⟨fun path m ↦ ?_, fun path e ↦ ?_⟩
    · rw [options_ofSources, ← hok, ← h, record?_eq_ok_iff]
    · rw [options_ofSources, ← herror, ← h, record?_eq_error_iff hcoherent]

/-- The registry of files of which no two are ever recorded under the same path reflects their last
versions exactly if no earlier version outlives the later ones, which it does if these are recorded
under other paths and no file with its path can be parsed later, and no failure of a last version is
forgotten. -/
theorem reflects_iff (hapart : ∀ s ∈ versions, ∀ s' ∈ versions,
      recordPath options s = recordPath options s' → s.1 = s'.1) :
    (ofSources options versions []).Reflects versions ↔
      (∀ front s behind, versions = front ++ s :: behind → (∃ s' ∈ behind, s'.1 = s.1) →
        ∃ s' ∈ behind, recordPath options s' = recordPath options s ∨ Forgets options s' s) ∧
      ∀ front s behind, versions = front ++ s :: behind → (∀ s' ∈ behind, s'.1 ≠ s.1) →
        ∀ s' ∈ behind, ¬ Forgets options s' s := by
  rw [reflects_iff_record]
  simp only [record?_ofSources]
  constructor
  · refine fun h ↦ ⟨fun front s behind heq hlater ↦ ?_, fun front s behind heq hlast s' hs' ↦ ?_⟩
    · by_contra hstays
      simp only [not_exists, not_and] at hstays
      obtain ⟨s₂, ⟨front₂, behind₂, heq₂, hlast⟩, hpath, -⟩ :=
        (h _ _).1 ⟨s, ⟨front, behind, heq, hstays⟩, rfl, rfl⟩
      have hfile : s₂.1 = s.1 := hapart s₂ (by simp [heq₂]) s (by simp [heq]) hpath
      -- the last version of the file cannot stand in front, and behind it would replace this one
      rcases mem_or_eq_or_mem (heq.symm.trans heq₂) with hmem | ⟨rfl, rfl⟩ | hmem
      · exact hstays s₂ hmem (.inl hpath)
      · obtain ⟨s', hs', hsame⟩ := hlater
        exact hlast s' hs' hsame
      · exact hlast s hmem hfile.symm
    · obtain ⟨s₂, ⟨front₂, behind₂, heq₂, hstays⟩, hpath, -⟩ :=
        (h _ _).2 ⟨s, ⟨front, behind, heq, hlast⟩, rfl, rfl⟩
      have hfile : s₂.1 = s.1 := hapart s₂ (by simp [heq₂]) s (by simp [heq]) hpath
      rcases mem_or_eq_or_mem (heq.symm.trans heq₂) with hmem | ⟨rfl, rfl⟩ | hmem
      · exact absurd hfile (hlast s₂ hmem)
      · exact fun hforgets ↦ hstays s' hs' (.inr hforgets)
      · exact absurd (.inl hpath.symm) (hstays s hmem)
  · rintro ⟨hgone, hkept⟩ path outcome
    refine exists_congr fun s ↦ and_congr_left fun _ ↦ ⟨?_, ?_⟩
    · rintro ⟨front, behind, heq, hstays⟩
      refine ⟨front, behind, heq, fun s' hs' hsame ↦ ?_⟩
      obtain ⟨s₂, hs₂, hsupersedes⟩ := hgone front s behind heq ⟨s', hs', hsame⟩
      exact hstays s₂ hs₂ hsupersedes
    · rintro ⟨front, behind, heq, hlast⟩
      refine ⟨front, behind, heq, fun s' hs' ↦ not_or.2 ⟨fun hpath ↦ ?_,
        hkept front s behind heq hlast s' hs'⟩⟩
      exact hlast s' hs' (hapart s' (by simp [heq, hs']) s (by simp [heq]) hpath)

/-- A file that cannot be parsed and declares a path, and the same file when it can be parsed and
does not declare one. -/
def redirected : List Version :=
  [("util", "module pkg.util;\nfn (".toList), ("util", "fn a() \x7b\x7d".toList)]

/-- The failure of the first version stays recorded. -/
theorem not_reflects_redirected :
    (∀ s ∈ redirected, ∀ s' ∈ redirected,
        recordPath .default s = recordPath .default s' → s.1 = s'.1) ∧
      ((ofSources .default redirected []).failure? ["pkg", "util"]).isSome ∧
      ¬ (ofSources .default redirected []).Reflects redirected := by
  have hfiles : ∀ s ∈ redirected, s.1 = "util" := by decide
  have hpaths : redirected.map (recordPath .default) = [["pkg", "util"], ["util"]] := by
    decide +kernel
  have hapart : ∀ s ∈ redirected, ∀ s' ∈ redirected,
      recordPath .default s = recordPath .default s' → s.1 = s'.1 :=
    fun s hs s' hs' _ ↦ (hfiles s hs).trans (hfiles s' hs').symm
  refine ⟨hapart, by decide +kernel, fun h ↦ ?_⟩
  obtain ⟨s', hs', hsupersedes⟩ := ((reflects_iff hapart).1 h).1 [] _ _ rfl
    ⟨_, List.mem_singleton_self _, rfl⟩
  obtain rfl := List.mem_singleton.1 hs'
  obtain ⟨hfirst, hpaths⟩ := List.cons.inj hpaths
  rw [hfirst, (List.cons.inj hpaths).1] at hsupersedes
  rcases hsupersedes with hpath | ⟨-, -, hpath⟩
  · exact absurd hpath (by decide)
  · rw [hfirst] at hpath
    exact absurd hpath (by decide)

end Registry

end ShaderLink
