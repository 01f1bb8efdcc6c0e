import ShaderLink.Proofs.Link.Closed
import ShaderLink.Proofs.Resolution.Best

/-!
# How linking can fail

Linking the references of a module fails in two ways only: an import of the module leads into a
module that could not be parsed, or imports give a path several meanings. Nothing else that happens
during a visit can go wrong, and a visit that fails never does so for want of visits.

As for computations that keep what holds of linkages, there is one rule for each way of putting
computations together (`LinkJob.FailsBy`).
-/

namespace ShaderLink

namespace ImportMap

/-- With one import at most, no reference has several meanings. -/
theorem resolve_ne_ambiguous {imports : ImportMap} (h : imports.entries.length ≤ 1)
    (reference candidates : List String) :
    imports.resolve reference ≠ .ambiguous candidates := by
  have hlength : (imports.bestMatches reference).length ≤ 1 := by
    rw [bestMatches_eq_filterMap]
    exact (List.length_filterMap_le _ _).trans h
  rw [resolve]
  split
  · exact fun heq ↦ nomatch heq
  · rename_i c cs hbest
    rw [hbest, List.length_cons] at hlength
    obtain rfl := List.eq_nil_of_length_eq_zero (Nat.le_zero.1 (Nat.le_of_succ_le_succ hlength))
    exact fun heq ↦ nomatch heq

end ImportMap

namespace LinkJob

variable (job : LinkJob)

/-- What linking the references of a module can fail with. -/
inductive Blocked (m : Module) : LinkError → Prop
  | broken {b : BrokenModule} (h : m.importMap job.registry = .error b) : Blocked m (.broken b)
  | ambiguous {path candidates : List String}
    (h : job.resolution m path = .ambiguous candidates) :
    Blocked m (.ambiguous m.path (codePath path) candidates)

/-- From a valid linkage the computation only fails with what blocks the module. -/
def FailsBy {α : Type} (m : Module) (x : Linking α) : Prop :=
  ∀ l e, job.Valid l → x.run l = .error e → job.Blocked m e

variable {job} {α β : Type} {x : Linking α} {m : Module} {args : Args} {l : Linkage} {e : LinkError}

/-- Nothing that blocks a module is a want of visits. -/
theorem Blocked.ne_unfinished (h : job.Blocked m e) : e ≠ .unfinished := by
  cases h with
  | broken => exact fun heq ↦ nomatch heq
  | ambiguous => exact fun heq ↦ nomatch heq

/-- With one import at most, and that one of a module that could be parsed, nothing blocks a
module. -/
theorem not_blocked {imports : ImportMap} {warnings : List Warning}
    (himports : m.importMap job.registry = .ok (imports, warnings))
    (hlength : imports.entries.length ≤ 1) (e : LinkError) : ¬ job.Blocked m e := by
  rintro (hbroken | hambiguous)
  · rw [himports] at hbroken
    cases hbroken
  · rename_i reference candidates
    rw [resolution, himports] at hambiguous
    exact ImportMap.resolve_ne_ambiguous hlength reference candidates hambiguous

namespace FailsBy

/-- An answer that is there does not fail. -/
theorem pure (a : α) : job.FailsBy m (Pure.pure a) :=
  fun _ _ _ herror ↦ nomatch herror

/-- Changing the linkage does not fail. -/
theorem modify (f : Linkage → Linkage) : job.FailsBy m (modify f) :=
  fun _ _ _ herror ↦ nomatch herror

/-- Neither does a change that answers something. -/
theorem modifyGet (f : Linkage → α × Linkage) : job.FailsBy m (MonadState.modifyGet f) :=
  fun _ _ _ herror ↦ nomatch herror

/-- Looking at the linkage does not fail. -/
theorem get {f : Linkage → Linking α} (h : ∀ l, job.FailsBy m (f l)) :
    job.FailsBy m (get >>= f) :=
  fun l e hvalid herror ↦ h l l e hvalid herror

/-- A failure has to be one that blocks the module. -/
theorem throw {e : LinkError} (h : job.Blocked m e) : job.FailsBy m (throw e : Linking α) := by
  intro l e' _ herror
  cases herror
  exact h

/-- The second computation starts from a valid linkage, because the first one keeps what holds of
linkages. -/
theorem bind {f : α → Linking β} {right : α → Linkage → Prop} (hx : job.FailsBy m x)
    (hkeeps : job.Keeps x right) (hf : ∀ a l, right a l → job.FailsBy m (f a)) :
    job.FailsBy m (x >>= f) := by
  intro l e hvalid herror
  rw [StateT.run_bind] at herror
  cases hrun : x.run l with
  | error e' =>
    rw [hrun] at herror
    cases herror
    exact hx l e hvalid hrun
  | ok r =>
    rw [hrun] at herror
    obtain ⟨hvalid', -, hright⟩ := hkeeps l r.1 r.2 hrun hvalid
    exact hf r.1 r.2 (hright r.2 (.refl r.2)) r.2 e hvalid' herror

theorem map {f : α → β} {right : α → Linkage → Prop} (hx : job.FailsBy m x)
    (hkeeps : job.Keeps x right) : job.FailsBy m (f <$> x) := by
  rw [map_eq_pure_bind]
  exact hx.bind hkeeps fun a _ _ ↦ .pure (f a)

/-- Each computation in turn starts from a valid linkage. -/
theorem mapM {f : α → Linking β} {right : α → β → Linkage → Prop}
    (h : ∀ a, job.FailsBy m (f a)) (hkeeps : ∀ a, job.Keeps (f a) (right a)) (as : List α) :
    job.FailsBy m (as.mapM f) := by
  induction as with
  | nil => exact .pure []
  | cons a as ih =>
    rw [List.mapM_cons]
    exact (h a).bind (hkeeps a) fun b _ _ ↦ ih.bind (.mapM hkeeps as) fun bs _ _ ↦ .pure (b :: bs)

end FailsBy

/-! ### Linking a reference -/

/-- Making the import map fails if an import leads into a module that could not be parsed. -/
theorem failsBy_importMapOf (m : Module) : job.FailsBy m (job.importMapOf m) := by
  refine FailsBy.get fun l ↦ ?_
  split
  · exact .pure _
  · split
    · rename_i b hbroken
      exact .throw (.broken hbroken)
    · intro l' e _ herror
      cases herror

/-- An argument is looked up in the import map, and nothing else about it can fail. -/
theorem failsBy_argValue (hm : job.registry.module? m.path = some m) (arg : String) :
    job.FailsBy m (job.argValue m args arg) := by
  rw [argValue]
  split
  · exact .pure _
  · split
    · exact .modifyGet _
    · refine (failsBy_importMapOf m).bind (keeps_importMapOf hm) fun imports _ _ ↦ ?_
      split
      · exact .modifyGet _
      · exact .pure arg

theorem failsBy_paramValue? (hm : job.registry.module? m.path = some m)
    (param : String × Option String) (given : Option String) :
    job.FailsBy m (job.paramValue? m args param given) := by
  cases given with
  | some arg => exact (failsBy_argValue hm arg).map (keeps_argValue hm arg)
  | none => exact .pure _

/-- Missing arguments are no failure. -/
theorem failsBy_bindParams (hm : job.registry.module? m.path = some m) (required : Bool)
    (span : Span) (params : List (String × Option String)) (given : List String) :
    job.FailsBy m (job.bindParams m args required span params given) := by
  induction params generalizing given with
  | nil => exact .pure []
  | cons param params ih =>
    rw [bindParams]
    refine (failsBy_paramValue? hm param given.head?).bind (keeps_paramValue? hm param given.head?)
      fun value? _ _ ↦ ?_
    have hrest (bound : Args) : job.FailsBy m (do
        return bound ++ (← job.bindParams m args required span params given.tail)) :=
      (ih given.tail).bind (keeps_bindParams hm required span params given.tail) fun rest _ _ ↦
        .pure (bound ++ rest)
    cases value? with
    | some value => exact hrest [(param.1, value)]
    | none =>
      dsimp only
      split
      · exact (FailsBy.modify _).bind (keeps_warn _) fun _ _ _ ↦ hrest [(param.1, param.1)]
      · exact hrest []

/-- A reference that is bound in its own module needs no imports. -/
theorem failsBy_linkBound (binding : IdentId) : job.FailsBy m (job.linkBound m args binding) := by
  rw [linkBound]
  split
  · split
    · exact (FailsBy.modifyGet _).map (keeps_reach _)
    · exact .pure none
  · exact .pure none

/-- An imported path may have several meanings. -/
theorem failsBy_linkImported (hm : job.registry.module? m.path = some m) (reference : Reference) :
    job.FailsBy m (job.linkImported m args reference) := by
  refine (failsBy_importMapOf m).bind (keeps_importMapOf hm) fun imports _ hresolve ↦ ?_
  split
  · rename_i target exportPath given hfound
    refine ((failsBy_bindParams hm _ _ _ _).bind (keeps_bindParams hm _ _ _ _) fun values _ _ ↦
      .pure _).bind (keeps_importedInstance hm target _ _) fun key _ _ ↦ ?_
    exact (FailsBy.modifyGet _).map (keeps_reach key)
  · split
    · exact (FailsBy.modify _).bind (keeps_warn _) fun _ _ _ ↦ .pure none
    · exact .pure none
  · rename_i candidates hambiguous
    exact .throw (.ambiguous ((hresolve reference.path).trans hambiguous))

theorem failsBy_linkReference (hm : job.registry.module? m.path = some m)
    (reference : Reference) : job.FailsBy m (job.linkReference m args reference) := by
  rw [linkReference]
  split
  · exact failsBy_linkBound _
  · split
    · exact .pure none
    · exact failsBy_linkImported hm reference

/-! ### Visiting an instance -/

theorem failsBy_renameReference (hm : job.registry.module? m.path = some m)
    (reference : Reference) : job.FailsBy m (job.renameReference m args reference) := by
  refine (failsBy_linkReference hm reference).bind (keeps_linkReference hm reference)
    fun name? _ _ ↦ ?_
  split
  · split
    · exact .pure none
    · exact .pure _
  · exact .pure none

/-- The references of a declaration are linked in turn, and the first that fails decides. -/
theorem failsBy_renamesOf (hm : job.registry.module? m.path = some m) (d : Decl) (name : String) :
    job.FailsBy m (job.renamesOf m d args name) :=
  (FailsBy.mapM (failsBy_renameReference hm) (keeps_renameReference hm) (m.references d)).bind
    (.mapM (keeps_renameReference hm) (m.references d)) fun _ _ _ ↦ .pure _

/-- A visit that fails is to a declaration, and is blocked by what its module imports. -/
theorem exists_blocked_of_visit (hjob : job.Sound) (hvalid : job.Valid l) {key : InstanceKey}
    {name : String} (herror : (job.visit key name).run l = .error e) :
    ∃ module index m d, key.target = .decl module index ∧
      job.decl? module index = some (m, d) ∧ job.Blocked m e := by
  rw [visit] at herror
  split at herror
  · cases herror
  · rename_i module index htarget
    split at herror
    · cases herror
    · rename_i m d hdecl
      have hm := hjob.module?_path (decl?_eq_some hdecl).1
      refine ⟨module, index, m, d, htarget, hdecl, ?_⟩
      exact ((failsBy_renamesOf hm d name).bind (keeps_renamesOf hm name) fun _ _ _ ↦
        .modify _) l e hvalid herror

end LinkJob

end ShaderLink
