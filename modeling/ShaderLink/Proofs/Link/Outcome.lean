import ShaderLink.Proofs.Link.Failure

/-!
# What a visit fails with

Whether a visit fails, and what it fails with, does not depend on what has been linked before. It
can be read off the declaration, the values of its parameters and the import map of its module: the
first reference that has to be looked up in the imports fails if these cannot be made, and later
ones fail if the imports give them several meanings. Arguments of imports never fail, because by the
time they are looked at the import map is there.
-/

namespace ShaderLink

namespace LinkJob

variable (job : LinkJob)

/-- What making the import map of a module fails with. -/
def importFailure? (m : Module) : Option LinkError :=
  match m.importMap job.registry with
  | .error b => some (.broken b)
  | .ok _ => none

/-- What linking a reference fails with. -/
def linkFailure? (m : Module) (args : Args) (reference : Reference) : Option LinkError :=
  if (m.binding? reference).isSome || args.any fun a ↦ [a.1] == reference.path then none
  else
    (job.importFailure? m).or <|
      match job.resolution m reference.path with
      | .ambiguous candidates => some (.ambiguous m.path (codePath reference.path) candidates)
      | _ => none

/-- What visiting an instance fails with. -/
def visitFailure? (key : InstanceKey) : Option LinkError :=
  match key.target with
  | .generator .. => none
  | .decl module index =>
    match job.decl? module index with
    | none => none
    | some (m, d) => (m.references d).findSome? (job.linkFailure? m key.args)

/-- From a valid linkage the computation fails with this and with nothing else. -/
def FailsWith {α : Type} (failure? : Option LinkError) (x : Linking α) : Prop :=
  ∀ l, job.Valid l → ∀ e, x.run l = .error e ↔ failure? = some e

variable {job} {α β : Type} {x : Linking α} {failure? failure'? : Option LinkError} {m : Module}
  {args : Args} {e : LinkError}

namespace FailsWith

/-- What always goes on fails with nothing. -/
theorem never (h : ∀ l, ∃ r, x.run l = .ok r) : job.FailsWith none x := by
  intro l _ e
  obtain ⟨r, hr⟩ := h l
  rw [hr]
  simp only [reduceCtorEq]

theorem pure (a : α) : job.FailsWith none (Pure.pure a) :=
  .never fun l ↦ ⟨(a, l), rfl⟩

theorem modify (f : Linkage → Linkage) : job.FailsWith none (modify f) :=
  .never fun l ↦ ⟨((), f l), rfl⟩

theorem modifyGet (f : Linkage → α × Linkage) :
    job.FailsWith none (MonadState.modifyGet f) :=
  .never fun l ↦ ⟨f l, rfl⟩

/-- Throwing an error fails with it. -/
theorem throw (e : LinkError) : job.FailsWith (some e) (throw e : Linking α) := by
  intro l _ e'
  rw [Option.some_inj]
  exact ⟨fun h ↦ Except.error.inj h, fun h ↦ congrArg Except.error h⟩

/-- If the first part fails, the whole does. -/
theorem failed (hx : job.FailsWith (some e) x) (f : α → Linking β) :
    job.FailsWith (some e) (x >>= f) := by
  intro l hvalid e'
  have herror : x.run l = .error e := (hx l hvalid e).2 rfl
  rw [StateT.run_bind, herror, Option.some_inj]
  exact ⟨fun h ↦ Except.error.inj h, fun h ↦ congrArg Except.error h⟩

/-- The whole fails with what the first part fails with, or else with what the rest does. -/
theorem bind {f : α → Linking β} {right : α → Linkage → Prop} (hx : job.FailsWith failure? x)
    (hkeeps : job.Keeps x right) (hf : ∀ a l, right a l → job.FailsWith failure'? (f a)) :
    job.FailsWith (failure?.or failure'?) (x >>= f) := by
  cases failure? with
  | some e => exact hx.failed f
  | none =>
    intro l hvalid e
    rw [StateT.run_bind, Option.none_or]
    cases hrun : x.run l with
    | error e' => exact nomatch (hx l hvalid e').1 hrun
    | ok r =>
      obtain ⟨hvalid', -, hright⟩ := hkeeps l r.1 r.2 hrun hvalid
      exact hf r.1 r.2 (hright r.2 (.refl r.2)) r.2 hvalid' e

/-- If the rest does not fail, the whole fails with what the first part fails with. -/
theorem andThen {f : α → Linking β} {right : α → Linkage → Prop} (hx : job.FailsWith failure? x)
    (hkeeps : job.Keeps x right) (hf : ∀ a l, right a l → job.FailsWith none (f a)) :
    job.FailsWith failure? (x >>= f) := by
  have h := hx.bind hkeeps hf
  rwa [Option.or_none] at h

/-- What is made of a result fails where it does. -/
theorem map {f : α → β} {right : α → Linkage → Prop} (hx : job.FailsWith failure? x)
    (hkeeps : job.Keeps x right) : job.FailsWith failure? (f <$> x) := by
  rw [map_eq_pure_bind]
  exact hx.andThen hkeeps fun a _ _ ↦ .pure (f a)

/-- What is done for each element of a list fails with what it fails with first. -/
theorem mapM {f : α → Linking β} {right : α → β → Linkage → Prop} {failure? : α → Option LinkError}
    (h : ∀ a, job.FailsWith (failure? a) (f a)) (hkeeps : ∀ a, job.Keeps (f a) (right a))
    (as : List α) : job.FailsWith (as.findSome? failure?) (as.mapM f) := by
  induction as with
  | nil => exact .pure []
  | cons a as ih =>
    have hrest : job.FailsWith ((failure? a).or (as.findSome? failure?)) (do
        let b ← f a
        let bs ← as.mapM f
        return b :: bs) :=
      (h a).bind (hkeeps a) fun b _ _ ↦
        ih.andThen (.mapM hkeeps as) fun bs _ _ ↦ .pure (b :: bs)
    rw [List.mapM_cons, List.findSome?_cons]
    cases hfailure : failure? a <;> rwa [hfailure] at hrest

end FailsWith

/-! ### Linking a reference -/

/-- A visit fails at the imports of the module, -/
theorem failsWith_importMapOf (hm : job.registry.module? m.path = some m) :
    job.FailsWith (job.importFailure? m) (job.importMapOf m) := by
  intro l hvalid e
  cases hkept : l.importMaps.get? m.path with
  | some imports =>
    obtain ⟨m', warnings, hm', hmap⟩ := hvalid.cached m.path _ hkept
    obtain rfl := Option.some.inj (hm.symm.trans hm')
    rw [run_importMapOf_of_kept hkept, importFailure?, hmap]
    exact FailsWith.pure imports l hvalid e
  | none =>
    cases hmap : m.importMap job.registry with
    | error b =>
      rw [run_importMapOf_of_error hkept hmap, importFailure?, hmap]
      exact FailsWith.throw _ l hvalid e
    | ok r =>
      rw [run_importMapOf_of_ok hkept hmap, importFailure?, hmap]
      simp only [reduceCtorEq]

/-- An argument is only looked at when the import map has been made, and then it does not fail. -/
theorem failsWith_argValue (hm : job.registry.module? m.path = some m)
    (himports : job.importFailure? m = none) (arg : String) :
    job.FailsWith none (job.argValue m args arg) := by
  rw [argValue]
  split
  · exact .pure _
  · split
    · exact .modifyGet _
    · have hmap := failsWith_importMapOf hm
      rw [himports] at hmap
      refine hmap.bind (keeps_importMapOf hm) fun imports _ _ ↦ ?_
      split
      · exact .modifyGet _
      · exact .pure arg

/-- but not at parameters, once the imports are known, -/
theorem failsWith_bindParams (hm : job.registry.module? m.path = some m)
    (himports : job.importFailure? m = none) (required : Bool) (span : Span)
    (params : List (String × Option String)) (given : List String) :
    job.FailsWith none (job.bindParams m args required span params given) := by
  induction params generalizing given with
  | nil => exact .pure []
  | cons param params ih =>
    have hvalue : job.FailsWith none (job.paramValue? m args param given.head?) := by
      cases given.head? with
      | some arg => exact (failsWith_argValue hm himports arg).map (keeps_argValue hm arg)
      | none => exact .pure _
    have hrest (bound : Args) : job.FailsWith none (do
        return bound ++ (← job.bindParams m args required span params given.tail)) :=
      (ih given.tail).bind (keeps_bindParams hm required span params given.tail) fun rest _ _ ↦
        .pure (bound ++ rest)
    rw [bindParams]
    refine hvalue.bind (keeps_paramValue? hm param given.head?) fun value? _ _ ↦ ?_
    cases value? with
    | some value => exact hrest [(param.1, value)]
    | none =>
      dsimp only
      split
      · exact (FailsWith.modify _).bind (keeps_warn _) fun _ _ _ ↦ hrest [(param.1, param.1)]
      · exact hrest []

/-- Linking a reference that is looked up in the imports fails if they cannot be made or give it
several meanings. -/
theorem failsWith_linkImported (hm : job.registry.module? m.path = some m)
    (reference : Reference) :
    job.FailsWith ((job.importFailure? m).or <|
      match job.resolution m reference.path with
      | .ambiguous candidates => some (.ambiguous m.path (codePath reference.path) candidates)
      | _ => none) (job.linkImported m args reference) := by
  have hmap := failsWith_importMapOf hm
  cases himports : job.importFailure? m with
  | some e =>
    rw [himports] at hmap
    exact hmap.failed _
  | none =>
    rw [himports] at hmap
    refine hmap.bind (keeps_importMapOf hm) fun imports _ hresolve ↦ ?_
    rw [hresolve]
    cases imports.resolve reference.path with
    | found target exportPath given =>
      refine ((failsWith_bindParams hm himports _ _ _ _).bind (keeps_bindParams hm _ _ _ _)
        fun values _ _ ↦ .pure _).bind (keeps_importedInstance hm target _ _) fun key _ _ ↦ ?_
      exact (FailsWith.modifyGet _).map (keeps_reach key)
    | unresolved =>
      dsimp only
      split
      · exact (FailsWith.modify _).bind (keeps_warn _) fun _ _ _ ↦ .pure none
      · exact .pure none
    | ambiguous candidates => exact .throw _

theorem failsWith_linkBound (binding : IdentId) :
    job.FailsWith none (job.linkBound m args binding) := by
  rw [linkBound]
  split
  · split
    · exact (FailsWith.modifyGet _).map (keeps_reach _)
    · exact .pure none
  · exact .pure none

/-- and it fails at a reference for the reason given for it. -/
theorem failsWith_linkReference (hm : job.registry.module? m.path = some m)
    (reference : Reference) :
    job.FailsWith (job.linkFailure? m args reference) (job.linkReference m args reference) := by
  rw [linkReference, linkFailure?, ← Module.binding?]
  cases m.binding? reference with
  | some binding => exact failsWith_linkBound binding
  | none =>
    rw [Option.isSome_none, Bool.false_or]
    split
    · exact .pure none
    · exact failsWith_linkImported hm reference

/-! ### Visiting an instance -/

theorem failsWith_renameReference (hm : job.registry.module? m.path = some m)
    (reference : Reference) :
    job.FailsWith (job.linkFailure? m args reference) (job.renameReference m args reference) := by
  refine (failsWith_linkReference hm reference).andThen (keeps_linkReference hm reference)
    fun name? _ _ ↦ ?_
  split
  · split
    · exact .pure none
    · exact .pure _
  · exact .pure none

/-- A visit fails with what the first of the references fails with that fail, whatever has been
linked before. -/
theorem failsWith_visit (hjob : job.Sound) (key : InstanceKey) (name : String) :
    job.FailsWith (job.visitFailure? key) (job.visit key name) := by
  rw [visit, visitFailure?]
  cases key.target with
  | generator module generator => exact .pure ()
  | decl module index =>
    dsimp only
    cases hdecl : job.decl? module index with
    | none => exact .pure ()
    | some found =>
      obtain ⟨m, d⟩ := found
      have hm := hjob.module?_path (decl?_eq_some hdecl).1
      have hrenames : job.FailsWith ((m.references d).findSome? (job.linkFailure? m key.args))
          (job.renamesOf m d key.args name) :=
        (FailsWith.mapM (failsWith_renameReference hm) (keeps_renameReference hm)
          (m.references d)).andThen (.mapM (keeps_renameReference hm) (m.references d))
          fun _ _ _ ↦ .pure _
      exact hrenames.andThen (keeps_renamesOf hm name) fun _ _ _ ↦ .modify _

end LinkJob

end ShaderLink
