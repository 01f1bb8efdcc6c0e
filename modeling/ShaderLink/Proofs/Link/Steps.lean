import ShaderLink.Proofs.Link.Run

/-!
# What the linker does to a linkage

All that the linker ever does to a linkage is to reach an instance, to keep import maps and
warnings, and to give an instance its splices. A relation between linkages that holds of these three
and can be chained (`LinkJob.StepClosed`) holds between the linkages before and after every part of
linking.
-/

namespace ShaderLink

namespace LinkJob

/-- The relation holds of each thing that the linker does to a linkage, and of several in turn. -/
structure StepClosed (job : LinkJob) (R : Linkage → Linkage → Prop) : Prop where
  refl (l : Linkage) : R l l
  trans {l l' l'' : Linkage} (h : R l l') (h' : R l' l'') : R l l''
  reach (key : InstanceKey) (l : Linkage) : R l (job.reach key l).2
  /-- Import maps are kept, or there is a warning. -/
  note (importMaps : OrderedMap ModulePath ImportMap) (warnings : List Warning) (l : Linkage) :
    R l { l with importMaps, warnings }
  settle (key : InstanceKey) (renames : List Splice) (l : Linkage) :
    R l { l with instances := l.instances.modify key fun i ↦ { i with renames } }

/-- The computation only leads to linkages that the relation relates to the one before. -/
def Within (R : Linkage → Linkage → Prop) {α : Type} (x : Linking α) : Prop :=
  ∀ l a l', x.Runs l a l' → R l l'

namespace StepClosed

variable {job : LinkJob} {R : Linkage → Linkage → Prop} {α β : Type} {x : Linking α} {m : Module}
  {args : Args}

/-! ### Computations put together -/

theorem pure (hR : job.StepClosed R) (a : α) : Within R (Pure.pure a) := by
  intro l a' l' hrun
  obtain ⟨-, rfl⟩ := hrun.pure
  exact hR.refl l

theorem thrown (e : LinkError) : Within R (throw e : Linking α) :=
  fun _ _ _ hrun ↦ hrun.not_throw.elim

/-- Two computations in turn, of which the second may depend on the value of the first. -/
theorem bind (hR : job.StepClosed R) {f : α → Linking β} (hx : Within R x)
    (hf : ∀ a, Within R (f a)) : Within R (x >>= f) := by
  intro l b l' hrun
  obtain ⟨a, l₁, hfirst, hrest⟩ := hrun.bind
  exact hR.trans (hx l a l₁ hfirst) (hf a l₁ b l' hrest)

theorem map (hR : job.StepClosed R) (hx : Within R x) (f : α → β) : Within R (f <$> x) := by
  rw [map_eq_pure_bind]
  exact hR.bind hx fun a ↦ hR.pure (f a)

/-- One computation for each element of a list. -/
theorem mapM (hR : job.StepClosed R) {f : α → Linking β} (h : ∀ a, Within R (f a))
    (as : List α) : Within R (as.mapM f) := by
  induction as with
  | nil => exact hR.pure []
  | cons a as ih =>
    rw [List.mapM_cons]
    exact hR.bind (h a) fun b ↦ hR.bind ih fun bs ↦ hR.pure (b :: bs)

/-- A change to the linkage need only be related to what it changes. -/
theorem modify {f : Linkage → Linkage} (h : ∀ l, R l (f l)) : Within R (modify f) := by
  intro l u l' hrun
  obtain rfl := hrun.modified
  exact h l

/-! ### Linking references -/

/-- Reaching an instance is the first of the three things. -/
theorem reached (hR : job.StepClosed R) (key : InstanceKey) :
    Within R (modifyGet (job.reach key)) := by
  intro l name l' hrun
  have hrelated := hR.reach key l
  rwa [hrun.modifyGet] at hrelated

/-- A warning changes nothing else. -/
theorem warn (hR : job.StepClosed R) (w : Warning) : Within R (Linking.warn w) :=
  modify fun l ↦ hR.note l.importMaps (l.warnings ++ [w]) l

/-- The import map of a module is made once and kept, and making it may come with warnings. -/
theorem importMapOf (hR : job.StepClosed R) (m : Module) : Within R (job.importMapOf m) := by
  intro l imports l' hrun
  obtain ⟨l₁, l₂, hget, hrest⟩ := hrun.bind
  obtain ⟨rfl, rfl⟩ := hget.get
  split at hrest
  · obtain ⟨-, rfl⟩ := hrest.pure
    exact hR.refl l
  · split at hrest
    · exact hrest.not_throw.elim
    · exact hR.bind (modify fun l ↦ hR.note _ _ l) (fun _ ↦ hR.pure _) _ _ _ hrest

/-- An argument is a value as it stands, or it makes an instance of what it names. -/
theorem argValue (hR : job.StepClosed R) (arg : String) : Within R (job.argValue m args arg) := by
  rw [LinkJob.argValue]
  split
  · exact hR.pure _
  · split
    · exact hR.reached _
    · refine hR.bind (hR.importMapOf m) fun imports ↦ ?_
      split
      · exact hR.reached _
      · exact hR.pure arg

theorem paramValue? (hR : job.StepClosed R) (param : String × Option String)
    (given : Option String) : Within R (job.paramValue? m args param given) := by
  cases given with
  | some arg => exact hR.map (hR.argValue arg) some
  | none => exact hR.pure _

/-- Parameters are bound one by one, each to an argument or to a value of its own. Giving up
halfway, as happens for want of a required argument, comes with a warning. -/
theorem bindParams (hR : job.StepClosed R) (required : Bool) (span : Span)
    (params : List (String × Option String)) (given : List String) :
    Within R (job.bindParams m args required span params given) := by
  induction params generalizing given with
  | nil => exact hR.pure []
  | cons param params ih =>
    have hrest (bound : Args) : Within R (do
        return bound ++ (← job.bindParams m args required span params given.tail)) :=
      hR.bind (ih given.tail) fun rest ↦ hR.pure (bound ++ rest)
    rw [LinkJob.bindParams]
    refine hR.bind (hR.paramValue? param given.head?) fun value? ↦ ?_
    split
    · exact hrest _
    · split
      · exact hR.bind (hR.warn _) fun _ ↦ hrest _
      · exact hrest []

/-- What an imported name refers to is reached, with the values of its parameters. -/
theorem linkImported (hR : job.StepClosed R) (reference : Reference) :
    Within R (job.linkImported m args reference) := by
  refine hR.bind (hR.importMapOf m) fun imports ↦ ?_
  split
  · refine hR.bind (hR.bind (hR.bindParams _ _ _ _) fun values ↦ hR.pure _) fun key ↦ ?_
    exact hR.map (hR.reached key) some
  · split
    · exact hR.bind (hR.warn _) fun _ ↦ hR.pure none
    · exact hR.pure none
  · exact thrown _

/-- A reference is bound in its module, imported, or left as it is. -/
theorem linkReference (hR : job.StepClosed R) (reference : Reference) :
    Within R (job.linkReference m args reference) := by
  rw [LinkJob.linkReference]
  split
  · rw [linkBound]
    split
    · split
      · exact hR.map (hR.reached _) some
      · exact hR.pure none
    · exact hR.pure none
  · split
    · exact hR.pure none
    · exact hR.linkImported reference

theorem renameReference (hR : job.StepClosed R) (reference : Reference) :
    Within R (job.renameReference m args reference) := by
  refine hR.bind (hR.linkReference reference) fun name? ↦ ?_
  split
  · split
    · exact hR.pure none
    · exact hR.pure _
  · exact hR.pure none

/-! ### Visits -/

/-- A visit links the references of one instance, and then gives it its splices. -/
theorem visit (hR : job.StepClosed R) (key : InstanceKey) (name : String) :
    Within R (job.visit key name) := by
  rw [LinkJob.visit]
  split
  · exact hR.pure ()
  · split
    · exact hR.pure ()
    · rename_i m d _
      have hrenames : Within R (job.renamesOf m d key.args name) :=
        hR.bind (hR.mapM hR.renameReference (m.references d)) fun _ ↦ hR.pure _
      exact hR.bind hrenames fun renames ↦ modify (hR.settle key renames)

end StepClosed

end LinkJob

end ShaderLink
