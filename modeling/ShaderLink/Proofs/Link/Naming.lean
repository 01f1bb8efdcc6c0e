import Mathlib.Logic.Relation
import ShaderLink.Proofs.Link.Capture
import ShaderLink.Proofs.Link.Steps
import ShaderLink.Proofs.Link.Worklist

/-!
# Names of instances

Everything the linker does to a linkage is a sequence of small steps: an instance is added unless it
is there, a module is added, import maps and warnings are kept, an instance gets its splices. So the
linkages met on the way, in the middle of a visit too, are among those that steps lead to from the
start. In all of them the instances have different names if the declarations of the root have, the
declarations of the root have the names that they were given, and no step changes a name.
-/

namespace ShaderLink

namespace LinkJob

variable (job : LinkJob)

/-- One thing that the linker does to a linkage. -/
inductive Step (l : Linkage) : Linkage → Prop
  | addInstance (key : InstanceKey) : Step l (job.addInstance key l).2
  | addModule (module : ModulePath) : Step l { l with modules := l.modules ++ [module] }
  /-- The import map of a module is kept, or there is a warning. -/
  | note (importMaps : OrderedMap ModulePath ImportMap) (warnings : List Warning) :
    Step l { l with importMaps, warnings }
  | settle (key : InstanceKey) (renames : List Splice) :
    Step l { l with instances := l.instances.modify key fun i ↦ { i with renames } }

/-- What the linker does to a linkage in some steps. -/
abbrev Steps : Linkage → Linkage → Prop :=
  Relation.ReflTransGen job.Step

/-- The linkage can have come about on the way. -/
def Reachable (l : Linkage) : Prop :=
  job.Steps job.start l

variable {job} {l l' : Linkage} {n : Nat}

/-! ### The linker goes in steps -/

/-- The declarations of a module are added one by one, and then the module itself. -/
theorem steps_addModule (module : ModulePath) (l : Linkage) :
    job.Steps l (job.addModule module l) := by
  have hall (decls : List (Nat × Decl)) (l : Linkage) : job.Steps l
      (decls.foldl (fun l d ↦ (job.addInstance ⟨.decl module d.1, []⟩ l).2) l) := by
    induction decls generalizing l with
    | nil => exact .refl
    | cons d decls ih => exact .head (.addInstance ⟨.decl module d.1, []⟩) (ih _)
  rw [LinkJob.addModule]
  split
  · exact .refl
  · exact .head (.addModule module) (hall _ _)

/-- Reaching an instance may bring its whole module with it. -/
theorem steps_reach (key : InstanceKey) (l : Linkage) : job.Steps l (job.reach key l).2 := by
  have hadded : job.Steps l (job.addInstance key l).2 := .single (.addInstance key)
  rw [LinkJob.reach]
  dsimp only
  split
  · exact hadded.trans (steps_addModule _ _)
  · exact hadded

/-- So all that linking does are steps. -/
theorem stepClosed_steps (job : LinkJob) : job.StepClosed job.Steps where
  refl _ := .refl
  trans h h' := h.trans h'
  reach := steps_reach
  note _ _ _ := .single (.note _ _)
  settle _ _ _ := .single (.settle _ _)

/-- The linkages between visits are among those met on the way. -/
theorem After.reachable (h : job.After n l) : job.Reachable l := by
  induction h with
  | start hrun => exact job.stepClosed_steps.importMapOf job.root _ _ _ hrun
  | visit _ _ hrun ih => exact ih.trans (job.stepClosed_steps.visit _ _ _ _ _ hrun)

/-- More visits are more steps. -/
theorem After.steps {m : Nat} (h : job.After m l) (h' : job.After n l') (hle : m ≤ n) :
    job.Steps l l' := by
  induction h' generalizing l with
  | start hrun =>
    obtain rfl := Nat.le_zero.1 hle
    rw [h.unique (.start hrun)]
  | visit h' hget hrun ih =>
    rcases Nat.le_or_eq_of_le_succ hle with hle | rfl
    · exact (ih h hle).trans (job.stepClosed_steps.visit _ _ _ _ _ hrun)
    · rw [h.unique (.visit h' hget hrun)]

/-! ### Steps keep names -/

/-- A step gives no new name to an instance that has one. -/
theorem Step.name?_eq (h : job.Step l l') {key : InstanceKey} {name : String}
    (hname : l.name? key = some name) : l'.name? key = some name := by
  cases h with
  | addInstance key' => exact (extends_addInstance rfl).1.grows.names key name hname
  | addModule module => exact hname
  | note importMaps warnings => exact hname
  | settle key' renames => rwa [name?_modify]

/-- The name of a new instance is fresh or is kept for it. -/
theorem Step.wellNamed (h : job.Step l l') (hnamed : job.WellNamed l) : job.WellNamed l' := by
  cases h with
  | addInstance key => exact hnamed.addInstance rfl
  | addModule module => exact hnamed.of_eq (fun _ ↦ rfl) rfl
  | note importMaps warnings => exact hnamed.of_eq (fun _ ↦ rfl) rfl
  | settle key renames => exact hnamed.of_eq (fun _ ↦ name?_modify _ _ _ _) rfl

theorem Steps.name?_eq (h : job.Steps l l') {key : InstanceKey} {name : String}
    (hname : l.name? key = some name) : l'.name? key = some name := by
  induction h with
  | refl => exact hname
  | tail _ hstep ih => exact hstep.name?_eq ih

/-- By induction on the steps, names are in order on the whole way. -/
theorem Reachable.wellNamed (h : job.Reachable l) : job.WellNamed l := by
  induction h with
  | refl => exact (valid_start job).wellNamed
  | tail _ hstep ih => exact hstep.wellNamed ih

/-- Two instances of one name are the same if the declarations of the root have different names. -/
theorem WellNamed.eq_of_name? (h : job.WellNamed l)
    (hroot : (job.root.decls.map fun d ↦ d.2.name).Nodup) {key key' : InstanceKey} {name : String}
    (hname : l.name? key = some name) (hname' : l.name? key' = some name) : key = key' := by
  rcases h.distinct key key' name hname hname' with heq | ⟨hstart, hstart'⟩
  · exact heq
  · obtain ⟨d, hd, rfl, hd_name⟩ := start_name?_mem hstart
    obtain ⟨d', hd', rfl, hd_name'⟩ := start_name?_mem hstart'
    rw [List.inj_on_of_nodup_map hroot hd hd' (hd_name.symm.trans hd_name')]

/-- If the declarations of the root have different names, all instances have in every linkage met on
the way, the declarations of the root have their own, and every instance keeps its name. The
linkages after visits are met on the way, one behind the other. -/
theorem names_of_reachable (hroot : (job.root.decls.map fun d ↦ d.2.name).Nodup) :
    (∀ n l, job.After n l → job.Reachable l ∧
        ∀ n' l', n ≤ n' → job.After n' l' → job.Steps l l') ∧
      ∀ l, job.Reachable l → (l.instances.values.map Instance.name).Nodup ∧
        (∀ d ∈ job.root.decls, l.name? ⟨.decl job.root.path d.1, []⟩ = some d.2.name) ∧
        ∀ l', job.Steps l l' → ∀ key name, l.name? key = some name → l'.name? key = some name := by
  refine ⟨fun n l h ↦ ⟨h.reachable, fun n' l' hle h' ↦ h.steps h' hle⟩, fun l h ↦
    ⟨?_, fun d hd ↦ ?_, fun l' hsteps key name ↦ hsteps.name?_eq⟩⟩
  · have hkeys : l.instances.toList.Pairwise fun e e' ↦ e.1 ≠ e'.1 :=
      List.pairwise_map.1 l.instances.nodup_keys
    rw [OrderedMap.values, List.map_map]
    -- two instances of one name would be one instance
    refine List.pairwise_map.2 (hkeys.imp_of_mem fun {e e'} he he' hne heq ↦ hne ?_)
    have heq : e.2.name = e'.2.name := heq
    refine h.wellNamed.eq_of_name? hroot (Linkage.name?_of_mem he) ?_
    rw [heq]
    exact Linkage.name?_of_mem he'
  · exact Steps.name?_eq h (start_name?_of_mem hd)

end LinkJob

namespace Registry

theorem names_clashing : ∃ root l, clashing.root ["main"] = .ok root ∧
    (root.decls.map fun d ↦ d.2.name).Nodup ∧
    (⟨clashing, ⟨.empty, false⟩, root⟩ : LinkJob).Reachable l ∧
    l.instances.values.map Instance.name = ["sum", "foo", "foo0", "foo1"] ∧
    (l.instances.values.map Instance.name).Nodup := by
  have heval : (do
      let root ← (clashing.root ["main"]).toOption
      let l ← ((⟨clashing, ⟨.empty, false⟩, root⟩ : LinkJob).close 10).toOption
      return (root.decls.map fun d ↦ d.2.name, l.instances.values.map Instance.name)) =
      some (["sum"], ["sum", "foo", "foo0", "foo1"]) := by
    decide +kernel
  obtain ⟨root, hroot, heval⟩ := Option.bind_eq_some_iff.1 heval
  obtain ⟨l, hclose, heval⟩ := Option.bind_eq_some_iff.1 heval
  obtain ⟨hdecls, hnames⟩ := Prod.mk.inj (Option.some.inj heval)
  have hroot := Except.eq_ok_of_toOption hroot
  obtain ⟨n, hafter, -, -⟩ := LinkJob.after_of_close (Except.eq_ok_of_toOption hclose)
  -- nothing below depends on what the registry is
  generalize clashing = r at hroot hafter ⊢
  have hdistinct : (root.decls.map fun d ↦ d.2.name).Nodup := by
    rw [hdecls]
    decide
  obtain ⟨hreachable, hkept⟩ :=
    @LinkJob.names_of_reachable ⟨r, ⟨.empty, false⟩, root⟩ hdistinct
  have hl := (hreachable n l hafter).1
  exact ⟨root, l, hroot, hdistinct, hl, hnames, (hkept l hl).1⟩

end Registry

end ShaderLink
