import ShaderLink.Proofs.Link.Termination

/-!
# Inherited values

Values of parameters are given to a declaration that is **entered** from outside: as a declaration
of the root, by an import, as an argument, or because whole modules are asked for. Inside the module
they are handed on: what a declaration **leads to** there is linked with the same values, whether it
uses them or not. So a declaration has one instance for each list of values with which its module is
entered at a declaration that leads to it (`LinkJob.needed_iff_entered`).

Only an exported declaration with parameters can be entered with values. Without one that leads to
it, a declaration is linked once; and the instances of a declaration that mentions no parameter
refer to the same declarations and generators, reference by reference.
-/

namespace ShaderLink

open Relation (ReflTransGen)

namespace LinkJob

variable (job : LinkJob)

/-- The arguments of the import by which a reference is linked, as far as there are parameters for
them. -/
def passedArgs (m : Module) (args : Args) (reference : Reference) : List String :=
  match m.binding? reference with
  | some _ => []
  | none =>
    if args.any fun a ↦ [a.1] == reference.path then []
    else
      match job.resolution m reference.path with
      | .found target _ given => (given.getD []).take (job.paramsOf target).length
      | _ => []

/-- The declaration is linked with the values because of something outside the module, judging by
the names in a linkage. -/
inductive Entered (l : Linkage) (module : ModulePath) (index : Nat) : Args → Prop
  | root {d : Decl} (hmodule : module = job.root.path) (hd : (index, d) ∈ job.root.decls) :
    Entered l module index []
  | imported {user : ModulePath} {place : Nat} {args given : Args} {m : Module} {d : Decl}
    {reference : Reference} (h : job.Needed l ⟨.decl user place, args⟩)
    (hdecl : job.decl? user place = some (m, d)) (hreference : reference ∈ m.references d)
    (hunbound : m.binding? reference = none)
    (hkey : job.referenceKey? l m args reference = some ⟨.decl module index, given⟩) :
    Entered l module index given
  | passed {user : ModulePath} {place : Nat} {args : Args} {m : Module} {d : Decl}
    {reference : Reference} {arg : String} {exportPath : List String}
    (h : job.Needed l ⟨.decl user place, args⟩) (hdecl : job.decl? user place = some (m, d))
    (hreference : reference ∈ m.references d) (harg : arg ∈ job.passedArgs m args reference)
    (hparam : (args.find? fun a ↦ a.1 == arg) = none) (hown : m.findDecl? arg = none)
    (hfound : job.resolution m [arg] = .found (.decl module index) exportPath none) :
    Entered l module index []
  | whole {place : Nat} {args : Args} {m : Module} {d : Decl}
    (hwhole : job.options.wholeFile = true) (h : job.Needed l ⟨.decl module place, args⟩)
    (hne : module ≠ job.root.path) (hm : job.registry.module? module = some m)
    (hd : (index, d) ∈ m.decls) : Entered l module index []

variable {job} {l : Linkage} {m : Module} {d : Decl} {args args' : Args} {reference : Reference}
  {key : InstanceKey} {module path : ModulePath} {index index' bound : Nat}

theorem decl?_of_module? (hm : job.registry.module? module = some m)
    (hd : m.decl? index = some d) : job.decl? module index = some (m, d) := by
  simp [decl?, hm, hd]

/-! ### Arguments -/

theorem argumentKeys_eq (job : LinkJob) (m : Module) (args : Args) (reference : Reference) :
    job.argumentKeys m args reference =
      (job.passedArgs m args reference).filterMap (job.linkedArg? m args) := by
  rw [argumentKeys, passedArgs]
  cases m.binding? reference with
  | some binding => rfl
  | none =>
    dsimp only
    split
    · rfl
    · cases job.resolution m reference.path <;> rfl

/-- An argument that is linked is a declaration of the module, linked with the values in force, or
is imported, and linked without values. -/
theorem mem_argumentKeys_iff : key ∈ job.argumentKeys m args reference ↔
    ∃ arg ∈ job.passedArgs m args reference, args.find? (fun a ↦ a.1 == arg) = none ∧
      ((∃ other, m.findDecl? arg = some other ∧ key = ⟨.decl m.path other.1, args⟩) ∨
        m.findDecl? arg = none ∧ ∃ target exportPath,
          job.resolution m [arg] = .found target exportPath none ∧ key = ⟨target, []⟩) := by
  rw [argumentKeys_eq, List.mem_filterMap]
  refine exists_congr fun arg ↦ and_congr_right fun _ ↦ ?_
  rw [linkedArg?]
  cases hfind : args.find? fun a ↦ a.1 == arg with
  | some a => simp
  | none =>
    rw [argKey?]
    cases hown : m.findDecl? arg with
    | some other => simp [eq_comm]
    | none =>
      dsimp only
      split
      · rename_i target exportPath hfound
        simp [hfound, eq_comm]
      · rename_i hother
        simp only [reduceCtorEq, true_and, false_and, exists_false, false_or, false_iff, not_exists,
          not_and]
        exact fun target exportPath hfound ↦ (hother target exportPath hfound).elim

/-! ### Entering a module and leading on -/

/-- What is entered is needed. -/
theorem Entered.needed (h : job.Entered l module index args) :
    job.Needed l ⟨.decl module index, args⟩ := by
  cases h with
  | root hmodule hd =>
    subst hmodule
    exact .root hd
  | imported h hdecl hreference _ hkey => exact h.reference hdecl hreference hkey
  | passed h hdecl hreference harg hparam hown hfound =>
    exact h.argument hdecl hreference
      (mem_argumentKeys_iff.2 ⟨_, harg, hparam, .inr ⟨hown, _, _, hfound, rfl⟩⟩)
  | whole hwhole h hne hm hd => exact .whole hwhole h hne hm hd

/-- A declaration that an import leads to is exported. -/
theorem exported_of_resolution (hr : job.registry.Built) {reference exportPath : List String}
    {given : Option (List String)}
    (h : job.resolution m reference = .found (.decl module index) exportPath given) :
    ∃ m' d, job.decl? module index = some (m', d) ∧ d.exported = true := by
  rw [resolution] at h
  split at h
  · rename_i imports warnings hmap
    cases Module.leads_of_importMap hr hmap (ImportMap.get?_of_resolve h) with
    | @decl _ m' _ d hm hd hexported => exact ⟨m', d, by simp [decl?, hm, hd], hexported⟩
  · cases h

end LinkJob

namespace Registry

end Registry

end ShaderLink
