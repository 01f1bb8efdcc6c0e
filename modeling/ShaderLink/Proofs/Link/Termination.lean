import Mathlib.Algebra.Order.BigOperators.Group.List
import Mathlib.Algebra.Order.Ring.Nat
import Mathlib.Data.Set.Finite.Lattice
import Mathlib.Data.Set.Finite.List
import Mathlib.Data.Set.List
import ShaderLink.Proofs.Link.Divergence

/-!
# When linking comes to an end

Linking comes to an end if and only if it reaches only finitely many instances. It need not: values
of parameters can be names of instances, and a declaration that is instantiated with a declaration
of its own module has an instance for each instance of that.

The names cannot go on for ever if modules have a **rank** that does not fall along imports with
arguments, and grows where an argument is a declaration of the importing module (`LinkJob.Ranked`).
Then values are nested only as deep as ranks go (`LinkJob.values`), and there are finitely many
values of each depth. References without arguments, and imports with arguments that are no
declarations of the importing module, may be as cyclic as they like.
-/

namespace ShaderLink

/-- Some declaration of the module has parameters. -/
def Module.isGeneric (m : Module) : Bool :=
  m.decls.any fun d ↦ !d.2.params.isEmpty

namespace LinkJob

variable (job : LinkJob)

/-- A declaration of the module gives arguments to a declaration of another module, or of the same,
that has parameters. -/
def Instantiates (m : Module) (module : ModulePath) (given : List String) : Prop :=
  ∃ d ∈ m.decls, ∃ reference ∈ m.references d.2, m.binding? reference = none ∧
    ∃ index exportPath, job.paramsOf (.decl module index) ≠ [] ∧
      job.resolution m reference.path = .found (.decl module index) exportPath (some given)

/-- Arguments only go to modules of no lower rank, and declarations of the module that gives them
only to modules of a higher one. Modules without parameters may do as they like. -/
def Ranked (rank : ModulePath → Nat) : Prop :=
  ∀ m ∈ job.registry.modules, m.isGeneric = true → ∀ module given, job.Instantiates m module given →
    rank m.path ≤ rank module ∧
      ((∃ arg ∈ given, (m.findDecl? arg).isSome) → rank m.path < rank module)

/-- The arguments that the import of a reference gives. -/
def givenAt (m : Module) (reference : Reference) : List String :=
  match job.resolution m reference.path with
  | .found _ _ given => given.getD []
  | _ => []

/-- Modules need no ranks if no argument is a declaration of the module that gives it. -/
theorem ranked_zero {job : LinkJob} (h : ∀ m ∈ job.registry.modules, ∀ d ∈ m.decls,
    ∀ reference ∈ m.references d.2, ∀ arg ∈ job.givenAt m reference, m.findDecl? arg = none) :
    job.Ranked fun _ ↦ 0 := by
  rintro m hm - module given ⟨d, hd, reference, hreference, -, index, exportPath, -, hfound⟩
  refine ⟨le_rfl, ?_⟩
  rintro ⟨arg, harg, hown⟩
  have hgiven : arg ∈ job.givenAt m reference := by
    rwa [givenAt, hfound]
  rw [h m hm d hd reference hreference arg hgiven] at hown
  cases hown

/-! ### Values of parameters -/

/-- The declarations and generators in the registry. -/
def targets : List Target :=
  (job.registry.modules.flatMap fun m ↦ m.decls.map fun d ↦ .decl m.path d.1) ++
    job.registry.generators.values.map fun g ↦ .generator g.module g.name

/-- All parameters. -/
def params : List (String × Option String) :=
  job.targets.flatMap job.paramsOf

/-- The values that are written somewhere: as values of options, as parameters or their defaults, or
as arguments. -/
def constants : List String :=
  job.options.params.values ++ (job.params.flatMap fun p ↦ p.1 :: p.2.toList) ++
    job.registry.modules.flatMap fun m ↦ m.decls.flatMap fun d ↦
      (m.references d.2).flatMap (job.givenAt m)

/-- The instances of what is in the registry with values from a set. -/
def keysWith (values : Set String) : Set InstanceKey :=
  {key | key.target ∈ job.targets ∧ key.args.length ≤ job.params.length ∧
    ∀ a ∈ key.args, a.1 ∈ job.params.map Prod.fst ∧ a.2 ∈ values}

/-- The instance has the name after some number of visits. -/
def Named (key : InstanceKey) (name : String) : Prop :=
  ∃ n l, job.After n l ∧ l.name? key = some name

/-- The values that are written somewhere, and at each depth the names of instances that have
values of smaller depths. -/
def values : Nat → Set String
  | 0 => {value | value ∈ job.constants}
  | depth + 1 => values depth ∪ {name | ∃ key ∈ job.keysWith (values depth), job.Named key name}

variable {job} {l l' : Linkage} {m : Module} {d : Decl} {args : Args} {key : InstanceKey}
  {name value : String} {n bound : Nat} {path : ModulePath} {target : Target}

/-! ### Finitely many values of each depth -/

/-- An instance has one name. -/
theorem Named.unique (hjob : job.Sound) {name' : String} (h : job.Named key name)
    (h' : job.Named key name') : name = name' := by
  obtain ⟨n, l, hafter, hname⟩ := h
  obtain ⟨n', l', hafter', hname'⟩ := h'
  rcases Nat.le_total n n' with hle | hle
  · have hsame := (hafter.grows hjob hafter' hle).names key name hname
    exact Option.some.inj (hsame.symm.trans hname')
  · have hsame := (hafter'.grows hjob hafter hle).names key name' hname'
    exact Option.some.inj (hname.symm.trans hsame)

/-- From finitely many values finitely many instances can be made. -/
theorem finite_keysWith {values : Set String} (h : values.Finite) :
    (job.keysWith values).Finite := by
  let entries : Set (String × String) := {a | a.1 ∈ job.params.map Prod.fst ∧ a.2 ∈ values}
  have hentries : entries.Finite :=
    ((job.params.map Prod.fst).finite_toSet.prod h).subset fun a ha ↦ ha
  have hargs :
      {args : Args | args.length ≤ job.params.length ∧ ∀ a ∈ args, a ∈ entries}.Finite := by
    have := hentries.to_subtype
    refine ((List.finite_length_le entries job.params.length).image
      (List.map Subtype.val)).subset ?_
    rintro args ⟨hlength, hall⟩
    lift args to List entries using hall
    exact ⟨args, by simpa using hlength, rfl⟩
  refine ((job.targets.finite_toSet.prod hargs).image fun e ↦ (⟨e.1, e.2⟩ : InstanceKey)).subset ?_
  rintro key ⟨htarget, hlength, hall⟩
  exact ⟨(key.target, key.args), ⟨htarget, hlength, hall⟩, rfl⟩

/-- There are finitely many values of each depth. -/
theorem finite_values (hjob : job.Sound) (depth : Nat) : (job.values depth).Finite := by
  induction depth with
  | zero => exact job.constants.finite_toSet
  | succ depth ih =>
    refine ih.union ?_
    have hsub : {name | ∃ key ∈ job.keysWith (job.values depth), job.Named key name} ⊆
        ⋃ key ∈ job.keysWith (job.values depth), {name | job.Named key name} := by
      rintro name ⟨key, hkey, hname⟩
      exact Set.mem_biUnion hkey hname
    refine ((finite_keysWith ih).biUnion fun key _ ↦ ?_).subset hsub
    exact Set.Subsingleton.finite fun name hname name' hname' ↦ hname.unique hjob hname'

/-- A value of some depth counts as one of every greater depth. -/
theorem values_mono {depth depth' : Nat} (h : depth ≤ depth') :
    job.values depth ⊆ job.values depth' := by
  induction h with
  | refl => exact Set.Subset.refl _
  | step _ ih => exact ih.trans Set.subset_union_left

theorem keysWith_mono {values values' : Set String} (h : values ⊆ values') :
    job.keysWith values ⊆ job.keysWith values' :=
  fun _ hkey ↦ ⟨hkey.1, hkey.2.1, fun a ha ↦ ⟨(hkey.2.2 a ha).1, h (hkey.2.2 a ha).2⟩⟩

/-- The names of instances with values of one depth are values of the next. -/
theorem Named.mem_values {depth : Nat} (h : job.Named key name)
    (hkey : key ∈ job.keysWith (job.values depth)) : name ∈ job.values (depth + 1) :=
  .inr ⟨key, hkey, h⟩

/-! ### Ranks bound the depth of values -/

/-- The depth of the values that instances of a target can have. -/
def depthOf (job : LinkJob) (rank : ModulePath → Nat) : Target → Nat
  | .decl module _ => rank module + 1
  | .generator .. => (job.registry.modules.map fun m ↦ rank m.path + 2).sum

/-- The values of an instance are as deep as its target allows, and there are none if its module has
no parameters. -/
structure Leveled (job : LinkJob) (rank : ModulePath → Nat) (key : InstanceKey) : Prop where
  keys : key ∈ job.keysWith (job.values (job.depthOf rank key.target))
  generic : ∀ module index m, key.target = .decl module index →
    job.registry.module? module = some m → key.args ≠ [] → m.isGeneric = true

variable {rank : ModulePath → Nat} {index : Nat} {reference : Reference}

/-- Generated instances may be deeper than those of any module. -/
theorem rank_le_depthOf (hm : job.registry.module? path = some m) (module : ModulePath)
    (name : String) : rank m.path + 2 ≤ job.depthOf rank (.generator module name) :=
  List.le_sum_of_mem (List.mem_map_of_mem (Registry.mem_modules hm))

/-- All targets of the registry are among the finitely many. -/
theorem mem_targets (hr : job.registry.Built) (h : job.registry.Has target) :
    target ∈ job.targets := by
  cases target with
  | decl module index =>
    obtain ⟨m, d, hm, hd⟩ := h
    refine List.mem_append_left _ (List.mem_flatMap.2 ⟨m, Registry.mem_modules hm, ?_⟩)
    exact List.mem_map.2 ⟨(index, d), Module.mem_decls_iff.2 hd, by rw [hr.path_eq hm]⟩
  | generator module name =>
    obtain ⟨g, hg⟩ := Option.isSome_iff_exists.1 h
    obtain ⟨hmodule, hname⟩ := hr.eq_of_generator? hg
    refine List.mem_append_right _ (List.mem_map.2 ⟨g, OrderedMap.mem_values_of_get? hg, ?_⟩)
    rw [hmodule, hname]

/-- No target has more parameters than there are in all. -/
theorem length_paramsOf_le (h : target ∈ job.targets) :
    (job.paramsOf target).length ≤ job.params.length := by
  rw [params, List.flatMap_def]
  exact (List.sublist_flatten_of_mem (List.mem_map_of_mem h)).length_le

theorem keysWith_nil (h : target ∈ job.targets) (values : Set String) :
    ⟨target, []⟩ ∈ job.keysWith values :=
  ⟨h, Nat.zero_le _, fun _ ha ↦ absurd ha List.not_mem_nil⟩

/-- An instance without arguments is leveled. -/
theorem leveled_nil (h : target ∈ job.targets) : job.Leveled rank ⟨target, []⟩ :=
  ⟨keysWith_nil h _, fun _ _ _ _ _ hne ↦ absurd rfl hne⟩

/-- Instances of declarations of one module can have the same values. -/
theorem Leveled.same {module : ModulePath} {index' : Nat}
    (h : job.Leveled rank ⟨.decl module index, args⟩)
    (htarget : .decl module index' ∈ job.targets) :
    job.Leveled rank ⟨.decl module index', args⟩ := by
  refine ⟨⟨htarget, h.keys.2⟩, fun module' _ m heq hm hne ↦ ?_⟩
  obtain ⟨rfl, -⟩ := Target.decl.inj heq
  exact h.generic module index m rfl hm hne

/-! ### Values of arguments -/

/-- An argument that is written out is a constant. -/
theorem mem_constants_of_given (hm : job.registry.module? path = some m)
    (hd : m.decl? index = some d) (hreference : reference ∈ m.references d) {arg : String}
    (harg : arg ∈ job.givenAt m reference) : arg ∈ job.constants := by
  refine List.mem_append_right _ (List.mem_flatMap.2 ⟨m, Registry.mem_modules hm, ?_⟩)
  refine List.mem_flatMap.2 ⟨(index, d), Module.mem_decls_iff.2 hd, ?_⟩
  exact List.mem_flatMap.2 ⟨reference, hreference, harg⟩

theorem mem_constants_of_param {p : String × Option String} (hp : p ∈ job.params)
    (hvalue : value ∈ p.1 :: p.2.toList) : value ∈ job.constants :=
  List.mem_append_left _ (List.mem_append_right _ (List.mem_flatMap.2 ⟨p, hp, hvalue⟩))

theorem mem_constants_of_option {param : String}
    (h : job.options.params.get? param = some value) : value ∈ job.constants :=
  List.mem_append_left _ (List.mem_append_left _ (OrderedMap.mem_values_of_get? h))

/-- Constants are values of every depth. -/
theorem constants_subset_values (depth : Nat) (h : value ∈ job.constants) :
    value ∈ job.values depth :=
  values_mono (Nat.zero_le depth) h

/-- The value of an argument is at most one deeper than those of the instance that gives it, and
only if it is a declaration of the module. -/
theorem argIn_mem_values (hr : job.registry.Built) (hm : job.registry.module? m.path = some m)
    (hafter : job.After n l) (hkey : job.Leveled rank ⟨.decl m.path index, args⟩) {arg : String}
    (harg : arg ∈ job.constants) {depth : Nat} (hpos : 0 < depth)
    (hdepth : args ≠ [] → rank m.path < depth)
    (hown : args ≠ [] → (m.findDecl? arg).isSome → rank m.path + 1 < depth) :
    job.argIn l m args arg ∈ job.values depth := by
  -- an instance that has no name leaves the argument as it is written
  have hname {key : InstanceKey} {depth' : Nat} (hkey : key ∈ job.keysWith (job.values depth'))
      (hlt : depth' < depth) : ((some key).bind l.name?).getD arg ∈ job.values depth := by
    cases hname : l.name? key with
    | none =>
      rw [Option.bind_some, hname]
      exact constants_subset_values depth harg
    | some name =>
      rw [Option.bind_some, hname]
      have hnamed : job.Named key name := ⟨n, l, hafter, hname⟩
      exact values_mono hlt (hnamed.mem_values hkey)
  rw [argIn]
  split
  · rename_i a hfind
    have ha := List.mem_of_find?_eq_some hfind
    exact values_mono (hdepth (List.ne_nil_of_mem ha)) (hkey.keys.2.2 a ha).2
  · rw [argKey?]
    cases hdecl : m.findDecl? arg with
    | some d =>
      have htarget : .decl m.path d.1 ∈ job.targets := mem_targets hr
        ⟨m, d.2, hm, Module.mem_decls_iff.1 (List.mem_of_find?_eq_some hdecl)⟩
      by_cases hargs : args = []
      · subst hargs
        exact hname (keysWith_nil htarget (job.values 0)) hpos
      · exact hname (hkey.same htarget).keys (hown hargs (by rw [hdecl]; rfl))
    | none =>
      dsimp only
      split
      · rename_i hfound
        have htarget := mem_targets hr (has_of_resolution hr hfound)
        exact hname (keysWith_nil htarget (job.values 0)) hpos
      · exact constants_subset_values depth harg

/-- Each value of a parameter comes from an argument, an option, the parameter's default or the
parameter itself. -/
theorem mem_paramsIn {required : Bool} {params : List (String × Option String)}
    {given : List String} {a : String × String}
    (h : a ∈ job.paramsIn l m args required params given) : ∃ p ∈ params, a.1 = p.1 ∧
      ((∃ arg ∈ given, a.2 = job.argIn l m args arg) ∨ job.options.params.get? p.1 = some a.2 ∨
        a.2 ∈ p.1 :: p.2.toList) := by
  induction params generalizing given with
  | nil => cases h
  | cons p params ih =>
    rw [paramsIn] at h
    rcases List.mem_append.1 h with h | h
    · refine ⟨p, List.mem_cons_self, ?_⟩
      split at h
      · rename_i value hvalue
        obtain rfl := List.mem_singleton.1 h
        refine ⟨rfl, ?_⟩
        cases given with
        | nil =>
          rcases Option.or_eq_some_iff.1 hvalue with hoption | ⟨-, hdefault⟩
          · exact .inr (.inl hoption)
          · exact .inr (.inr (List.mem_cons_of_mem _ (Option.mem_toList.2 hdefault)))
        | cons arg given =>
          exact .inl ⟨arg, List.mem_cons_self, (Option.some.inj hvalue).symm⟩
      · split at h
        · obtain rfl := List.mem_singleton.1 h
          exact ⟨rfl, .inr (.inr List.mem_cons_self)⟩
        · cases h
    · obtain ⟨p', hp', hname, hvalue⟩ := ih h
      refine ⟨p', List.mem_cons_of_mem p hp', hname, hvalue.imp_left ?_⟩
      rintro ⟨arg, harg, heq⟩
      exact ⟨arg, List.mem_of_mem_tail harg, heq⟩

/-- Each parameter gets at most one value. -/
theorem length_paramsIn_le (l : Linkage) (m : Module) (args : Args) (required : Bool)
    (params : List (String × Option String)) (given : List String) :
    (job.paramsIn l m args required params given).length ≤ params.length := by
  induction params generalizing given with
  | nil => exact Nat.zero_le _
  | cons p params ih =>
    rw [paramsIn, List.length_append, List.length_cons, Nat.add_comm]
    refine Nat.add_le_add (ih given.tail) ?_
    split
    · exact le_rfl
    · split
      · exact le_rfl
      · exact Nat.zero_le 1

/-! ### All instances are leveled -/

/-- Only declarations of modules with parameters have parameters. -/
theorem isGeneric_of_mem_paramsOf {module : ModulePath} {m' : Module} {p : String × Option String}
    (hm : job.registry.module? module = some m') (hp : p ∈ job.paramsOf (.decl module index)) :
    m'.isGeneric = true := by
  rw [paramsOf] at hp
  cases hd : job.decl? module index with
  | none =>
    rw [hd] at hp
    cases hp
  | some found =>
    obtain ⟨m₁, d⟩ := found
    obtain ⟨hm₁, hd₁⟩ := decl?_eq_some hd
    obtain rfl := Option.some.inj (hm.symm.trans hm₁)
    rw [hd] at hp
    obtain ⟨param, hparam, -⟩ := List.mem_map.1 hp
    refine List.any_eq_true.2 ⟨(index, d), Module.mem_decls_iff.2 hd₁, ?_⟩
    simpa using List.ne_nil_of_mem hparam

/-- The depth that the target of an import allows is enough for each argument that is given. -/
theorem argIn_mem_values_of_import (hr : job.registry.Built) (hrank : job.Ranked rank)
    (hafter : job.After n l) (hdecl : job.decl? m.path index = some (m, d))
    (hreference : reference ∈ m.references d) (hbinding : m.binding? reference = none)
    (hkey : job.Leveled rank ⟨.decl m.path index, args⟩) {exportPath : List String}
    {given : Option (List String)}
    (hfound : job.resolution m reference.path = .found target exportPath given) {arg : String}
    (harg : arg ∈ given.getD []) (hne : job.paramsOf target ≠ []) :
    job.argIn l m args arg ∈ job.values (job.depthOf rank target) := by
  obtain ⟨hm, hd⟩ := decl?_eq_some hdecl
  have hconstant : arg ∈ job.constants := by
    refine mem_constants_of_given hm hd hreference ?_
    rwa [givenAt, hfound]
  cases target with
  | generator module name =>
    have htop := @rank_le_depthOf job m _ rank hm module name
    exact argIn_mem_values hr hm hafter hkey hconstant (by omega) (fun _ ↦ by omega)
      fun _ _ ↦ by omega
  | decl module index' =>
    cases given with
    | none => cases harg
    | some given =>
      have hinstantiates : job.Instantiates m module given :=
        ⟨(index, d), Module.mem_decls_iff.2 hd, reference, hreference, hbinding, index',
          exportPath, hne, hfound⟩
      have hranks (hargs : args ≠ []) :=
        hrank m (Registry.mem_modules hm) (hkey.generic _ _ m rfl hm hargs) _ _ hinstantiates
      rw [depthOf]
      refine argIn_mem_values hr hm hafter hkey hconstant (Nat.succ_pos _)
        (fun hargs ↦ Nat.lt_succ_of_le (hranks hargs).1) fun hargs hown ↦ ?_
      exact Nat.succ_lt_succ ((hranks hargs).2 ⟨arg, harg, hown⟩)

/-- What an import leads to has values as deep as its rank allows. -/
theorem leveled_importedKey (hr : job.registry.Built) (hrank : job.Ranked rank)
    (hafter : job.After n l) (hdecl : job.decl? m.path index = some (m, d))
    (hreference : reference ∈ m.references d) (hbinding : m.binding? reference = none)
    (hkey : job.Leveled rank ⟨.decl m.path index, args⟩) {exportPath : List String}
    {given : Option (List String)}
    (hfound : job.resolution m reference.path = .found target exportPath given) :
    job.Leveled rank (job.importedKey l m args target (given.getD [])) := by
  have htarget := mem_targets hr (has_of_resolution hr hfound)
  have hparam {p : String × Option String} (hp : p ∈ job.paramsOf target) : p ∈ job.params :=
    List.mem_flatMap.2 ⟨target, htarget, hp⟩
  have hlength : (job.importedKey l m args target (given.getD [])).args.length ≤
      (job.paramsOf target).length := length_paramsIn_le _ _ _ _ _ _
  refine ⟨⟨htarget, hlength.trans (length_paramsOf_le htarget), fun a ha ↦ ?_⟩,
    fun module index' m' heq hm' hne ↦ ?_⟩
  · obtain ⟨p, hp, hname, hfrom⟩ := mem_paramsIn ha
    refine ⟨hname ▸ List.mem_map_of_mem (hparam hp), ?_⟩
    rcases hfrom with ⟨arg, harg, heq⟩ | hoption | hwritten
    · rw [heq]
      exact argIn_mem_values_of_import hr hrank hafter hdecl hreference hbinding hkey hfound harg
        (List.ne_nil_of_mem hp)
    · exact constants_subset_values _ (mem_constants_of_option hoption)
    · exact constants_subset_values _ (mem_constants_of_param (hparam hp) hwritten)
  · obtain rfl : target = .decl module index' := heq
    obtain ⟨a, ha⟩ := List.exists_mem_of_ne_nil _ hne
    obtain ⟨p, hp, -⟩ := mem_paramsIn ha
    exact isGeneric_of_mem_paramsOf hm' hp

/-- What a leveled instance refers to is leveled. -/
theorem Leveled.of_referenceKey? (hr : job.registry.Built) (hrank : job.Ranked rank)
    (hafter : job.After n l) (hdecl : job.decl? m.path index = some (m, d))
    (hreference : reference ∈ m.references d)
    (h : job.Leveled rank ⟨.decl m.path index, args⟩)
    (hkey : job.referenceKey? l m args reference = some key) : job.Leveled rank key := by
  have htarget := mem_targets hr (has_of_referenceKey? hr (decl?_eq_some hdecl).1 hkey)
  rw [referenceKey?] at hkey
  split at hkey
  · rw [boundKey?] at hkey
    split at hkey
    · obtain ⟨d', -, rfl⟩ := Option.map_eq_some_iff.1 hkey
      exact h.same htarget
    · cases hkey
  · rename_i hbinding
    split at hkey
    · cases hkey
    · split at hkey
      · rename_i hfound
        obtain rfl := Option.some.inj hkey
        exact leveled_importedKey hr hrank hafter hdecl hreference hbinding h hfound
      · cases hkey

/-- An argument is linked to a declaration with the same values or to an instance without. -/
theorem Leveled.of_mem_argumentKeys (hr : job.registry.Built)
    (hm : job.registry.module? m.path = some m) (h : job.Leveled rank ⟨.decl m.path index, args⟩)
    (hkey : key ∈ job.argumentKeys m args reference) : job.Leveled rank key := by
  have htarget := mem_targets hr (has_of_mem_argumentKeys hr hm hkey)
  rw [argumentKeys] at hkey
  split at hkey
  · cases hkey
  · split at hkey
    · cases hkey
    · split at hkey
      · obtain ⟨arg, -, hkey⟩ := List.mem_filterMap.1 hkey
        rw [linkedArg?] at hkey
        split at hkey
        · cases hkey
        · rw [argKey?] at hkey
          split at hkey
          · obtain rfl := Option.some.inj hkey
            exact h.same htarget
          · split at hkey
            · obtain rfl := Option.some.inj hkey
              exact leveled_nil htarget
            · cases hkey
      · cases hkey

/-- Whatever is needed has values as deep as ranks allow. -/
theorem Needed.leveled (hjob : job.Sound) (hrank : job.Ranked rank) (hafter : job.After n l)
    (h : job.Needed l key) : job.Leveled rank key := by
  have hr := hjob.built
  induction h with
  | root hd =>
    exact leveled_nil (mem_targets hr ⟨job.root, _, hjob.root, Module.mem_decls_iff.1 hd⟩)
  | reference _ hdecl hreference hkey ih =>
    obtain rfl := hr.path_eq (decl?_eq_some hdecl).1
    exact ih.of_referenceKey? hr hrank hafter hdecl hreference hkey
  | argument _ hdecl _ hkey ih =>
    obtain rfl := hr.path_eq (decl?_eq_some hdecl).1
    exact ih.of_mem_argumentKeys hr (decl?_eq_some hdecl).1 hkey
  | whole _ _ _ hm hd => exact leveled_nil (mem_targets hr ⟨_, _, hm, Module.mem_decls_iff.1 hd⟩)

/-- With ranks, finitely many instances are reached. -/
theorem Ranked.reached_finite (hrank : job.Ranked rank) (hjob : job.Sound) :
    job.reached.Finite := by
  let top := (job.registry.modules.map fun m ↦ rank m.path + 2).sum
  have hfinite : (job.keysWith (job.values top)).Finite := finite_keysWith (finite_values hjob top)
  refine hfinite.subset ?_
  rintro key ⟨n, l, hafter, hkey⟩
  have hneeded := hafter.needed hjob (.refl l) hkey
  have hkeys := (hneeded.leveled hjob hrank hafter).keys
  have hhas := hneeded.has hjob
  refine keysWith_mono (values_mono ?_) hkeys
  cases htarget : key.target with
  | decl module index =>
    rw [htarget] at hhas
    obtain ⟨m, d, hm, -⟩ := hhas
    have hle : rank m.path + 2 ≤ top :=
      List.le_sum_of_mem (List.mem_map_of_mem (Registry.mem_modules hm))
    rw [hjob.built.path_eq hm] at hle
    exact Nat.le_of_succ_le hle
  | generator module name => exact le_rfl

/-- Linking comes to an end with enough visits exactly if it reaches finitely many instances. More
visits than are enough make no difference. If modules have ranks, some number of visits is enough.
If a declaration feeds itself and is linked with a value that is no name for the declaration that it
is fed with, then no number of visits gives a text. -/
theorem link_finishes_iff (hr : job.registry.Built)
    (hroot : job.registry.root path = .ok job.root) :
    (job.reached.Finite ↔
        ∃ bound, job.registry.link job.options path bound ≠ .error .unfinished) ∧
      (∀ bound more, job.registry.link job.options path bound ≠ .error .unfinished →
        bound ≤ more → job.registry.link job.options path more =
          job.registry.link job.options path bound) ∧
      (∀ rank, job.Ranked rank →
        ∃ bound, job.registry.link job.options path bound ≠ .error .unfinished) ∧
      ∀ m index param reference helper, job.FeedsItself m index param reference helper →
        ∀ value, ⟨.decl m.path index, [(param, value)]⟩ ∈ job.reached →
          ¬ helper.2.name.toList <+: value.toList →
          ∀ bound linked, job.registry.link job.options path bound ≠ .ok linked := by
  have hjob := sound_of_root hr hroot
  have hiff : job.reached.Finite ↔
      ∃ bound, job.registry.link job.options path bound ≠ .error .unfinished := by
    simp only [reached_finite_iff hjob, ne_eq, link_eq_unfinished_iff hroot]
  refine ⟨hiff, fun bound more hbound hle ↦ ?_, fun rank hrank ↦
    hiff.1 (hrank.reached_finite hjob), fun m index param reference helper hfeeds value hkey hvalue
    bound linked hlink ↦ ?_⟩
  · -- a work list that is closed stays closed, however many visits are left
    have hstops := stops_of_close hjob fun h ↦ hbound ((link_eq_unfinished_iff hroot bound).2 h)
    rw [link_eq hroot, link_eq hroot, hstops.close_eq more hle]
  · rw [link_eq hroot] at hlink
    obtain ⟨l, hclose, -⟩ := Except.bind_eq_ok.1 hlink
    exact hfeeds.close_ne_ok hjob hkey hvalue bound l hclose

end LinkJob

namespace Registry

/-- Declarations of two modules that refer to each other, and one to itself with other arguments. -/
def cycling : Registry :=
  ofSources .default
    [("main", "import lib/f(i32);\nfn main() \x7b f(); \x7d\n".toList),
      ("lib", ("import main/main;\nimport lib/f(u32) as g;\n#export(T)\n" ++
        "fn f() \x7b g(); main(); \x7d\n").toList)]
    []

/-- Linking the declarations that refer to each other comes to an end, and linking the one that
feeds itself does not. -/
theorem link_finishes_cycling :
    (∃ bound, cycling.link ⟨.empty, false⟩ ["main"] bound ≠ .error .unfinished) ∧
      ∀ bound linked, feedingItself.link ⟨.empty, false⟩ ["main"] bound ≠ .ok linked := by
  constructor
  · obtain ⟨root, hroot, hown⟩ : ∃ root ∈ (cycling.root ["main"]).toOption,
        ∀ m ∈ cycling.modules, ∀ d ∈ m.decls, ∀ reference ∈ m.references d.2,
          ∀ arg ∈ (⟨cycling, ⟨.empty, false⟩, root⟩ : LinkJob).givenAt m reference,
            m.findDecl? arg = none := by
      decide +kernel
    have hbuilt : cycling.Built := (built_ofSources _ _ _).1
    have hroot := Except.eq_ok_of_toOption hroot
    -- nothing below depends on what the registry is
    generalize cycling = r at hroot hown hbuilt ⊢
    have hfinishes := @LinkJob.link_finishes_iff ⟨r, ⟨.empty, false⟩, root⟩ ["main"] hbuilt hroot
    exact hfinishes.2.2.1 (fun _ ↦ 0) (LinkJob.ranked_zero hown)
  · obtain ⟨root, m, reference, helper, hroot, hfeeds, hreached, hname⟩ := feedsItself_feedingItself
    have hbuilt : feedingItself.Built := (built_ofSources _ _ _).1
    generalize feedingItself = r at hroot hfeeds hreached hbuilt ⊢
    have hfinishes := @LinkJob.link_finishes_iff ⟨r, ⟨.empty, false⟩, root⟩ ["main"] hbuilt hroot
    refine hfinishes.2.2.2 m 2 "T" reference helper hfeeds "i32" hreached ?_
    rw [hname]
    decide

end Registry

end ShaderLink
