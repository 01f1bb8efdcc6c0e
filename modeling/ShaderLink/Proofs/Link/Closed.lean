import ShaderLink.Proofs.Except
import ShaderLink.Proofs.Link.Meaning
import ShaderLink.Proofs.Module.Splices

/-!
# Closed linkages

When linking comes to an end, every instance has been visited. A visited instance is **settled**:
its splices are the ones that the names of the closed linkage ask for, and every instance that it
refers to is in the linkage. Visiting keeps the instances in front settled and those behind
untouched (`LinkJob.Visited`), whatever is reached meanwhile.
-/

namespace ShaderLink

namespace LinkJob

/-- The job is about a registry that has come about, and its root is in the registry. -/
structure Sound (job : LinkJob) : Prop where
  built : job.registry.Built
  root : job.registry.module? job.root.path = some job.root

variable (job : LinkJob)

/-! ### The splices that names ask for -/

/-- The splice for a reference in a closed linkage. -/
def renameIn? (l : Linkage) (m : Module) (args : Args) (reference : Reference) : Option Splice :=
  ((job.referenceKey? l m args reference).bind l.name?).bind fun name ↦
    if Text.slice? m.text reference.span = some name.toList then none
    else some ⟨reference.span, name.toList⟩

/-- The splices for a declaration in a closed linkage, given the name of its instance. -/
def declRenames (l : Linkage) (m : Module) (d : Decl) (args : Args) (name : String) :
    List Splice :=
  (if name = d.name then [] else [⟨d.nameSpan, name.toList⟩]) ++
    (m.references d).filterMap (job.renameIn? l m args)

/-- The splices for an instance in a closed linkage, given its name. -/
def renamesIn (l : Linkage) (key : InstanceKey) (name : String) : List Splice :=
  match key.target with
  | .generator .. => []
  | .decl module index =>
    match job.decl? module index with
    | none => []
    | some (m, d) => job.declRenames l m d key.args name

/-- All that the references in a declaration mean has been reached. -/
def Reached (l : Linkage) (m : Module) (d : Decl) (args : Args) : Prop :=
  ∀ r ∈ m.references d, ∀ key, job.referenceKey? l m args r = some key → key ∈ l.instances.keys

/-- The instance has the splices that the names in the linkage ask for, and what it refers to has
been reached. -/
structure Settled (l : Linkage) (key : InstanceKey) (i : Instance) : Prop where
  renames : i.renames = job.renamesIn l key i.name
  reached : ∀ module index m d, key.target = .decl module index →
    job.decl? module index = some (m, d) → job.Reached l m d key.args

/-- The instances in front of a place have been visited, and those from there on have not. -/
structure Visited (l : Linkage) (next : Nat) : Prop where
  valid : job.Valid l
  settled : ∀ place key i, l.instances.toList[place]? = some (key, i) → place < next →
    ∀ l', l.Grows l' → job.Settled l' key i
  pending : ∀ place key i, l.instances.toList[place]? = some (key, i) → next ≤ place →
    i.renames = []

/-- The linkage has grown from the start, and all its instances are settled. -/
structure Closed (l : Linkage) : Prop where
  valid : job.Valid l
  grows : job.start.Grows l
  settled : ∀ key i, (key, i) ∈ l.instances.toList → job.Settled l key i

variable {job} {l l' : Linkage} {key : InstanceKey} {i : Instance} {m : Module} {d : Decl}
  {args : Args} {next : Nat}

theorem decl?_eq_some {module : ModulePath} {index : Nat}
    (h : job.decl? module index = some (m, d)) :
    job.registry.module? module = some m ∧ m.decl? index = some d := by
  obtain ⟨m', hm, hrest⟩ := Option.bind_eq_some_iff.1 h
  obtain ⟨d', hd, heq⟩ := Option.bind_eq_some_iff.1 hrest
  obtain ⟨rfl, rfl⟩ := Prod.mk.inj (Option.some.inj heq)
  exact ⟨hm, hd⟩

/-- A module that is found is the one of its path. -/
theorem Sound.module?_path (h : job.Sound) {path : ModulePath}
    (hm : job.registry.module? path = some m) : job.registry.module? m.path = some m := by
  rwa [h.built.path_eq hm]

/-! ### Settled instances -/

/-- The splice for a reference replaces the reference. -/
theorem span_of_renameIn? {reference : Reference} {s : Splice}
    (h : job.renameIn? l m args reference = some s) : s.span = reference.span := by
  obtain ⟨name, -, hname⟩ := Option.bind_eq_some_iff.1 h
  split at hname
  · cases hname
  · rw [← Option.some.inj hname]

/-- The splices of a settled instance replace the name of its declaration and references in it. -/
theorem renames_declRenames (l : Linkage) (m : Module) (d : Decl) (args : Args) (name : String) :
    d.Renames m (job.declRenames l m d args name) := by
  have hreferences (references : List Reference) :
      ((references.filterMap (job.renameIn? l m args)).map Splice.span).Sublist
        (references.map Reference.span) := by
    induction references with
    | nil => exact .refl _
    | cons r references ih =>
      rw [List.filterMap_cons]
      split
      · exact ih.cons r.span
      · rename_i s hs
        rw [List.map_cons, List.map_cons, span_of_renameIn? hs]
        exact ih.cons_cons r.span
  rw [Decl.Renames, declRenames, List.map_append]
  split
  · exact (hreferences _).cons d.nameSpan
  · exact (hreferences _).cons_cons d.nameSpan

/-- The splices of a settled instance of a declaration. -/
theorem Settled.renames_decl (h : job.Settled l key i) {module : ModulePath} {index : Nat}
    (htarget : key.target = .decl module index) (hdecl : job.decl? module index = some (m, d)) :
    i.renames = job.declRenames l m d key.args i.name := by
  rw [h.renames, renamesIn, htarget]
  dsimp only
  rw [hdecl]

/-- Only an instance of a declaration has splices. -/
theorem Settled.exists_decl (h : job.Settled l key i) (hne : i.renames ≠ []) :
    ∃ module index m d, key.target = .decl module index ∧
      job.decl? module index = some (m, d) := by
  rw [h.renames, renamesIn] at hne
  split at hne
  · exact absurd rfl hne
  · rename_i module index htarget
    split at hne
    · exact absurd rfl hne
    · rename_i m d hdecl
      exact ⟨module, index, m, d, htarget, hdecl⟩

/-! ### Visiting one instance -/

theorem keeps_renameReference (hm : job.registry.module? m.path = some m) (reference : Reference) :
    job.Keeps (job.renameReference m args reference) fun rename? l ↦
      job.renameIn? l m args reference = rename? ∧
        ∀ key, job.referenceKey? l m args reference = some key → key ∈ l.instances.keys := by
  refine (keeps_linkReference hm reference).bind fun name? ↦ ?_
  -- an instance that is meant has the name that was found
  have hmeant {l : Linkage}
      (h : (job.referenceKey? l m args reference).map l.name? = name?.map some) :
      (job.referenceKey? l m args reference).bind l.name? = name? ∧
        ∀ key, job.referenceKey? l m args reference = some key → key ∈ l.instances.keys := by
    cases hkey : job.referenceKey? l m args reference with
    | none =>
      rw [hkey] at h
      exact ⟨by cases name? <;> simp_all, fun _ h ↦ nomatch h⟩
    | some key =>
      rw [hkey] at h
      cases name? with
      | none => cases h
      | some name =>
        have hname : l.name? key = some name := Option.some.inj h
        refine ⟨hname, fun key' hkey' ↦ ?_⟩
        obtain rfl := Option.some.inj hkey'
        exact Linkage.mem_keys_iff_name?.2 ⟨name, hname⟩
  cases name? with
  | none =>
    refine .pure fun l h ↦ ⟨?_, (hmeant h).2⟩
    rw [renameIn?, (hmeant h).1]
    rfl
  | some name =>
    dsimp only
    split
    · rename_i hslice
      refine .pure fun l h ↦ ⟨?_, (hmeant h).2⟩
      rw [renameIn?, (hmeant h).1, Option.bind_some, if_pos hslice]
    · rename_i hslice
      refine .pure fun l h ↦ ⟨?_, (hmeant h).2⟩
      rw [renameIn?, (hmeant h).1, Option.bind_some, if_neg hslice]

theorem filterMap_id_of_forall₂ {α β : Type} {f : α → Option β} {as : List α}
    {bs : List (Option β)} (h : List.Forall₂ (fun a b ↦ f a = b) as bs) :
    bs.filterMap id = as.filterMap f := by
  induction h with
  | nil => rfl
  | cons hfirst _ ih =>
    subst hfirst
    rw [List.filterMap_cons, List.filterMap_cons, ih]
    rfl

theorem keeps_renamesOf (hm : job.registry.module? m.path = some m) (name : String) :
    job.Keeps (job.renamesOf m d args name) fun renames l ↦
      renames = job.declRenames l m d args name ∧ job.Reached l m d args := by
  refine (Keeps.mapM (keeps_renameReference hm) (m.references d)).bind fun renames ↦
    .pure fun l hall ↦ ⟨?_, fun r hr ↦ ?_⟩
  · rw [declRenames, filterMap_id_of_forall₂ (hall.imp fun _ _ h ↦ h.1)]
  · obtain ⟨rename?, -, -, hreached⟩ := exists_of_mem_forall₂ hall.flip hr
    exact hreached

/-- Giving an instance its splices changes nothing else. -/
theorem Valid.modify (h : job.Valid l) (key : InstanceKey) (renames : List Splice) :
    job.Valid { l with instances := l.instances.modify key fun i ↦ { i with renames } } ∧
      l.Grows { l with instances := l.instances.modify key fun i ↦ { i with renames } } := by
  have hkeys : (l.instances.modify key fun i ↦ { i with renames }).keys = l.instances.keys :=
    OrderedMap.keys_modify _ _ _
  refine ⟨⟨h.wellNamed.of_eq (name?_modify l key · renames) rfl,
      fun key' hkey' ↦ h.covered key' (hkeys ▸ hkey'), h.cached⟩,
    ⟨?_, fun key' name hname ↦ (name?_modify l key key' renames).trans hname, List.Subset.refl _⟩⟩
  exact hkeys ▸ List.prefix_refl _

/-- A visit to a declaration extends the linkage and then gives the instance its splices, with which
it is settled in whatever grows from there. -/
theorem exists_of_visit (hjob : job.Sound) {module : ModulePath} {index : Nat}
    (htarget : key.target = .decl module index) (hdecl : job.decl? module index = some (m, d))
    {u : Unit} (hrun : (job.visit key i.name).Runs l u l') (hvalid : job.Valid l) :
    ∃ l₁ renames, job.Valid l₁ ∧ l.Extends l₁ ∧
      l' = { l₁ with instances := l₁.instances.modify key fun i ↦ { i with renames } } ∧
      ∀ l'', l₁.Grows l'' → job.Settled l'' key { i with renames } := by
  rw [visit, htarget] at hrun
  dsimp only at hrun
  rw [hdecl] at hrun
  obtain ⟨renames, l₁, hrenames, hmodified⟩ := hrun.bind
  have hm := hjob.module?_path (decl?_eq_some hdecl).1
  obtain ⟨hvalid₁, hextends, hright⟩ := keeps_renamesOf hm i.name l renames l₁ hrenames hvalid
  refine ⟨l₁, renames, hvalid₁, hextends, hmodified.modified.symm, fun l'' hgrows ↦ ?_⟩
  obtain ⟨hsplices, hreached⟩ := hright l'' hgrows
  refine ⟨?_, fun module' index' m' d' htarget' hdecl' ↦ ?_⟩
  · rw [renamesIn, htarget]
    dsimp only
    rw [hdecl, hsplices]
  · rw [htarget] at htarget'
    obtain ⟨rfl, rfl⟩ := Target.decl.inj htarget'
    obtain ⟨rfl, rfl⟩ := Prod.mk.inj (Option.some.inj (hdecl.symm.trans hdecl'))
    exact hreached

/-- A visit to anything else does nothing, and without splices such an instance is settled. -/
theorem eq_of_visit (hnone : ∀ module index, key.target = .decl module index →
    job.decl? module index = none) {u : Unit} (hrun : (job.visit key i.name).Runs l u l')
    (hi : i.renames = []) : l = l' ∧ ∀ l'', job.Settled l'' key i := by
  have hreached (l'' : Linkage) (module : ModulePath) (index : Nat) (m : Module) (d : Decl)
      (htarget : key.target = .decl module index) (hdecl : job.decl? module index = some (m, d)) :
      job.Reached l'' m d key.args := by
    rw [hnone module index htarget] at hdecl
    cases hdecl
  rw [visit] at hrun
  cases htarget : key.target with
  | generator module generator =>
    rw [htarget] at hrun
    exact ⟨hrun.pure.2, fun l'' ↦ ⟨by rw [renamesIn, htarget, hi], hreached l''⟩⟩
  | decl module index =>
    rw [htarget] at hrun
    dsimp only at hrun
    rw [hnone module index htarget] at hrun
    refine ⟨hrun.pure.2, fun l'' ↦ ⟨?_, hreached l''⟩⟩
    rw [renamesIn, htarget, hi]
    dsimp only
    rw [hnone module index htarget]

/-! ### Visiting all instances -/

/-- Extending a linkage leaves the instances in front of a place visited, and none of those from
there on. -/
theorem Visited.extends (h : job.Visited l next) (hle : next ≤ l.instances.toList.length)
    (hvalid : job.Valid l') (hextends : l.Extends l') : job.Visited l' next := by
  obtain ⟨added, hadded, hunvisited⟩ := hextends.instances
  refine ⟨hvalid, fun place key i hget hlt l'' hgrows ↦ ?_, fun place key i hget hnext ↦ ?_⟩
  · rw [hadded, List.getElem?_append_left (by omega)] at hget
    exact h.settled place key i hget hlt l'' (hextends.grows.trans hgrows)
  · rw [hadded] at hget
    by_cases hlt : place < l.instances.toList.length
    · rw [List.getElem?_append_left hlt] at hget
      exact h.pending place key i hget hnext
    · rw [List.getElem?_append_right (by omega)] at hget
      exact hunvisited _ (List.mem_of_getElem? hget)

/-- The place can go one further if the instance at it is settled. -/
theorem Visited.pass (h : job.Visited l next)
    (hget : l.instances.toList[next]? = some (key, i))
    (hsettled : ∀ l', l.Grows l' → job.Settled l' key i) : job.Visited l (next + 1) := by
  refine ⟨h.valid, fun place key' i' h' hlt l' hgrows ↦ ?_, fun place key' i' h' hle ↦
    h.pending place key' i' h' (by omega)⟩
  by_cases hplace : place = next
  · subst hplace
    obtain ⟨rfl, rfl⟩ := Prod.mk.inj (Option.some.inj (hget.symm.trans h'))
    exact hsettled l' hgrows
  · exact h.settled place key' i' h' (by omega) l' hgrows

/-- The place can go one further if the instance at it is given splices with which it is settled. -/
theorem Visited.settle (h : job.Visited l next)
    (hget : l.instances.toList[next]? = some (key, i)) {renames : List Splice}
    (hsettled : ∀ l', l.Grows l' → job.Settled l' key { i with renames }) :
    job.Visited { l with instances := l.instances.modify key fun i ↦ { i with renames } }
      (next + 1) := by
  obtain ⟨hvalid, hgrows⟩ := h.valid.modify key renames
  refine ⟨hvalid, fun place key' i' h' hlt l' hgrows' ↦ ?_, fun place key' i' h' hle ↦ ?_⟩
  · rcases OrderedMap.getElem?_modify hget h' with ⟨rfl, rfl, rfl⟩ | ⟨hne, h'⟩
    · exact hsettled l' (hgrows.trans hgrows')
    · exact h.settled place key' i' h' (by omega) l' (hgrows.trans hgrows')
  · rcases OrderedMap.getElem?_modify hget h' with ⟨rfl, -, -⟩ | ⟨-, h'⟩
    · omega
    · exact h.pending place key' i' h' (by omega)

/-- A visit brings the place one further. -/
theorem Visited.visit (hjob : job.Sound) (h : job.Visited l next)
    (hget : l.instances.toList[next]? = some (key, i)) {u : Unit}
    (hrun : (job.visit key i.name).Runs l u l') : job.Visited l' (next + 1) ∧ l.Grows l' := by
  by_cases hdecl : ∃ module index m d, key.target = .decl module index ∧
      job.decl? module index = some (m, d)
  · obtain ⟨module, index, m, d, htarget, hdecl⟩ := hdecl
    obtain ⟨l₁, renames, hvalid₁, hextends, rfl, hsettled⟩ :=
      exists_of_visit hjob htarget hdecl hrun h.valid
    have hlt := (List.getElem?_eq_some_iff.1 hget).1
    obtain ⟨added, hadded, -⟩ := hextends.instances
    have hget₁ : l₁.instances.toList[next]? = some (key, i) := by
      rw [hadded, List.getElem?_append_left hlt, hget]
    exact ⟨(h.extends hlt.le hvalid₁ hextends).settle hget₁ hsettled,
      hextends.grows.trans (hvalid₁.modify key renames).2⟩
  · have hnone (module : ModulePath) (index : Nat) (htarget : key.target = .decl module index) :
        job.decl? module index = none := by
      cases hd : job.decl? module index with
      | none => rfl
      | some d => exact absurd ⟨module, index, d.1, d.2, htarget, hd⟩ hdecl
    obtain ⟨rfl, hsettled⟩ := eq_of_visit hnone hrun (h.pending next key i hget le_rfl)
    exact ⟨h.pass hget fun l' _ ↦ hsettled l', .refl l⟩

/-- Visits that come to an end have visited all instances. -/
theorem Visited.visitFrom (hjob : job.Sound) {bound : Nat} (h : job.Visited l next) {u : Unit}
    (hrun : (job.visitFrom next bound).Runs l u l') :
    ∃ n, l'.instances.toList.length ≤ n ∧ job.Visited l' n ∧ l.Grows l' := by
  -- the invariant is that the instances in front of the place have been visited
  induction bound generalizing next l with
  | zero =>
    rw [LinkJob.visitFrom] at hrun
    obtain ⟨l₁, l₂, hget, hrest⟩ := hrun.bind
    obtain ⟨rfl, rfl⟩ := hget.get
    split at hrest
    · exact hrest.not_throw.elim
    · rename_i hle
      obtain ⟨-, rfl⟩ := hrest.pure
      exact ⟨next, Nat.le_of_not_lt hle, h, .refl l⟩
  | succ bound ih =>
    rw [LinkJob.visitFrom] at hrun
    obtain ⟨l₁, l₂, hget, hrest⟩ := hrun.bind
    obtain ⟨rfl, rfl⟩ := hget.get
    split at hrest
    · rename_i hnone
      obtain ⟨-, rfl⟩ := hrest.pure
      exact ⟨next, List.getElem?_eq_none_iff.1 hnone, h, .refl l⟩
    · rename_i key i hsome
      obtain ⟨v, l₁, hvisit, hrest⟩ := hrest.bind
      obtain ⟨hvisited, hgrows⟩ := h.visit hjob hsome hvisit
      obtain ⟨n, hle, hvisited', hgrows'⟩ := ih hvisited hrest
      exact ⟨n, hle, hvisited', hgrows.trans hgrows'⟩

theorem visited_start (job : LinkJob) : job.Visited job.start 0 := by
  refine ⟨valid_start job, fun place _ _ _ hlt ↦ absurd hlt (Nat.not_lt_zero place),
    fun place key i hget _ ↦ ?_⟩
  have hmem := OrderedMap.mem_of_get?_ofList
    (OrderedMap.get?_eq_some_iff.2 (List.mem_of_getElem? hget))
  obtain ⟨d, -, heq⟩ := List.mem_map.1 hmem
  obtain ⟨-, rfl⟩ := Prod.mk.inj heq
  rfl

/-- A linkage that linking comes to an end with is closed. -/
theorem closed_of_close (hjob : job.Sound) {bound : Nat} (h : job.close bound = .ok l) :
    job.Closed l := by
  obtain ⟨⟨u, l'⟩, hrun, heq⟩ := Except.bind_eq_ok.1 h
  obtain rfl := Except.ok.inj heq
  obtain ⟨imports, l₁, himports, hvisits⟩ := Linking.Runs.bind hrun
  obtain ⟨hvalid₁, hextends, -⟩ :=
    keeps_importMapOf hjob.root job.start imports l₁ himports (valid_start job)
  obtain ⟨n, hle, hvisited, hgrows⟩ :=
    ((visited_start job).extends (Nat.zero_le _) hvalid₁ hextends).visitFrom hjob hvisits
  refine ⟨hvisited.valid, hextends.grows.trans hgrows, fun key i hmem ↦ ?_⟩
  obtain ⟨place, hget⟩ := List.getElem?_of_mem hmem
  have hlt := (List.getElem?_eq_some_iff.1 hget).1
  exact hvisited.settled place key i hget (by omega) l' (.refl l')

end LinkJob

end ShaderLink
