import Mathlib.Data.Set.Finite.Lattice
import ShaderLink.Proofs.Link.Coherence
import ShaderLink.Proofs.Link.Needed
import ShaderLink.Proofs.Link.Worklist

/-!
# Linking without an end

The instances that are reached with enough visits are those of the linkages after any number of
visits. There are finitely many of them exactly if visits come to an end. Linking then either gives
a text or fails because some module is blocked, and in no other case does it run out of visits
whatever their number.

Instances are told apart by their values, and a declaration that stands for a value is itself linked
with the values in force. So a declaration that refers to itself through an import, and gives
another declaration of its module as the argument, is linked with the name of that, hence that is
linked again under a new name, and so on (`LinkJob.FeedsItself`). If such a declaration is ever
linked, linking never comes to an end, although there are only two declarations to be linked.
-/

namespace ShaderLink

/-! ### Instances that are reached -/

namespace LinkJob

/-- The instances that are reached with enough visits. -/
def reached (job : LinkJob) : Set InstanceKey :=
  {key | ∃ n l, job.After n l ∧ key ∈ l.instances.keys}

variable {job : LinkJob} {l : Linkage} {key : InstanceKey} {bound : Nat} {path : ModulePath}

/-- Visits come to an end exactly if they reach finitely many instances. -/
theorem reached_finite_iff (hjob : job.Sound) :
    job.reached.Finite ↔ ∃ bound, job.close bound ≠ .error .unfinished := by
  constructor
  · -- without an end, there would be more instances after enough visits than are reached
    intro hfinite
    by_contra hnone
    have hunfinished (bound : Nat) : job.close bound = .error .unfinished :=
      not_not.1 fun hne ↦ hnone ⟨bound, hne⟩
    let n := hfinite.toFinset.card
    rcases after_or_stops hjob n with ⟨l, hafter⟩ | ⟨answer, hstops⟩
    · have hsub : l.instances.keys.toFinset ⊆ hfinite.toFinset := by
        intro key hkey
        exact hfinite.mem_toFinset.2 ⟨n, l, hafter, List.mem_toFinset.1 hkey⟩
      have hle : l.instances.size ≤ n := by
        have hcard := Finset.card_le_card hsub
        have hsize : l.instances.keys.toFinset.card = l.instances.keys.length :=
          List.toFinset_card_of_nodup l.instances.nodup_keys
        rwa [hsize, OrderedMap.keys, List.length_map] at hcard
      exact (hafter.stops hle).ne_unfinished
        (((hafter.stops hle).close_eq n le_rfl).symm.trans (hunfinished n))
    · exact hstops.ne_unfinished ((hstops.close_eq n le_rfl).symm.trans (hunfinished n))
  · rintro ⟨bound, hclose⟩
    have hstops := stops_of_close hjob hclose
    have hsub : job.reached ⊆ ⋃ n ∈ {n | n ≤ bound}, {key | ∃ l, job.After n l ∧
        key ∈ l.instances.keys} := by
      rintro key ⟨n, l, hafter, hkey⟩
      exact Set.mem_biUnion (hafter.le_of_stops hstops) ⟨l, hafter, hkey⟩
    refine ((Set.finite_le_nat bound).biUnion fun n _ ↦ ?_).subset hsub
    -- there is only one linkage after each number of visits
    by_cases h : ∃ l, job.After n l
    · obtain ⟨l, hafter⟩ := h
      refine l.instances.keys.finite_toSet.subset ?_
      rintro key ⟨l', hafter', hkey⟩
      rwa [hafter.unique hafter']
    · refine Set.finite_empty.subset ?_
      rintro key ⟨l, hafter, -⟩
      exact h ⟨l, hafter⟩

/-- What is reached with some number of visits is there when linking comes to an end. -/
theorem mem_keys_of_reached (hjob : job.Sound) (hkey : key ∈ job.reached)
    (hclose : job.close bound = .ok l) : key ∈ l.instances.keys := by
  obtain ⟨n, l', hafter, hkey⟩ := hkey
  obtain ⟨n', hafter', -, hsize⟩ := after_of_close hclose
  exact (hafter.grows hjob hafter' (hafter.le_of_stops (hafter'.stops hsize))).keys.subset hkey

/-- Linking that cannot fail either comes to an end or runs out of visits. -/
theorem close_eq_unfinished (hjob : job.Sound) (hclose : ∀ l, job.close bound ≠ .ok l)
    (hblocked : ∀ m ∈ job.registry.modules, ∀ e, ¬ job.Blocked m e) :
    job.close bound = .error .unfinished := by
  by_contra hne
  have hstops := stops_of_close hjob hne
  cases hanswer : job.close bound with
  | ok l => exact hclose l hanswer
  | error e =>
    obtain ⟨m, hm, hblock⟩ := hstops.blocked e hanswer
    exact hblocked m (Registry.mem_modules hm) e hblock

theorem link_eq_unfinished_iff (hroot : job.registry.root path = .ok job.root) (bound : Nat) :
    job.registry.link job.options path bound = .error .unfinished ↔
      job.close bound = .error .unfinished := by
  rw [link_eq hroot]
  cases job.close bound with
  | error e => simp [Bind.bind, Except.bind]
  | ok l =>
    -- putting the text together fails in other ways
    change (job.output l).mapError LinkError.fault = _ ↔ _
    cases job.output l with
    | ok linked => simp [Except.mapError]
    | error fault => simp [Except.mapError]

end LinkJob

/-! ### Declarations that feed themselves -/

namespace LinkJob

/-- The declaration at a place of the module has one parameter. A reference in it means itself by an
import, with a declaration of the module as the argument. -/
structure FeedsItself (job : LinkJob) (m : Module) (index : Nat) (param : String)
    (reference : Reference) (helper : Nat × Decl) : Prop where
  decl : ∃ d, job.decl? m.path index = some (m, d) ∧ d.params = [param] ∧
    reference ∈ m.references d
  unbound : m.binding? reference = none
  no_param : reference.path ≠ [param]
  given : ∃ exportPath arg, arg ≠ param ∧ m.findDecl? arg = some helper ∧
    job.resolution m reference.path = .found (.decl m.path index) exportPath (some [arg])

variable {job : LinkJob} {m : Module} {index bound n : Nat} {param value : String}
  {reference : Reference} {helper : Nat × Decl} {l l' : Linkage} {key : InstanceKey}
  {path : ModulePath}

/-- An instance of a declaration that feeds itself asks for the one whose value is the name of the
other declaration, linked with the value that it has itself. -/
theorem FeedsItself.next (h : job.FeedsItself m index param reference helper) (hjob : job.Sound)
    (hclose : job.close bound = .ok l)
    (hkey : ⟨.decl m.path index, [(param, value)]⟩ ∈ l.instances.keys) :
    ∃ name, l.name? ⟨.decl m.path helper.1, [(param, value)]⟩ = some name ∧
      ⟨.decl m.path index, [(param, name)]⟩ ∈ l.instances.keys := by
  obtain ⟨d, hdecl, hparams, hreference⟩ := h.decl
  obtain ⟨exportPath, arg, harg, hhelper, hfound⟩ := h.given
  have hneeded := (mem_keys_iff_needed hjob hclose).1 hkey
  have hargs : ([(param, value)].any fun a ↦ [a.1] == reference.path) = false := by
    simpa using fun heq ↦ h.no_param heq.symm
  have hfind : [(param, value)].find? (fun a ↦ a.1 == arg) = none := by
    simpa using fun heq ↦ harg heq.symm
  have hof : job.paramsOf (.decl m.path index) = [(param, none)] := by
    rw [paramsOf, hdecl, Option.map_some, Option.getD_some, hparams]
    rfl
  have hlinked : job.argKey? m [(param, value)] arg =
      some ⟨.decl m.path helper.1, [(param, value)]⟩ := by
    rw [argKey?, hhelper]
  -- the argument is linked with the value of the instance
  have hargument : ⟨.decl m.path helper.1, [(param, value)]⟩ ∈ l.instances.keys := by
    refine (mem_keys_iff_needed hjob hclose).2 (hneeded.argument hdecl hreference ?_)
    simp [argumentKeys, h.unbound, hargs, hfound, hof, linkedArg?, hfind, hlinked]
  obtain ⟨name, hname⟩ := Linkage.mem_keys_iff_name?.1 hargument
  refine ⟨name, hname, (mem_keys_iff_needed hjob hclose).2 (hneeded.reference hdecl hreference ?_)⟩
  simp [referenceKey?, h.unbound, hargs, hfound, importedKey, hof, paramsIn, paramIn?, argIn, hfind,
    hlinked, hname]

/-- Linking never comes to an end once a declaration that feeds itself is linked with a value that
is no name for the declaration that it is fed with. -/
theorem FeedsItself.close_ne_ok (h : job.FeedsItself m index param reference helper)
    (hjob : job.Sound) (hkey : ⟨.decl m.path index, [(param, value)]⟩ ∈ job.reached)
    (hvalue : ¬ helper.2.name.toList <+: value.toList) (bound : Nat) (l : Linkage) :
    job.close bound ≠ .ok l := by
  intro hclose
  have hnamed := (closed_of_close hjob hclose).valid.wellNamed
  let values : Set String := {value | ⟨.decl m.path index, [(param, value)]⟩ ∈ l.instances.keys}
  have hfinite : values.Finite := by
    refine (l.instances.keys.finite_toSet.image
      fun key ↦ (key.args.map Prod.snd).headD "").subset ?_
    intro value hvalue
    exact ⟨_, hvalue, rfl⟩
  choose next hnext using fun value : values ↦ h.next hjob hclose value.2
  -- different values are followed by different ones, so each value follows another
  have hinjective :
      Function.Injective fun value : values ↦ (⟨next value, (hnext value).2⟩ : values) := by
    intro value value' heq
    have hsame : next value = next value' := congrArg Subtype.val heq
    have hname := (hnext value).1
    rw [hsame] at hname
    rcases hnamed.distinct _ _ _ hname (hnext value').1 with heq | ⟨hstart, -⟩
    · simpa [Subtype.ext_iff] using heq
    · obtain ⟨d, -, hd, -⟩ := start_name?_mem hstart
      cases (InstanceKey.mk.inj hd).2
  have := hfinite.to_subtype
  obtain ⟨before, hbefore⟩ := (Finite.surjective_of_injective hinjective)
    ⟨value, mem_keys_of_reached hjob hkey hclose⟩
  have hname := (hnext before).1
  rw [show next before = value from congrArg Subtype.val hbefore] at hname
  -- but the first value is no name that the other declaration can get
  rcases hnamed.named _ _ hname with hstart | hfresh
  · obtain ⟨d, -, hd, -⟩ := start_name?_mem hstart
    cases (InstanceKey.mk.inj hd).2
  · obtain ⟨-, arg, -, hhelper, -⟩ := h.given
    obtain ⟨d, hdecl, -⟩ := h.decl
    have hhelper := Module.mem_decls_iff.1 (List.mem_of_find?_eq_some hhelper)
    have hbase : job.nameOf (.decl m.path helper.1) = helper.2.name := by
      simp [nameOf, decl?, (decl?_eq_some hdecl).1, hhelper]
    rcases hfresh.first with heq | ⟨n, heq, -⟩
    · exact hvalue (by rw [heq, hbase])
    · exact hvalue (by rw [heq, hbase, String.toList_append]; exact List.prefix_append _ _)

end LinkJob

namespace Registry

/-- A root that imports a declaration that feeds itself with another of its module. -/
def feedingItself : Registry :=
  ofSources .default
    [("main", "import lib/f(i32);\nfn main() \x7b f(); \x7d\n".toList),
      ("lib", ("import lib/f(h) as g;\n#export(T)\nfn f() \x7b g(); \x7d\n" ++
        "fn h() \x7b\x7d\n").toList)]
    []

/-- The declaration feeds itself, and it is linked with the value that the root gives. -/
theorem feedsItself_feedingItself : ∃ root m reference helper,
    feedingItself.root ["main"] = .ok root ∧
    (⟨feedingItself, ⟨.empty, false⟩, root⟩ : LinkJob).FeedsItself m 2 "T" reference helper ∧
    ⟨.decl m.path 2, [("T", "i32")]⟩ ∈
      (⟨feedingItself, ⟨.empty, false⟩, root⟩ : LinkJob).reached ∧ helper.2.name = "h" := by
  have hvisits : (do
      let root ← (feedingItself.root ["main"]).toOption
      let job : LinkJob := ⟨feedingItself, ⟨.empty, false⟩, root⟩
      let (imports, l) ← ((job.importMapOf root).run job.start).toOption
      let (key, i) ← l.instances.toList[0]?
      let (u, l') ← ((job.visit key i.name).run l).toOption
      return l'.instances.keys[1]?) = some (some ⟨.decl ["lib"] 2, [("T", "i32")]⟩) := by
    decide +kernel
  have hdecls : (do
      let root ← (feedingItself.root ["main"]).toOption
      let job : LinkJob := ⟨feedingItself, ⟨.empty, false⟩, root⟩
      let (m, d) ← job.decl? ["lib"] 2
      let reference ← (m.references d)[0]?
      let helper ← m.findDecl? "h"
      return ((m.path, d.params, helper.2.name), m.binding? reference, reference.path,
        job.resolution m ["g"])) =
      some ((["lib"], ["T"], "h"), none, ["g"],
        .found (.decl ["lib"] 2) ["lib", "f"] (some ["h"])) := by
    decide +kernel
  obtain ⟨root, hroot, hvisits⟩ := Option.bind_eq_some_iff.1 hvisits
  obtain ⟨⟨imports, l⟩, hstart, hvisits⟩ := Option.bind_eq_some_iff.1 hvisits
  obtain ⟨⟨key, i⟩, hget, hvisits⟩ := Option.bind_eq_some_iff.1 hvisits
  obtain ⟨⟨u, l'⟩, hvisit, hvisits⟩ := Option.bind_eq_some_iff.1 hvisits
  obtain ⟨root', hroot', hdecls⟩ := Option.bind_eq_some_iff.1 hdecls
  obtain rfl := Option.some.inj (hroot.symm.trans hroot')
  obtain ⟨⟨m, d⟩, hdecl, hdecls⟩ := Option.bind_eq_some_iff.1 hdecls
  obtain ⟨reference, hreference, hdecls⟩ := Option.bind_eq_some_iff.1 hdecls
  obtain ⟨helper, hhelper, hdecls⟩ := Option.bind_eq_some_iff.1 hdecls
  obtain ⟨hnames, hdecls⟩ := Prod.mk.inj (Option.some.inj hdecls)
  obtain ⟨hpath, hnames⟩ := Prod.mk.inj hnames
  obtain ⟨hparams, hname⟩ := Prod.mk.inj hnames
  obtain ⟨hunbound, hdecls⟩ := Prod.mk.inj hdecls
  obtain ⟨hsegments, hfound⟩ := Prod.mk.inj hdecls
  have hroot := Except.eq_ok_of_toOption hroot
  have hstart := Except.eq_ok_of_toOption hstart
  have hvisit := Except.eq_ok_of_toOption hvisit
  have hkey := Option.some.inj hvisits
  clear hroot'
  -- nothing below depends on what the registry is
  generalize feedingItself = r at hroot hstart hvisit hdecl hfound ⊢
  refine ⟨root, m, reference, helper, hroot, ⟨⟨d, ?_, hparams, List.mem_of_getElem? hreference⟩,
    hunbound, ?_, ["lib", "f"], "h", by decide, hhelper, ?_⟩, ⟨1, l', ?_, ?_⟩, hname⟩
  · rwa [hpath]
  · rw [hsegments]
    decide
  · rw [hsegments, hpath]
    exact hfound
  · exact (LinkJob.After.start hstart).visit hget hvisit
  · rw [hpath]
    exact List.mem_of_getElem? hkey

/-- However many visits are made, more are needed. -/
theorem feedingItself_link (bound : Nat) :
    feedingItself.link ⟨.empty, false⟩ ["main"] bound = .error .unfinished := by
  have himports : ∀ count ∈ feedingItself.modules.map fun m ↦
      (m.importMap feedingItself).toOption.map fun imports ↦ imports.1.entries.length,
      count = some 1 := by
    decide +kernel
  obtain ⟨root, m, reference, helper, hroot, hfeeds, hreached, hname⟩ := feedsItself_feedingItself
  have hbuilt : feedingItself.Built := (built_ofSources _ _ _).1
  -- nothing below depends on what the registry is
  generalize feedingItself = r at himports hroot hfeeds hreached hbuilt ⊢
  have hblocked : ∀ m ∈ r.modules, ∀ e,
      ¬ (⟨r, ⟨.empty, false⟩, root⟩ : LinkJob).Blocked m e := by
    intro m hm e
    obtain ⟨⟨imports, warnings⟩, hmap, hlength⟩ :=
      Option.map_eq_some_iff.1 (himports _ (List.mem_map_of_mem hm))
    have hmap := Except.eq_ok_of_toOption hmap
    exact @LinkJob.not_blocked ⟨r, ⟨.empty, false⟩, root⟩ m imports warnings hmap hlength.le e
  have hjob : (⟨r, ⟨.empty, false⟩, root⟩ : LinkJob).Sound := LinkJob.sound_of_root hbuilt hroot
  have hvalue : ¬ helper.2.name.toList <+: "i32".toList := by
    rw [hname]
    decide
  exact (@LinkJob.link_eq_unfinished_iff ⟨r, ⟨.empty, false⟩, root⟩ ["main"] hroot bound).2
    (LinkJob.close_eq_unfinished hjob (hfeeds.close_ne_ok hjob hreached hvalue bound) hblocked)

end Registry

end ShaderLink
