import ShaderLink.Proofs.Registry.Exporters

/-!
# The history of a registry

A registry is changed by adding sources and modules, by removing modules and by registering
generators. After any changes it is coherent. And it never looks back: a key that has been given
leads to the module it was given for, and to nothing once this module has been replaced or removed,
whatever comes later (`Registry.Follows`).
-/

namespace ShaderLink

namespace Registry

/-- A change of a registry. -/
inductive Change where
  | addSource (file : String) (source : Text)
  | insert (m : Module)
  | remove (path : ModulePath)
  | register (g : Generator)

/-- The key that a change gives, if it gives one, and the registry after it. -/
def apply (r : Registry) : Change → Option ModuleKey × Registry
  | .addSource file source =>
    ((r.addSource file source).1.toOption, (r.addSource file source).2)
  | .insert m => (some (r.insert m).1, (r.insert m).2)
  | .remove path => (none, (r.remove path).2)
  | .register g => (none, r.register g)

/-- The registry after changes, one after another. -/
def after (r : Registry) (changes : List Change) : Registry :=
  changes.foldl (fun r change ↦ (r.apply change).2) r

/-- A key that was given in the first registry leads to nothing in the second but what it led to. -/
structure Follows (r r' : Registry) : Prop where
  nextKey : r.nextKey.number ≤ r'.nextKey.number
  get? : ∀ key m, key.number < r.nextKey.number → r'.get? key = some m → r.get? key = some m

variable {r r' r'' : Registry} {m : Module} {key : ModuleKey}

namespace Follows

theorem refl (r : Registry) : r.Follows r :=
  ⟨le_rfl, fun _ _ _ h ↦ h⟩

/-- Keys that are not revived in two steps are not revived in both. -/
theorem trans (h : r.Follows r') (h' : r'.Follows r'') : r.Follows r'' :=
  ⟨h.nextKey.trans h'.nextKey, fun key m hgiven hm ↦
    h.get? key m hgiven (h'.get? key m (hgiven.trans_le h.nextKey) hm)⟩

/-- A key that is made is new. -/
theorem insert (h : r.Coherent) (m : Module) : r.Follows (r.insert m).2 := by
  refine ⟨Nat.le_succ _, fun key m' hgiven hm' ↦ ?_⟩
  have hne : key ≠ r.nextKey := fun heq ↦ Nat.lt_irrefl _ (heq ▸ hgiven)
  rw [get?_insert h, if_neg hne] at hm'
  split at hm'
  · cases hm'
  · exact hm'

theorem remove (r : Registry) (path : ModulePath) : r.Follows (r.remove path).2 := by
  refine ⟨(congrArg ModuleKey.number (r.remove_rest path).2.2.1).ge, fun key m _ hm ↦ ?_⟩
  rw [get?_remove] at hm
  split at hm
  · cases hm
  · exact hm

theorem apply (h : r.Coherent) (change : Change) : r.Follows (r.apply change).2 := by
  cases change with
  | addSource file source =>
    rw [Registry.apply]
    cases hresult : Module.parse r.options file source with
    | ok m =>
      rw [addSource_of_ok hresult]
      have hinsert := insert (h.forget (.ofFile file.toList)) m
      exact ⟨hinsert.nextKey, hinsert.get?⟩
    | error e =>
      rw [addSource_of_error hresult]
      have hremove := remove r (failurePath file source)
      exact ⟨hremove.nextKey, hremove.get?⟩
  | insert m => exact insert h m
  | remove path => exact remove r path
  | register g => exact ⟨le_rfl, fun _ _ _ h ↦ h⟩

end Follows

/-- Each change keeps the registry coherent. -/
theorem Coherent.apply (h : r.Coherent) (change : Change) : (r.apply change).2.Coherent := by
  cases change with
  | addSource file source =>
    rw [Registry.apply]
    dsimp only
    exact h.addSource file source
  | insert m => exact h.insert m
  | remove path => exact h.remove path
  | register g => exact h.register g

/-- Coherence is kept by any changes, and keys are not given again. -/
theorem Coherent.after (h : r.Coherent) (changes : List Change) :
    (r.after changes).Coherent ∧ r.Follows (r.after changes) := by
  induction changes generalizing r with
  | nil => exact ⟨h, .refl r⟩
  | cons change changes ih =>
    obtain ⟨hcoherent, hfollows⟩ := ih (h.apply change)
    exact ⟨hcoherent, (Follows.apply h change).trans hfollows⟩

/-- A key that a change gives leads to a module. -/
theorem Coherent.exists_of_apply (h : r.Coherent) {change : Change}
    (hkey : (r.apply change).1 = some key) : ∃ m, (r.apply change).2.get? key = some m := by
  cases change with
  | addSource file source =>
    rw [Registry.apply] at hkey ⊢
    cases hresult : Module.parse r.options file source with
    | ok m =>
      rw [addSource_of_ok hresult] at hkey ⊢
      obtain rfl := Option.some.inj hkey
      exact ⟨m, by rw [get?_insert (h.forget _), if_pos rfl]⟩
    | error e =>
      rw [addSource_of_error hresult] at hkey
      cases hkey
  | insert m =>
    obtain rfl := Option.some.inj hkey
    exact ⟨m, (get?_insert h m r.nextKey).trans (if_pos rfl)⟩
  | remove path => cases hkey
  | register g => cases hkey

/-- A key whose module is no longer the one of its path leads to nothing ever after. -/
theorem Coherent.get?_after_eq_none (h : r.Coherent) (hm : r.get? key = some m)
    (changes later : List Change) (hgone : (r.after changes).key? m.path ≠ some key) :
    ((r.after changes).after later).get? key = none := by
  have hgiven := h.given key m hm
  obtain ⟨hcoherent, hfollows⟩ := h.after changes
  by_contra hsome
  obtain ⟨m', hm'⟩ := Option.ne_none_iff_exists'.1 hsome
  -- a module found later was found all the time, so it is the one that the key was given for
  have hm' := (hcoherent.after later).2.get? key m' (hgiven.trans_le hfollows.nextKey) hm'
  obtain rfl := Option.some.inj (hm.symm.trans (hfollows.get? key m' hgiven hm'))
  exact hgone (hcoherent.indexed key m hm')

/-- Whatever changes a registry has been through, its paths and its modules lead to each other, no
path has both a module and a failure, the keys that it goes on to give are good until their modules
are replaced or removed and not after that, and the exporters of a name are in order and just the
paths that export it. -/
theorem coherent_after (options : ParseOptions) (changes : List Change) :
    let r := (empty options).after changes
    (∀ path key, r.key? path = some key → ∃ m, r.get? key = some m ∧ m.path = path) ∧
      (∀ key m, r.get? key = some m → r.key? m.path = some key) ∧
      (∀ path, (r.module? path).isSome → r.failure? path = none) ∧
      (∀ change key, (r.apply change).1 = some key → ∃ m, (r.apply change).2.get? key = some m ∧
        ∀ changes later, ((r.apply change).2.after changes).key? m.path ≠ some key →
          (((r.apply change).2.after changes).after later).get? key = none) ∧
      ∀ name, (r.exporters name).Pairwise (· < ·) ∧
        ∀ path, path ∈ r.exporters name ↔ r.Exports path name := by
  intro r
  have h : r.Coherent := ((Coherent.empty options).after changes).1
  refine ⟨h.live, h.indexed, fun path hmodule ↦ ?_, fun change key hkey ↦ ?_, fun name ↦
    ⟨r.pairwise_exporters name, fun path ↦ mem_exporters_iff h⟩⟩
  · -- a path with a failure has no module, as coherence says
    by_contra hfailure
    have hkey := h.unfailed path (Option.isSome_iff_ne_none.2 hfailure)
    rw [h.module?_eq_none_iff.2 hkey] at hmodule
    cases hmodule
  · obtain ⟨m, hm⟩ := h.exists_of_apply hkey
    exact ⟨m, hm, (h.apply change).get?_after_eq_none hm⟩

/-- A module that another version of its file replaces, and one of a file that breaks. -/
example : ((empty .default).after [.addSource "lib/util.wgsl" "fn a() \x7b\x7d".toList,
    .addSource "main.wgsl" "fn main() \x7b\x7d".toList,
    .addSource "./lib/util.wesl" "fn b() \x7b\x7d".toList,
    .addSource "main" "fn (".toList]).arena.keys = [⟨2⟩] := by
  decide +kernel

end Registry

end ShaderLink
