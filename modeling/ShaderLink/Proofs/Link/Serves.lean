import ShaderLink.Proofs.Link.Needed
import ShaderLink.Proofs.Link.Outcome
import ShaderLink.Proofs.Resolution.Agreement

/-!
# Registries that serve for linking

A second registry **serves** for linking a module if it has all that the first one has, and imports
mean the same in it. What it has besides can make a difference in one way only: the local names of
its modules are taken, so that an instance may have to avoid a name that it gets in the first
registry.

Whatever the first registry has can be put in place of what the second one has: names and parameters
of targets, what imports make of references, what visits fail with, and the texts of instances.
-/

namespace ShaderLink

namespace Registry

/-- Whether there is a root depends only on what is at its path. -/
theorem root_of_sameAt {r r' : Registry} {path : ModulePath} (h : r.SameAt r' path) :
    r'.root path = r.root path := by
  rw [Registry.root, Registry.root, h.module?, h.failure?]

end Registry

namespace LinkJob

/-- The second job finds all that the first one finds, and the same by the imports. It has these
further names taken from the start. -/
structure Serves (job job' : LinkJob) (extra : List String) : Prop where
  options : job'.options = job.options
  root : job'.root = job.root
  module? : ∀ path m, job.registry.module? path = some m → job'.registry.module? path = some m
  generator? : ∀ module name g, job.registry.generator? module name = some g →
    job'.registry.generator? module name = some g
  importMap : ∀ path m, job.registry.module? path = some m →
    (m.importMap job'.registry).map ImportMap.view = (m.importMap job.registry).map ImportMap.view
  taken : ∀ name, name ∈ job'.start.taken ↔ name ∈ job.start.taken ∨ name ∈ extra

variable {job job' : LinkJob} {extra : List String} {key : InstanceKey} {m : Module} {d : Decl}
  {module : ModulePath} {target : Target}

namespace Serves

/-- The declarations that are there are still there with the added modules. -/
theorem decl? (h : Serves job job' extra) {index : Nat}
    (hdecl : job.decl? module index = some (m, d)) : job'.decl? module index = some (m, d) := by
  obtain ⟨hm, hd⟩ := decl?_eq_some hdecl
  simp [LinkJob.decl?, h.module? _ _ hm, hd]

theorem decl?_eq (h : Serves job job' extra) {index : Nat}
    (hhas : job.registry.Has (.decl module index)) :
    job'.decl? module index = job.decl? module index := by
  obtain ⟨m, d, hm, hd⟩ := hhas
  have hdecl : job.decl? module index = some (m, d) := by simp [LinkJob.decl?, hm, hd]
  rw [hdecl, h.decl? hdecl]

/-- A target that is there keeps its name, -/
theorem nameOf_eq (h : Serves job job' extra) (hhas : job.registry.Has target) :
    job'.nameOf target = job.nameOf target := by
  cases target with
  | decl module index => rw [nameOf, nameOf, h.decl?_eq hhas]
  | generator module name => rfl

theorem generator?_eq (h : Serves job job' extra) {name : String}
    (hhas : job.registry.Has (.generator module name)) :
    job'.registry.generator? module name = job.registry.generator? module name := by
  obtain ⟨g, hg⟩ := Option.isSome_iff_exists.1 hhas
  have hg : job.registry.generator? module name = some g := hg
  rw [hg, h.generator? _ _ _ hg]

/-- and its parameters. -/
theorem paramsOf_eq (h : Serves job job' extra) (hhas : job.registry.Has target) :
    job'.paramsOf target = job.paramsOf target := by
  cases target with
  | decl module index => rw [paramsOf, paramsOf, h.decl?_eq hhas]
  | generator module name => rw [paramsOf, paramsOf, h.generator?_eq hhas]

/-- An import fails for the same reason, or succeeds, with the added modules. -/
theorem importFailure?_eq (h : Serves job job' extra)
    (hm : job.registry.module? m.path = some m) :
    job'.importFailure? m = job.importFailure? m := by
  rw [importFailure?, importFailure?]
  rcases Except.map_eq_map (h.importMap _ _ hm) with ⟨b, hmap, hmap'⟩ | ⟨r, r', hmap, hmap', -⟩
  · rw [hmap, hmap']
  · rw [hmap, hmap']

/-- References lead to where they led. -/
theorem resolution_eq (h : Serves job job' extra) (hm : job.registry.module? m.path = some m)
    (path : List String) : job'.resolution m path = job.resolution m path := by
  rw [resolution, resolution]
  rcases Except.map_eq_map (h.importMap _ _ hm) with ⟨b, hmap, hmap'⟩ | ⟨r, r', hmap, hmap', hview⟩
  · rw [hmap, hmap']
  · rw [hmap, hmap']
    exact congrFun (Prod.mk.inj hview).1 path

/-- A visit fails in both registries or in none. -/
theorem visitFailure?_eq (h : Serves job job' extra) (hjob : job.Sound)
    (hhas : job.registry.Has key.target) : job'.visitFailure? key = job.visitFailure? key := by
  rw [visitFailure?, visitFailure?]
  cases htarget : key.target with
  | generator module name => rfl
  | decl module index =>
    rw [htarget] at hhas
    obtain ⟨m, d, hm, hd⟩ := hhas
    have hdecl : job.decl? module index = some (m, d) := by simp [LinkJob.decl?, hm, hd]
    have hfailure : job'.linkFailure? m key.args = job.linkFailure? m key.args := by
      have hm := hjob.module?_path hm
      funext reference
      rw [linkFailure?, linkFailure?, h.importFailure?_eq hm, h.resolution_eq hm]
    dsimp only
    rw [hdecl, h.decl? hdecl]
    dsimp only
    rw [hfailure]

/-- The text of an instance of something that the first registry has. -/
theorem piece_eq (h : Serves job job' extra) {i : Instance} {place : Nat}
    (hhas : job.registry.Has key.target) :
    job'.piece ((key, i), place) = job.piece ((key, i), place) := by
  have hown : job'.isOwn key = job.isOwn key := by rw [isOwn, isOwn, h.root]
  rw [piece, piece]
  dsimp only
  rw [hown]
  cases htarget : key.target with
  | decl module index =>
    rw [htarget] at hhas
    dsimp only
    rw [h.decl?_eq hhas]
  | generator module name =>
    rw [htarget] at hhas
    dsimp only
    rw [h.generator?_eq hhas]

end Serves

end LinkJob

end ShaderLink
