import ShaderLink.Link.Reference

/-!
# Closing a linkage

Instances are visited in the order in which they were reached. A visit links the references of one
instance, which may reach new ones, and keeps the splices that this means for its text. When all
instances have been visited, the linkage is closed: nothing in it refers to anything that could be
linked and is not.

Values of parameters may be names of instances, and instances with new values have new names, so
there are modules with which this never ends. Linking therefore goes on for a bounded number of
visits.
-/

namespace ShaderLink

namespace LinkJob

variable (job : LinkJob)

/-- The splice that gives a reference the name of its instance, if it needs one. -/
def renameReference (m : Module) (args : Args) (reference : Reference) :
    Linking (Option Splice) := do
  match ← job.linkReference m args reference with
  | some name =>
    if Text.slice? m.text reference.span = some name.toList then return none
    else return some ⟨reference.span, name.toList⟩
  | none => return none

/-- The splices for an instance of a declaration, given its name. -/
def renamesOf (m : Module) (d : Decl) (args : Args) (name : String) : Linking (List Splice) := do
  let own := if name = d.name then [] else [⟨d.nameSpan, name.toList⟩]
  let renames ← (m.references d).mapM (job.renameReference m args)
  return own ++ renames.filterMap id

/-- Visits an instance. Generators refer to nothing. -/
def visit (key : InstanceKey) (name : String) : Linking Unit :=
  match key.target with
  | .generator .. => return ()
  | .decl module index =>
    match job.decl? module index with
    | none => return ()
    | some (m, d) => do
      let renames ← job.renamesOf m d key.args name
      modify fun l ↦ { l with
        instances := l.instances.modify key fun i ↦ { i with renames } }

/-- Visits the instances from the one at a place on. -/
def visitFrom (next : Nat) : Nat → Linking Unit
  | 0 => do
    if next < (← get).instances.size then
      throw .unfinished
  | bound + 1 => do
    match (← get).instances.toList[next]? with
    | none => return ()
    | some (key, i) =>
      job.visit key i.name
      visitFrom (next + 1) bound

/-- The closed linkage, found with at most `bound` visits. The imports of the root are looked at
even if it refers to none. -/
def close (bound : Nat) : Except LinkError Linkage := do
  let ((), l) ← (do
    let _ ← job.importMapOf job.root
    job.visitFrom 0 bound : Linking Unit).run job.start
  return l

end LinkJob

end ShaderLink
