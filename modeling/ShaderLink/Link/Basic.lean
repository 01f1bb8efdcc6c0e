import ShaderLink.Link.Excerpt

/-!
# Linking

Linking turns a root module and everything it needs from other modules into one text. The text of
the root comes first, without what directs the linking and with its declarations renamed. The other
instances follow in the order in which they were reached, with blank lines between them. Directives
of other modules that the root does not have itself go in front of everything, because they must
stand before any declaration.

All text is put together as source maps, so that what comes out leads back to the texts as they were
written.
-/

namespace ShaderLink

/-- Where a byte of a linked text comes from. -/
structure Location where
  source : SourceId
  offset : Nat
  position : Position
deriving DecidableEq, Repr

/-- A linked text. -/
structure Linked where
  /-- The text, and where it comes from. -/
  map : SourceMap
  warnings : List Warning
  /-- The texts that the map points into. -/
  sources : OrderedMap SourceId Text

/-- Where the byte at an offset comes from. What was put in between has no location. -/
def Linked.locate? (l : Linked) (offset : Nat) : Option Location := do
  let place ← l.map.origin? offset
  let t ← l.sources.get? place.source
  return ⟨place.source, place.offset, t.position place.offset⟩

/-- The source of what stands between declarations. -/
def separatorId : SourceId :=
  ⟨"<linker>"⟩

namespace SourceMap

/-- Adds line breaks that come from nowhere. -/
def addSeparator (m : SourceMap) (breaks : Nat) : SourceMap :=
  m.add (List.replicate breaks '\n') separatorId ⟨0, 0⟩

/-- Ends a text with a blank line, unless it is empty. -/
def endLine (m : SourceMap) : SourceMap :=
  match m.text.reverse with
  | [] => m
  | '\n' :: '\n' :: _ => m
  | '\n' :: _ => m.addSeparator 1
  | _ => m.addSeparator 2

end SourceMap

/-- The text of an instance. A generated text is also a source. -/
structure Piece where
  map : SourceMap
  generated : Option (SourceId × Text)

/-- Puts texts together: directives, the text of the root, and the other instances. -/
def Linked.assemble (directives : List SourceMap) (root : SourceMap) (pieces : List Piece) :
    SourceMap :=
  let front := directives.foldl (fun m d ↦ (m.append d).addSeparator 1)
    (SourceMap.empty ⟨"<linked>"⟩)
  (pieces.foldl (fun m p ↦ m.endLine.append p.map) (front.append root)).compact

namespace LinkJob

variable (job : LinkJob)

/-- Whether an instance is part of the root's own text. -/
def isOwn (key : InstanceKey) : Bool :=
  key.args.isEmpty && match key.target with
    | .decl module _ => module == job.root.path
    | .generator .. => false

/-- The text of the root. -/
def rootText (l : Linkage) : Except Fault SourceMap := do
  let deletions := (job.root.elements.filter Element.isLinkage).map fun e ↦ ⟨e.span, []⟩
  let renames := (l.instances.toList.filter fun i ↦ job.isOwn i.1).flatMap fun i ↦ i.2.renames
  job.root.map.merge (← Splice.applyAll job.root.text job.root.map.id (deletions ++ renames) none)

/-- The modules that contribute. -/
def contributors (l : Linkage) : List Module :=
  l.modules.filterMap job.registry.module?

/-- The directives of other modules. -/
def directivesText (l : Linkage) : Except Fault (List SourceMap) :=
  let others := (job.contributors l).filter fun m ↦ m.path != job.root.path
  let all := others.flatMap fun m ↦ m.directives.map fun d ↦ (m, d)
  (newDirectives (job.root.directives.map Prod.snd) all).mapM fun (m, span) ↦
    m.excerpt span [] []

/-- The text of the instance at a place, unless it is part of the root's own text. -/
def piece (i : (InstanceKey × Instance) × Nat) : Except Fault (Option Piece) :=
  let ((key, instanced), place) := i
  if job.isOwn key then
    return none
  else
    match key.target with
    | .decl module index =>
      match job.decl? module index with
      | some (m, d) => return some ⟨← m.excerpt d.span instanced.renames key.args, none⟩
      | none => return none
    | .generator module name =>
      match job.registry.generator? module name with
      | some g =>
        let t := g.generate instanced.name (.ofList key.args)
        let id : SourceId :=
          ⟨"generator:" ++ module.render ++ "/" ++ name ++ "#" ++ toString place⟩
        return some ⟨.identity id id t, some (id, t)⟩
      | none => return none

/-- The text of a linkage. -/
def output (l : Linkage) : Except Fault Linked := do
  let directives ← job.directivesText l
  let root ← job.rootText l
  let pieces := (← l.instances.toList.zipIdx.mapM job.piece).filterMap id
  let map := Linked.assemble directives root pieces
  match map.coverage with
  | .error e => throw (.incoherent e)
  | .ok () =>
    return {
      map
      warnings := (job.contributors l).flatMap Module.warnings ++ l.warnings
      sources := .ofList ((job.contributors l).map (fun m ↦ (m.sourceId, m.source)) ++
        pieces.filterMap Piece.generated) }

end LinkJob

/-! ### From a module to a text -/

/-- The module to start with. -/
def Registry.root (r : Registry) (path : ModulePath) : Except LinkError Module :=
  match r.module? path, r.failure? path with
  | some m, _ => .ok m
  | none, some error => .error (.broken ⟨path, error⟩)
  | none, none => .error (.rootNotFound path)

/-- Links the module of a path with everything it needs, visiting at most `bound` declarations. -/
def Registry.link (r : Registry) (options : LinkOptions) (path : ModulePath) (bound : Nat) :
    Except LinkError Linked := do
  let root ← r.root path
  let job : LinkJob := ⟨r, options, root⟩
  let l ← job.close bound
  (job.output l).mapError .fault

end ShaderLink
