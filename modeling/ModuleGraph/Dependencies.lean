import ModuleGraph.Graph.Ranking
import ModuleGraph.Notice
import ModuleGraph.Resolver
import ModuleGraph.Source.Basic

/-! The dependencies of sources: a graph of the files that refer to each other, the packages used
from outside, and the specifiers that lead nowhere. Every reference ends up in exactly one of the
three. -/

namespace ModuleGraph

/-- A specifier on a line of a source that another module is reached by. -/
structure Reference where
  specifier : Text
  line : Int
  deriving Repr, DecidableEq

/-- A reference that leads nowhere. -/
structure Unresolved where
  file : Text
  specifier : Text
  line : Int
  reason : Text
  deriving Repr, DecidableEq

/-- What sources depend on. -/
structure Dependencies where
  graph : Graph := .empty
  external : Tally := []
  unresolved : List Unresolved := []
  references : Int := 0
  deriving Repr, DecidableEq

/-- A resolver, and which paths are files. -/
structure Lookup where
  resolver : Resolver
  isFile : Text → Bool

namespace Lookup

def resolve (l : Lookup) (specifier file : Text) : Resolution :=
  l.resolver.resolve l.isFile specifier file

/-- The notice that a specifier with a base path leads nowhere. -/
def notice (l : Lookup) (specifier file : Text) : List Notice :=
  match (l.resolve specifier file).reason with
  | some (.noFile base) => [.specifierUnresolved specifier file base]
  | _ => []

/-- The file that a reference of `file` leads to; none for an external one. -/
def targetOf (l : Lookup) (file specifier : Text) : Option Text :=
  (l.resolve specifier file).path

end Lookup

namespace Source

/-- The modules that a source passes on names of. One statement that passes on several names
counts once. -/
def passedOn (s : Source) : List Reference :=
  (s.exports.filterMap fun e =>
    match e.kind, e.source with
    | .named, _ => none
    | _, some (c :: specifier) => some ⟨c :: specifier, e.line⟩
    | _, _ => none).foldl (fun rs r => if r ∈ rs then rs else rs ++ [r]) []

/-- All references of a source: its imports, then what it passes on. -/
def references (s : Source) : List Reference :=
  s.imports.map (fun i => ⟨i.specifier, i.line⟩) ++ s.passedOn

/-- The source with the files that its imports lead to. -/
def resolveImports (l : Lookup) (s : Source) : Source :=
  { s with imports := s.imports.map fun i =>
      match l.targetOf s.path i.specifier with
      | some path => { i with resolved := some path }
      | none => i }

end Source

namespace Dependencies

/-- One more reference of a source. -/
def addReference (l : Lookup) (file : Text) (d : Dependencies) (r : Reference) : Dependencies :=
  let d := { d with references := d.references + 1 }
  let resolution := l.resolve r.specifier file
  match resolution.category, resolution.path with
  | .external, _ => { d with external := d.external.count (Specifier.package r.specifier) }
  | _, some path =>
    let cwd := l.resolver.cwd
    { d with graph := d.graph.addEdge (Path.absolute cwd file) (Path.absolute cwd path) }
  | _, none =>
    let reason := (resolution.reason.map Unresolvable.message).getD "unresolved"
    { d with unresolved := d.unresolved ++ [⟨file, r.specifier, r.line, reason⟩] }

/-- All references of a source. -/
def addSource (l : Lookup) (d : Dependencies) (s : Source) : Dependencies :=
  s.references.foldl (addReference l s.path) d

/-- The files as nodes of a graph without edges. -/
def filesOnly (cwd : Text) (sources : List Source) : Dependencies where
  graph := sources.foldl (fun g s => g.addNode (Path.absolute cwd s.path)) .empty

/-- The dependencies of sources. -/
def ofSources (l : Lookup) (sources : List Source) : Dependencies :=
  sources.foldl (addSource l) (filesOnly l.resolver.cwd sources)

/-- What is noticed while the dependencies of sources are found. -/
def notices (l : Lookup) (sources : List Source) : List Notice :=
  let d := ofSources l sources
  (sources.flatMap fun s => s.references.flatMap fun r => l.notice r.specifier s.path) ++
    [.graphBuilt d.graph.nodes.length d.graph.edgeCount d.unresolved.length]

end Dependencies
end ModuleGraph
