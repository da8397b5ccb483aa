import ModuleGraph.Graph.Cycle
import ModuleGraph.Dependencies
import ModuleGraph.Session
import ModuleGraph.Settings.Basic
import ModuleGraph.Source.Unused

/-! The analysis of a source tree: its sources, what they depend on, and the cycles among them. -/

namespace ModuleGraph

/-- What an analysis finds out. -/
structure Analysis where
  root : Text
  sources : List Source
  dependencies : Dependencies
  cycles : List Cycle
  skipped : List Text
  deriving Repr, DecidableEq

namespace Analysis

/-- The directory that a run works on: the one asked for, or the source directory. -/
def rootOf (s : Settings) (cwd : Text) : Option Text → Except Fault Text
  | some root => .ok (Path.tidy root)
  | none => s.sourceRoot cwd

/-- The paths of the sources below a directory. -/
def scan (s : Settings) (root : Option Text) : Run (List Text) := do
  let session ← get
  let root ← Run.of (rootOf s session.cwd root)
  let scanned ← Run.of (session.tree.scan session.cwd root s.scanRules)
  Run.note scanned.notices
  return scanned.paths

/-- The sources below a directory, and the paths that were skipped. -/
def loadSources (s : Settings) (root : Option Text) : Run Loaded := do
  let session ← get
  let resolver ← Run.of (s.resolver session.cwd)
  let paths ← scan s root
  let limit ← Run.of s.limit
  let loaded := Source.loadAll session.tree session.cwd limit resolver.marks paths
  Run.note loaded.notices
  return loaded

/-- The whole analysis of loaded sources. -/
def ofSources (l : Lookup) (root : Text) (sources : List Source) (skipped : List Text) :
    Analysis :=
  let dependencies := Dependencies.ofSources l sources
  { root
    sources := sources.map (Source.resolveImports l)
    dependencies
    cycles := dependencies.graph.cycles
    skipped }

/-- The analysis of the sources below a directory. -/
def run (s : Settings) (root : Option Text) : Run Analysis := do
  let cwd := (← get).cwd
  let resolver ← Run.of (s.resolver cwd)
  let root ← Run.of (rootOf s cwd root)
  let loaded ← loadSources s (some root)
  let l : Lookup := ⟨resolver, (← get).tree.isFile cwd⟩
  Run.note (Dependencies.notices l loaded.sources)
  return ofSources l (Path.absolute cwd root) loaded.sources loaded.skipped

/-- The sources below a directory and the names that they import without using them. -/
def findUnused (s : Settings) (root : Option Text) :
    Run (List Source × List UnusedName) := do
  let loaded ← loadSources s root
  match loaded.sources.mapM Unused.find? with
  | some unused => return (loaded.sources, unused.flatten)
  | none => throw .pastEnd

end Analysis
end ModuleGraph
