import ModuleGraph.Analysis.Basic
import ModuleGraph.Report.Document

/-! The report on cycles: the cycles, the busiest modules, and the whole graph. -/

namespace ModuleGraph

/-- The report on the cycles of an analysed source tree. Modules are shown below the root. -/
structure CycleReport where
  root : Text
  modules : Nat
  dependencies : Nat
  mostDependencies : Tally
  mostReferenced : Tally
  graph : Entries (List Text)
  cycles : List Cycle
  deriving Repr, DecidableEq

namespace CycleReport

def shown (root node : Text) : Text := Path.display node (some root)

def shownTally (root : Text) (t : Tally) : Tally := t.map fun (node, n) => (shown root node, n)

/-- Modules with their targets; modules that are shown alike are one. -/
def shownGraph (root : Text) (g : Graph) : Entries (List Text) :=
  Entries.ofList (g.adjacency.map fun (node, targets) =>
    (shown root node, targets.map (shown root)))

/-- The report on an analysis, with the first `top` entries of each ranking. -/
def ofAnalysis (a : Analysis) (top : Int) : CycleReport :=
  let graph := a.dependencies.graph
  { root := a.root
    modules := graph.nodes.length
    dependencies := graph.edgeCount
    mostDependencies := shownTally a.root (graph.mostDependencies top)
    mostReferenced := shownTally a.root (graph.mostReferenced top)
    graph := shownGraph a.root graph
    cycles := a.cycles }

def rankedValue (counted : Text) (t : Tally) : Value :=
  .array (t.map fun (node, n) => .table [("module", .text node), (counted, .int n)])

def cycleValue (root : Text) (c : Cycle) : Value := .table [
  ("cycle", Document.texts (c.nodes.map (shown root))),
  ("length", .int c.length),
  ("description", .text (c.describe (some root)))]

def summaryEntries (r : CycleReport) : Entries Value := [
  ("root", .text r.root),
  ("status", .text (Document.status (!r.cycles.isEmpty))),
  ("total_modules", .ofNat r.modules),
  ("total_dependencies", .ofNat r.dependencies),
  ("cycle_count", .ofNat r.cycles.length),
  ("most_dependencies", rankedValue "dependencies" r.mostDependencies),
  ("most_referenced", rankedValue "references" r.mostReferenced),
  ("dependency_graph", .table (r.graph.map fun (node, targets) => (node, Document.texts targets)))]

def document (r : CycleReport) : Run Document :=
  Document.stamped r.summaryEntries (r.cycles.map (cycleValue r.root))

def rankedRows (title counted : Text) (t : Tally) : List Row :=
  Screen.tableIfAny title ["Module", counted] (t.map fun (node, n) => [node, Text.ofInt n])

/-- A line for each cycle, numbered from one on. -/
def cycleRows (root : Text) (cycles : List Cycle) : List Row :=
  cycles.mapIdx fun i c =>
    .line ("  " ++ Text.ofNat (i + 1) ++ ". " ++ Screen.escape (c.describe (some root)))

/-- What is shown about the cycles as a whole. -/
def verdict (n : Nat) : Text :=
  if n = 0 then "\n[green]✓ No circular dependencies found.[/green]"
  else
    "\n[red]⚠️  " ++ Text.ofNat n ++ " circular dependenc" ++
      (if n = 1 then "y" else "ies" : Text) ++ " found[/red]"

/-- The report as it is shown. -/
def rows (r : CycleReport) : List Row :=
  .line ("Modules: " ++ Text.ofNat r.modules ++ "   Dependencies: " ++
      Text.ofNat r.dependencies) ::
    rankedRows "Modules with the most dependencies" "Dependencies" r.mostDependencies ++
    rankedRows "Most referenced modules" "References" r.mostReferenced ++
    .line (verdict r.cycles.length) :: cycleRows r.root r.cycles

end CycleReport
end ModuleGraph
