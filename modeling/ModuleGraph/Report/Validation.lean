import ModuleGraph.Analysis.Basic
import ModuleGraph.Report.Document

/-! The report of a validation: the references that lead nowhere, and the cycles. A source tree is
clean if there are neither. -/

namespace ModuleGraph

/-- The report of a validation. Files are shown below the root. -/
structure ValidationReport where
  root : Text
  files : Nat
  references : Int
  invalid : List Unresolved
  cycles : List (List Text)
  deriving Repr, DecidableEq

namespace ValidationReport

def ofAnalysis (a : Analysis) : ValidationReport where
  root := a.root
  files := a.sources.length
  references := a.dependencies.references
  invalid := a.dependencies.unresolved.map fun u =>
    { u with file := Path.display u.file (some a.root) }
  cycles := a.cycles.map fun c => c.nodes.map (Path.display · (some a.root))

/-- The number of references that are external or lead to a file. -/
def valid (r : ValidationReport) : Int := r.references - r.invalid.length

def hasFindings (r : ValidationReport) : Bool := !r.invalid.isEmpty || !r.cycles.isEmpty

def unresolvedValue (u : Unresolved) : Value := .table [
  ("file", .text u.file), ("import", .text u.specifier), ("line", .int u.line),
  ("error", .text u.reason)]

def summaryEntries (r : ValidationReport) : Entries Value := [
  ("root", .text r.root),
  ("status", .text (Document.status r.hasFindings)),
  ("total_files", .ofNat r.files),
  ("total_references", .int r.references),
  ("valid_imports", .int r.valid),
  ("invalid_imports", .ofNat r.invalid.length),
  ("success_rate", .float (percentage r.valid r.references)),
  ("cycle_count", .ofNat r.cycles.length),
  ("cycles", .array (r.cycles.map Document.texts))]

def document (r : ValidationReport) : Run Document :=
  Document.stamped r.summaryEntries (r.invalid.map unresolvedValue)

/-- The number of unresolved references that are shown. -/
def shownItems : Nat := 20

def headline (r : ValidationReport) : Text :=
  "Files: " ++ Text.ofNat r.files ++ "   Valid imports: " ++ Text.ofInt r.valid ++
    "   Invalid imports: " ++ Text.ofNat r.invalid.length ++ "   Success rate: " ++
    Document.percent (percentage r.valid r.references) ++ "   Cycles: " ++
    Text.ofNat r.cycles.length

def unresolvedRows (invalid : List Unresolved) : List Row :=
  Screen.tableIfAny "Unresolved imports" ["Location", "Import", "Reason"]
      ((invalid.take shownItems).map fun u =>
        [Document.location u.file u.line, u.specifier, u.reason]) ++
    if shownItems < invalid.length then
      [.line ("  ... and " ++ Text.ofNat (invalid.length - shownItems) ++ " more")]
    else []

def cycleRow (i : Nat) (nodes : List Text) : Row :=
  .line ("  [red]" ++ Text.ofNat (i + 1) ++ ". " ++ Screen.escape (Text.join " → " nodes) ++
    "[/red]")

/-- The report as it is shown. -/
def rows (r : ValidationReport) : List Row :=
  .line r.headline :: unresolvedRows r.invalid ++ r.cycles.mapIdx cycleRow ++
    if r.hasFindings then []
    else
      [.line "\n[green]✓ All imports resolve and there are no circular dependencies.[/green]"]

end ValidationReport
end ModuleGraph
