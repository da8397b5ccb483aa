import ModuleGraph.Report.Document
import ModuleGraph.Source.Unused

/-! The report on names that are imported and not used. -/

namespace ModuleGraph

/-- The report on unused names, with the number of sources that were looked at. -/
structure UnusedReport where
  root : Option Text
  files : Nat
  unused : List UnusedName
  deriving Repr, DecidableEq

namespace UnusedReport

def shown (r : UnusedReport) (file : Text) : Text := Path.display file r.root

def unusedValue (r : UnusedReport) (u : UnusedName) : Value := .table [
  ("file", .text (r.shown u.file)), ("line", .int u.line), ("name", .text u.name),
  ("import", .text u.specifier)]

def summaryEntries (r : UnusedReport) : Entries Value := [
  ("root", .ofOption r.root),
  ("status", .text (Document.status (!r.unused.isEmpty))),
  ("checked_files", .ofNat r.files),
  ("unused_imports", .ofNat r.unused.length),
  ("files_with_unused", .ofNat (r.unused.map (·.file)).eraseDups.length)]

def document (r : UnusedReport) : Run Document :=
  Document.stamped r.summaryEntries (r.unused.map r.unusedValue)

/-- The number of names that are shown. -/
def shownItems : Nat := 50

/-- The report as it is shown. -/
def rows (r : UnusedReport) : List Row :=
  .line ("Checked files: " ++ Text.ofNat r.files ++ "   Unused imports: " ++
      Text.ofNat r.unused.length) ::
    if r.unused.isEmpty then [.line "[green]✓ No unused imports found.[/green]"]
    else
      [Screen.table "Unused imports" ["Location", "Name", "Import"]
        ((r.unused.take shownItems).map fun u =>
          [Document.location (r.shown u.file) u.line, u.name, u.specifier])]

end UnusedReport
end ModuleGraph
