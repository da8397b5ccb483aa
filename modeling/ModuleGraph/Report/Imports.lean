import ModuleGraph.Analysis.Basic
import ModuleGraph.Report.Document

/-! The report on imports: statistics of the sources, of their dependencies, and every import. -/

namespace ModuleGraph

/-- What the report on imports tells about a file. -/
structure FileImports where
  statistics : FileStatistics
  imports : List Import
  deriving Repr, DecidableEq

/-- The report on the imports of an analysed source tree. -/
structure ImportReport where
  root : Text
  summary : ImportSummary
  skipped : List Text
  modules : Nat
  dependencies : Nat
  unresolved : Nat
  cycles : Nat
  topFiles : List (Text × Nat)
  topDirectories : List DirectoryStatistics
  topPackages : Tally
  deep : List DeepImport
  mixed : List MixedFile
  files : List FileImports
  deriving Repr, DecidableEq

namespace ImportReport

/-- The report on an analysis: the first `top` entries of each ranking, and the imports that climb
at least `threshold` directories. -/
def ofAnalysis (a : Analysis) (top threshold : Int) : ImportReport :=
  let root := some a.root
  let graph := a.dependencies.graph
  { root := a.root
    summary := Statistics.summary a.sources
    skipped := a.skipped.map (Path.display · root)
    modules := graph.nodes.length
    dependencies := graph.edgeCount
    unresolved := a.dependencies.unresolved.length
    cycles := a.cycles.length
    topFiles := Statistics.topFiles root top a.sources
    topDirectories := Statistics.directories root top a.sources
    topPackages := a.dependencies.external.highest top
    deep := Statistics.deepImports root threshold a.sources
    mixed := Statistics.mixedFiles root a.sources
    files := a.sources.map fun s => ⟨Statistics.ofFile root s, s.imports⟩ }

/-- An import; the file that it leads to is shown below the root. -/
def importValue (root : Text) (i : Import) : Value := .table [
  ("specifier", .text i.specifier),
  ("line", .int i.line),
  ("kind", .text i.kind.name),
  ("category", .text i.category.name),
  ("resolved", match i.resolved with
    | some (c :: path) => .text (Path.display (c :: path) (some root))
    | _ => .null)]

def fileValue (root : Text) (f : FileImports) : Value :=
  let imports : Entries Value := [("imports", .array (f.imports.map (importValue root)))]
  .table (Statistics.fileEntries f.statistics ++ imports)

/-- What the summary tells besides the statistics of the imports. -/
def treeEntries (r : ImportReport) : Entries Value := [
  ("root", .text r.root),
  ("skipped_files", Document.texts r.skipped),
  ("total_modules", .ofNat r.modules),
  ("total_dependencies", .ofNat r.dependencies),
  ("unresolved_imports", .ofNat r.unresolved),
  ("cycle_count", .ofNat r.cycles),
  ("top_files", .array (r.topFiles.map Statistics.topFileValue)),
  ("top_directories", .array (r.topDirectories.map Statistics.directoryValue)),
  ("top_packages", .array (r.topPackages.map Statistics.packageValue)),
  ("problematic_patterns", Statistics.patternsValue r.deep r.mixed)]

def summaryEntries (r : ImportReport) : Entries Value :=
  Statistics.summaryEntries r.summary ++ r.treeEntries

def document (r : ImportReport) : Run Document :=
  Document.stamped r.summaryEntries (r.files.map (fileValue r.root))

/-- A count of imports with its share in all. -/
def countText (part total : Nat) : Text :=
  Text.ofNat part ++ " (" ++ Document.percent (percentage part total) ++ ")"

def headline (r : ImportReport) : Text :=
  let c := r.summary.counts
  "Files: [bold]" ++ Text.ofNat r.summary.files ++ "[/bold]   Imports: [bold]" ++
    Text.ofNat c.total ++ "[/bold]\nRelative: " ++ countText c.relative c.total ++
    "   Aliased: " ++ countText c.aliased c.total ++
    "   External: " ++ countText c.external c.total ++
    "\nModules: " ++ Text.ofNat r.modules ++ "   Dependencies: " ++ Text.ofNat r.dependencies ++
    "   Unresolved: " ++ Text.ofNat r.unresolved ++ "   Cycles: " ++ Text.ofNat r.cycles

/-- The number of conspicuous items that are shown. -/
def shownItems : Nat := 10

def deepRow (d : DeepImport) : Row :=
  .line ("  • " ++ Screen.escape d.file ++ ':' :: Text.ofInt d.line ++ ' ' ::
    Screen.escape d.specifier ++ " (depth " ++ Text.ofNat d.depth ++ ")")

def deepRows (deep : List DeepImport) : List Row :=
  if deep.isEmpty then []
  else
    .line ("\n[yellow]⚠️  " ++ Text.ofNat deep.length ++ " deep relative import(s)[/yellow]") ::
      (deep.take shownItems).map deepRow ++
      if shownItems < deep.length then
        [.line ("  ... and " ++ Text.ofNat (deep.length - shownItems) ++ " more")]
      else []

def mixedRow (m : MixedFile) : Row :=
  .line ("  • " ++ Screen.escape m.file ++ " (relative: " ++ Text.ofNat m.relative ++
    ", aliased: " ++ Text.ofNat m.aliased ++ ")")

def mixedRows (mixed : List MixedFile) : List Row :=
  if mixed.isEmpty then []
  else
    .line ("\n[yellow]⚠️  " ++ Text.ofNat mixed.length ++
      " file(s) mix relative and alias imports[/yellow]") ::
      (mixed.take shownItems).map mixedRow

def directoryCells (d : DirectoryStatistics) : List Text := [
  d.directory, Text.ofNat d.files, Text.ofNat d.imports,
  Document.percent (percentage d.relative d.imports),
  Document.percent (percentage d.aliased d.imports)]

/-- The report as it is shown. -/
def rows (r : ImportReport) : List Row :=
  .panel r.headline "[bold]📊 Import Analysis[/bold]" "cyan" ::
    Screen.tableIfAny "Files with the most imports" ["File", "Imports"]
      (r.topFiles.map fun (file, n) => [file, Text.ofNat n]) ++
    Screen.tableIfAny "Directories" ["Directory", "Files", "Imports", "Relative", "Aliased"]
      (r.topDirectories.map directoryCells) ++
    Screen.tableIfAny "External packages" ["Package", "Imports"]
      (r.topPackages.map fun (name, n) => [name, Text.ofInt n]) ++
    deepRows r.deep ++ mixedRows r.mixed ++
    if r.skipped.isEmpty then []
    else
      [.line ("\n[yellow]Skipped " ++ Text.ofNat r.skipped.length ++
        " unreadable file(s)[/yellow]")]

end ImportReport
end ModuleGraph
