import ModuleGraph.Backup.Basic
import ModuleGraph.Command.Basic
import ModuleGraph.Command.Outcome
import ModuleGraph.Drawing.Dot
import ModuleGraph.Drawing.Page
import ModuleGraph.Report.Cycles
import ModuleGraph.Report.Imports
import ModuleGraph.Report.Respellings
import ModuleGraph.Report.Unused
import ModuleGraph.Report.Validation
import ModuleGraph.Respell.Project
import ModuleGraph.Settings.Stored

/-! Running commands. A command that makes a report writes it before it shows it. -/

namespace ModuleGraph
namespace Command

/-- The stored settings, with another source directory if one was asked for. -/
def settingsFor (source : Option Text) : Run Settings := do
  let s ← Settings.load (← get).cwd
  match source with
  | none => return s
  | some path => Run.of (s.override [("src_dir", .text path)])

/-- The path of a report or drawing: the one asked for, or a file of the current directory. -/
def outputPath (asked : Option Text) (name : Text) : Run Text := do
  return asked.getD (Path.child (← get).cwd name)

/-- A report written, with the path that it was written to. -/
def writeReport (asked : Option Text) (name : Text) (d : Document) : Run Text := do
  let path ← outputPath asked name
  Document.write path d.value
  return path

/-- The row that tells where a report is. -/
def writtenRow (path : Text) : Row := .line ("\n📄 Report written to " ++ Screen.escape path)

/-- The end of a command that wrote a report to `path`. -/
def reported (rows : List Row) (path : Text) (found : Bool) : Outcome :=
  .shown (rows ++ [writtenRow path]) found

def runAnalyze (source report : Option Text) (top : Option Int) : Run Outcome :=
  Outcome.guarded (do
    let s ← settingsFor source
    let s ← Run.of (s.override [("top_n", (top.map Value.int).getD .null)])
    let analysis ← Analysis.run s none
    let r := ImportReport.ofAnalysis analysis (← Run.of (Settings.whole s.top))
      (← Run.of (Settings.whole s.deepThreshold))
    return (r, ← writeReport report "project-structure-analysis.json" (← r.document)))
    fun (r, path) => return reported r.rows path false

/-- The number of modules in the rankings of the report on cycles. -/
def shownModules : Int := 5

def runCheckCycles (directory report : Option Text) : Run Outcome :=
  Outcome.guarded (do
    let analysis ← Analysis.run (← settingsFor directory) none
    let r := CycleReport.ofAnalysis analysis shownModules
    return (r, ← writeReport report "circular-deps-report.json" (← r.document)))
    fun (r, path) => return reported r.rows path (!r.cycles.isEmpty)

def runTransform (request : RespellRequest) (source report : Option Text) : Run Outcome :=
  Outcome.guarded (do
    let s ← settingsFor source
    let r ← Respell.project s request
    let root ← Run.of (s.sourceRoot (← get).cwd)
    let view : RespellReport.View := ⟨request.dryRun, some root⟩
    return (r, view, ← writeReport report "import-transformation-report.json"
      (← r.document view)))
    fun (r, view, path) => return reported (r.rows view) path (!r.success)

def runValidate (source report : Option Text) : Run Outcome :=
  Outcome.guarded (do
    let r := ValidationReport.ofAnalysis (← Analysis.run (← settingsFor source) none)
    return (r, ← writeReport report "import-validation-report.json" (← r.document)))
    fun (r, path) => return reported r.rows path r.hasFindings

def runUnusedImports (source report : Option Text) : Run Outcome :=
  Outcome.guarded (do
    let s ← settingsFor source
    let (sources, unused) ← Analysis.findUnused s none
    let root ← Run.of (s.sourceRoot (← get).cwd)
    let r : UnusedReport := ⟨some root, sources.length, unused⟩
    return (r, ← writeReport report "unused-imports-report.json" (← r.document)))
    fun (r, path) => return reported r.rows path false

/-- The drawing of an analysis. -/
def drawing (format : DrawingFormat) (a : Analysis) (focus : Text) : Text :=
  match format with
  | .page => Page.ofAnalysis a focus
  | .dot => Dot.ofAnalysis a focus

def runExportGraph (focus : Text) (source : Option Text) (format : DrawingFormat)
    (output : Option Text) : Run Outcome :=
  Outcome.guarded (do Analysis.run (← settingsFor source) none) fun a => do
    let path ← outputPath output ("dependency_graph." ++ format.name)
    let session ← get
    match session.tree.write session.cwd path (Utf8.encode (drawing format a focus)) with
    | .error e => return .notWritten path e.reason
    | .ok t =>
      Run.setTree t
      return { printed := "Exported graph to " ++ path ++ ['\n'] }

def runShowSettings : Run Outcome :=
  Outcome.guarded (settingsFor none) fun s => do
    let rows ← Run.of (s.describe (← get).cwd)
    return .shown [.table "depgraph settings"
      [{ header := "Setting", style := some "cyan" }, { header := "Value" }]
      (rows.map fun (name, value) => [name, value])] false

/-- The user's directory for settings, made if it is not there. -/
def makeUserDirectory : Run Unit := do
  let session ← get
  match session.tree.makeDirectories session.cwd (Settings.userDirectory session.home) true with
  | .error e => throw (.file e)
  | .ok t => Run.setTree t

/-- The default settings saved; a failure to do so ends the command. -/
def saveDefaults (path : Text) : Run Outcome := fun session => do
  let (result, session) ← Settings.save {} path session
  match result with
  | .ok _ =>
    return (.ok (.shown [.line ("[green]✓ Wrote " ++ Screen.escape path ++ "[/green]")] false),
      session)
  | .error (.file e) => return (.ok (.notWritten path e.reason), session)
  | .error fault =>
    match fault.message with
    | some message => return (.ok (.notWritten path message), session)
    | none => return (.error fault, session)

def runInitSettings (path : Option Text) (force user : Bool) : Run Outcome := do
  if user then makeUserDirectory
  let session ← get
  let target := if user then Settings.userFile session.home
    else path.getD (Path.child session.cwd Settings.projectFile)
  if session.tree.present session.cwd target && !force then
    return {
      exit := Outcome.findings
      errors := [.line ("[yellow]" ++ Screen.escape target ++
        " already exists. Use --force to overwrite.[/yellow]")] }
  else saveDefaults target

/-- The backups of the current project, and its settings. -/
def projectBackups (source : Option Text) : Run (Backups × Settings) := do
  let s ← settingsFor source
  return (Backups.ofSettings s (← get).cwd, s)

def runCreateBackup (description : Text) (source : Option Text) : Run Outcome :=
  Outcome.guarded (do
    let (b, s) ← projectBackups source
    b.create s description)
    fun record => return .shown [.line ("[green]✓ Created " ++ record.id ++ "[/green] (" ++
      Text.ofNat record.files.length ++ " files)")] false

/-- The beginning of a commit. -/
def shortCommit (v : Value) : Except Fault Text :=
  match v with
  | .text t => .ok (t.take 8)
  | .array (_ :: _) => .error .notShowable
  | v => if v.isTruthy then .error .wrongType else .ok []

/-- A backup as it is listed. -/
def backupCells (r : BackupRecord) : Except Fault (List Text) := do
  let commit ← shortCommit r.commit
  .ok [r.id, Text.replaceChar 'T' [' '] (r.timestamp.take 19), Text.ofNat r.files.length, commit,
    Screen.escape r.description]

def runListBackups : Run Outcome :=
  Outcome.guarded (do
    let (b, _) ← projectBackups none
    b.list) fun records => do
    if records.isEmpty then return .shown [.line "📦 No backups found."] false
    let rows ← Run.of (records.mapM backupCells)
    return .shown [.table "📦 Backups"
      [{ header := "ID", style := some "cyan" }, { header := "Created" },
        { header := "Files", right := true }, { header := "Commit" }, { header := "Description" }]
      rows] false

def runRestoreBackup (id : Option Text) (dryRun : Bool) : Run Outcome :=
  Outcome.guarded (do
    let (b, _) ← projectBackups none
    b.restore id dryRun) fun r =>
    return {
      exit := if r.success then 0 else Outcome.findings
      rows := [.line ((if dryRun then "Would restore" else "Restored" : Text) ++ ' ' ::
        Text.ofNat r.files.length ++ " file(s) from " ++ r.id)]
      errors := r.failed.map fun name =>
        .line ("[red]✗ " ++ Screen.escape name ++ "[/red]") }

def runDeleteBackup (id : Text) : Run Outcome :=
  Outcome.guarded (do
    let (b, _) ← projectBackups none
    b.delete id)
    fun _ => return .shown [.line ("[green]✓ Deleted " ++ Screen.escape id ++ "[/green]")] false

/-- A command run to its end. -/
def run : Command → Run Outcome
  | .analyze source report top => runAnalyze source report top
  | .checkCycles directory report => runCheckCycles directory report
  | .transform source dryRun ruleSet backup report =>
    runTransform { dryRun, ruleSet, backup } source report
  | .validate source report => runValidate source report
  | .unusedImports source report => runUnusedImports source report
  | .exportGraph focus source format output => runExportGraph focus source format output
  | .showSettings => runShowSettings
  | .initSettings path force user => runInitSettings path force user
  | .createBackup description source => runCreateBackup description source
  | .listBackups => runListBackups
  | .restoreBackup id dryRun => runRestoreBackup id dryRun
  | .deleteBackup id => runDeleteBackup id

end Command

namespace Request

/-- A request carried out. Help is left to the caller. -/
def perform : Request → Run Outcome
  | .wrongUsage => return { exit := Outcome.failure }
  | .help => return {}
  | .version => return { printed := "depgraph v" ++ Backups.version ++ ['\n'] }
  | .run _ command => command.run

/-- The lowest level of the notices that are shown. -/
def level : Request → Level
  | .run true _ => .debug
  | _ => .warning

end Request
end ModuleGraph
