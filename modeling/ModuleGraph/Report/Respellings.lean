import ModuleGraph.Report.Document
import ModuleGraph.Respell.Files

/-! The report on respelled files. Files that stayed as they were are not listed. -/

namespace ModuleGraph
namespace RespellReport

-- sums start with the zero of the core library, whatever other ones are in scope
attribute [local instance (high)] Zero.ofOfNat0

/-- What a report is shown with: whether it was a dry run, and the root. -/
structure View where
  dryRun : Bool
  root : Option Text
  deriving Repr, DecidableEq

def changed (r : RespellReport) : List FileRespelling := r.files.filter (·.respelled.hasChanges)

def warningCount (r : RespellReport) : Nat := (r.files.map (·.warnings.length)).sum

/-- The share of files that changed. -/
def rate (r : RespellReport) : Binary64 := share r.changedFiles r.total

def failureValue (v : View) (f : RespellFailure) : Value :=
  .table [("file", .text (Path.display f.file v.root)), ("error", .text f.reason)]

def changeValue (c : Change) : Value := .table [
  ("original", .text c.before), ("transformed", .text c.after), ("line", .int c.line),
  ("rule", .text c.rule)]

def fileValue (v : View) (f : FileRespelling) : Value := .table [
  ("file", .text (Path.display f.file v.root)),
  ("written", .bool f.written),
  ("transformed_imports", .array (f.respelled.changes.map changeValue)),
  ("warnings", Document.texts f.warnings)]

def summaryEntries (r : RespellReport) (v : View) : Entries Value := [
  ("root", .ofOption v.root),
  ("dry_run", .bool v.dryRun),
  ("success", .bool r.success),
  ("backup_id", .ofOption r.backup),
  ("total_files", .int r.total),
  ("transformed_files", .ofNat r.changedFiles),
  ("transformed_imports", .ofNat r.changedImports),
  ("transformation_rate", .float r.rate),
  ("warnings", .ofNat r.warningCount),
  ("errors", .array (r.failures.map (failureValue v)))]

def document (r : RespellReport) (v : View) : Run Document :=
  Document.stamped (r.summaryEntries v) (r.changed.map (fileValue v))

/-- The number of files, and of changes of one file, that are shown. -/
def shownFiles : Nat := 10

def shownChanges : Nat := 3

def headline (r : RespellReport) : Text :=
  "Files: " ++ Text.ofInt r.total ++ "   Changed files: " ++ Text.ofNat r.changedFiles ++
    "   Rewritten imports: " ++ Text.ofNat r.changedImports ++ "   Rate: " ++
    Document.percent r.rate

def title (v : View) : Text :=
  "[bold]🔄 Import Rewrite (" ++ (if v.dryRun then "DRY RUN" else "APPLIED" : Text) ++ ")[/bold]"

def changeRow (c : Change) : Row :=
  .line ("     L" ++ Text.ofInt c.line ++ ": " ++ Screen.escape c.before ++ " → " ++
    Screen.escape c.after)

def fileRows (v : View) (f : FileRespelling) : List Row :=
  let changes := f.respelled.changes
  .line ("  [cyan]" ++ Screen.escape (Path.display f.file v.root) ++ "[/cyan] (" ++
      Text.ofNat changes.length ++ " change(s))") ::
    (changes.take shownChanges).map changeRow ++
    if shownChanges < changes.length then
      [.line ("     ... and " ++ Text.ofNat (changes.length - shownChanges) ++ " more")]
    else []

def failureRow (v : View) (f : RespellFailure) : Row :=
  .line ("[red]✗ " ++ Screen.escape (Path.display f.file v.root) ++ ": " ++
    Screen.escape f.reason ++ "[/red]")

/-- How to undo a respelling before which a backup was made. -/
def backupRows : Option Text → List Row
  | some (c :: id) =>
    let id := Screen.escape (c :: id)
    [.line ("\n💾 Backup " ++ id ++ " taken first. Undo with: dg backup restore " ++ id)]
  | _ => []

/-- The report as it is shown. -/
def rows (r : RespellReport) (v : View) : List Row :=
  .panel r.headline (title v) "cyan" :: (r.changed.take shownFiles).flatMap (fileRows v) ++
    (if shownFiles < r.changed.length then
      [.line ("  ... and " ++ Text.ofNat (r.changed.length - shownFiles) ++ " more file(s)")]
    else []) ++
    (if r.warningCount = 0 then []
    else
      [.line ("\n[yellow]⚠️  " ++ Text.ofNat r.warningCount ++
        " rewritten import(s) do not resolve[/yellow]")]) ++
    r.failures.map (failureRow v) ++
    (if r.success && r.changedFiles = 0 then
      [.line "\n[green]✓ No imports needed rewriting.[/green]"]
    else []) ++
    backupRows r.backup

end RespellReport
end ModuleGraph
