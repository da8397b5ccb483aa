import ModuleGraph.Backup.Record
import ModuleGraph.Files.Change
import ModuleGraph.Session
import ModuleGraph.Settings.Basic

/-! Backups of a project. Each has a directory of its own, named for the moment when it was made,
that holds copies of the sources and the record of the backup. -/

namespace ModuleGraph

/-- What restoring a backup did. -/
structure Restored where
  id : Text
  dryRun : Bool
  files : List Text := []
  failed : List Text := []
  deriving Repr, DecidableEq

def Restored.success (r : Restored) : Bool := r.failed.isEmpty

/-- The backups of the project at an absolute path. -/
structure Backups where
  cwd : Text
  project : Text

namespace Backups

def version : Text := "0.1.0"

/-- The beginning of the name of every backup. -/
def head : Text := "backup-"

def recordName : Text := "backup-metadata.json"

/-- The suffixes of the files that are backed up. -/
def suffixes : List Text := [".ts", ".tsx", ".js", ".jsx", ".json", ".md"]

/-- The files of the project's own directory that are backed up. -/
def projectFiles : List Text := [
  "package.json", "tsconfig.json", "next.config.ts", "next.config.js", "tailwind.config.ts",
  "eslint.config.ts", ".env.example", "README.md"]

def ofSettings (s : Settings) (cwd : Text) : Backups := ⟨cwd, Path.absolute cwd s.projectRoot⟩

/-- The directory of all backups. -/
def directory (b : Backups) : Text := Path.child b.project ".backup"

/-- The path of a file seen from the project's directory, if it is in it. -/
def relative? (b : Backups) (path : Text) : Option Text :=
  let way := Path.relative b.cwd path b.project
  if Path.leavesStart way then none else some (Path.tidy way)

/-- The directory of a backup. -/
def place (b : Backups) (id : Text) : Except Fault Text :=
  if id.startsWith head && !id.contains '/' then .ok (Path.child b.directory id)
  else .error (.backupIdInvalid id)

/-- The files to back up: sources of the project, then files of its own directory. -/
def filesToBackUp (b : Backups) (s : Settings) : Run (List Text) := do
  let t := (← get).tree
  let root ← Run.of (s.sourceRoot b.cwd)
  let scanned ←
    if t.isDirectory b.cwd root then Run.of (t.scan b.cwd root ⟨s.exclude, suffixes⟩)
    else pure ⟨[], []⟩
  let (inside, outside) := scanned.paths.partition fun path => (b.relative? path).isSome
  Run.note (scanned.notices ++ outside.map (.outsideProject · b.project))
  return inside ++ (projectFiles.map (Path.child b.project)).filter (t.isFile b.cwd)

/-- A file copied to a path whose directory may be missing. What was made before a failure
stays. -/
def copyFile (b : Backups) (t : Tree) (source target : Text) : Tree × Option FileError :=
  match t.makeDirectories b.cwd (Path.parent target) true with
  | .error e => (t, some e)
  | .ok made =>
    match made.copy b.cwd source target with
    | .error e => (made, some e)
    | .ok t => (t, none)

/-- Files copied below a directory under their names in the project: the tree after it, the names
of those that were copied, and what was noticed. -/
def copyAll (b : Backups) (target : Text) (t : Tree) :
    List Text → Tree × List Text × List Notice
  | [] => (t, [], [])
  | path :: rest =>
    let name := (b.relative? path).getD []
    let (t, failure) := b.copyFile t path (Path.child target name)
    let (t, names, notices) := b.copyAll target t rest
    match failure with
    | some e => (t, names, .notBackedUp path e :: notices)
    | none => (t, name :: names, notices)

/-- The commit of the project, if the version control names one. -/
def commitOf (b : Backups) : Run Value := do
  match (← get).commit with
  | none =>
    Run.note [.noCommit b.project "the version control does not answer"]
    return .null
  | some answer =>
    let name := answer.trim
    return if name.isEmpty then .null else .text name

/-- A new backup. -/
def create (b : Backups) (s : Settings) (description : Text) : Run BackupRecord := do
  let now ← Run.now
  let id := head ++ now.stamp
  let target := Path.child b.directory id
  match (← get).tree.makeDirectories b.cwd target false with
  | .error e => throw (.backupNotCreated target e)
  | .ok t => Run.setTree t
  let paths ← b.filesToBackUp s
  let (t, files, notices) := b.copyAll target (← get).tree paths
  Run.setTree t
  Run.note notices
  let record : BackupRecord :=
    ⟨id, now.iso, version, description, files, ← b.commitOf⟩
  match t.write b.cwd (Path.child target recordName) (Utf8.encode record.write) with
  | .error e => throw (.backupNotDescribed target e)
  | .ok t => Run.setTree t
  Run.note [.backupCreated id files.length]
  return record

/-- The record in the directory `name`, if there is one, or why it cannot be read. -/
def recordIn (b : Backups) (t : Tree) (name : Text) : Option (Text × Except Fault BackupRecord) :=
  let directory := Path.child b.directory name
  let path := Path.child directory recordName
  if t.isDirectory b.cwd directory && name.startsWith head && t.isFile b.cwd path then
    some (path, match t.read b.cwd path with
      | .ok bytes => BackupRecord.read bytes
      | .error e => .error (.file e))
  else none

/-- The records that can be read, in the order of the names of their directories. -/
def records (b : Backups) (t : Tree) : List BackupRecord × List Notice :=
  match t.isDirectory b.cwd b.directory, t.locate true b.cwd b.directory with
  | true, .ok place =>
    let found := (t.names place).filterMap (b.recordIn t)
    (found.filterMap fun
      | (_, .ok record) => some record
      | _ => none,
    found.filterMap fun
      | (path, .error _) => some (.backupUnreadable path "not a record")
      | _ => none)
  | _, _ => ([], [])

/-- Later timestamps first; equal ones keep their order. -/
def newestFirst (records : List BackupRecord) : List BackupRecord :=
  records.mergeSort fun a b => Text.le b.timestamp a.timestamp

/-- All backups, newest first. -/
def list (b : Backups) : Run (List BackupRecord) := do
  let (records, notices) := b.records (← get).tree
  Run.note notices
  return newestFirst records

/-- The backup of a name, or the newest one. -/
def get (b : Backups) (id? : Option Text) : Run BackupRecord := do
  if let some id := id? then discard (Run.of (b.place id))
  let records ← b.list
  match records, id? with
  | [], _ => throw (.noBackups b.directory)
  | newest :: _, none => return newest
  | _, some id =>
    match records.find? (·.id = id) with
    | some record => return record
    | none => throw (.backupMissing id)

/-- What becomes of one file of a backup. -/
inductive FileOutcome
  | restored
  | refused
  | failed (cause : FileError)

/-- One file of a backup copied back. A path that leads out of the project is refused. -/
def restoreFile (b : Backups) (source : Text) (dryRun : Bool) (t : Tree) (name : Text) :
    Tree × FileOutcome :=
  let copied := Path.child source name
  let target := Path.child b.project name
  if (b.relative? target).isNone || !t.isFile b.cwd copied then (t, .refused)
  else if dryRun then (t, .restored)
  else match b.copyFile t copied target with
    | (t, none) => (t, .restored)
    | (t, some e) => (t, .failed e)

/-- One file after another copied back. -/
def restoreEach (b : Backups) (source : Text) (dryRun : Bool) (t : Tree) :
    List Text → Tree × List (Text × FileOutcome)
  | [] => (t, [])
  | name :: rest =>
    let (t, outcome) := b.restoreFile source dryRun t name
    let (t, outcomes) := b.restoreEach source dryRun t rest
    (t, (name, outcome) :: outcomes)

/-- The notice about a file that was not restored. -/
def restoreNotice : Text × FileOutcome → Option Notice
  | (_, .restored) => none
  | (name, .refused) => some (.backupFileMissing name)
  | (name, .failed e) => some (.notRestored name e)

/-- The files of a backup copied back into the project; in a dry run only listed. -/
def restore (b : Backups) (id? : Option Text) (dryRun : Bool) : Run Restored := do
  let record ← b.get id?
  let source ← Run.of (b.place record.id)
  let (t, outcomes) := b.restoreEach source dryRun (← MonadState.get).tree record.files
  Run.setTree t
  let (done, failed) := outcomes.partition fun
    | (_, .restored) => true
    | _ => false
  Run.note (outcomes.filterMap restoreNotice)
  Run.note [.restored dryRun done.length record.id failed.length]
  return ⟨record.id, dryRun, done.map (·.1), failed.map (·.1)⟩

/-- A backup removed with all its files. -/
def delete (b : Backups) (id : Text) : Run Unit := do
  let target ← Run.of (b.place id)
  let t := (← MonadState.get).tree
  if !t.isDirectory b.cwd target then throw (.backupMissing id)
  match t.removeDirectory b.cwd target with
  | .error e => throw (.backupNotDeleted id e)
  | .ok t => Run.setTree t
  Run.note [.backupDeleted id]

end Backups
end ModuleGraph
