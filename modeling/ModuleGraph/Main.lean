import ModuleGraph.Command.Run

/-! The program. It reads the files of the current directory and the user's settings, lets the
library carry out what the command line asks for, writes back what changed, and prints what is to
be shown. -/

open ModuleGraph

namespace ModuleGraph.Main

/-- Directories that are not read. -/
def unread : List Text := ScanRules.defaultExclude.filter (· != ".backup".toList)

/-- What kind of thing an entry is, links followed; nothing for a link that leads nowhere. -/
def kind? (entry : IO.FS.DirEntry) : IO (Option IO.FS.FileType) := do
  match ← entry.path.metadata.toBaseIO with
  | .ok (m : IO.FS.Metadata) => return some m.type
  | .error _ => return none

def isLink (entry : IO.FS.DirEntry) : IO Bool := do
  let m : IO.FS.Metadata ← entry.path.symlinkMetadata
  return m.type == IO.FS.FileType.symlink

/-- The entries below a directory. Links to directories are not followed. -/
partial def readDirectory (place : Place) (entries : Array IO.FS.DirEntry) :
    IO (List (Place × Entry)) := do
  let mut found : List (Place × Entry) := []
  for entry in entries do
    let name := entry.fileName.toList
    let here := place ++ [name]
    match ← kind? entry with
    | some .file =>
      let bytes ← IO.FS.readBinFile entry.path
      found := (here, Entry.file bytes.toList) :: found
    | some .dir =>
      if !(← isLink entry) && !unread.contains name then
        let below ← readDirectory here (← entry.path.readDir)
        found := (here, Entry.directory) :: below ++ found
    | _ => pure ()
  return found

/-- A directory with those above it. -/
def directoriesTo (place : Place) : List (Place × Entry) :=
  (List.range place.length).map fun n => (place.take (n + 1), .directory)

/-- The contents of a file, or nothing if it cannot be read. -/
def contents? (path : String) : IO (Option Bytes) := do
  match ← (IO.FS.readBinFile path).toBaseIO with
  | .ok bytes => return some bytes.toList
  | .error _ => return none

/-- The commit that the repository in a directory stands at. -/
def commitOf (directory : String) : IO (Option Text) := do
  let some head ← contents? (directory ++ "/.git/HEAD") | return none
  let head := (Utf8.decodeReplacing head).trim
  match Text.after? "ref: " head with
  | none => return some head
  | some reference =>
    return (← contents? (directory ++ "/.git/" ++ String.ofList reference)).map
      Utf8.decodeReplacing

/-- The present moment, as the time at which a new file was written. -/
def now : IO Moment := do
  let (_, path) ← IO.FS.createTempFile
  let time := (← path.metadata).modified
  IO.FS.removeFile path
  return .ofEpoch time.sec.toNat (time.nsec.toNat / 1000)

/-- The session in the current directory. -/
def readSession : IO Session := do
  let directory ← IO.currentDir
  let cwd := directory.toString.toList
  let home := ((← IO.getEnv "HOME").getD "/").toList
  let place := Path.names cwd
  let below ← readDirectory place (← directory.readDir)
  let user := Settings.userFile home
  let userEntries ← match ← contents? (String.ofList user) with
    | some bytes =>
      pure (directoriesTo (Path.names user).dropLast ++ [(Path.names user, .file bytes)])
    | none => pure []
  return {
    tree := ⟨directoriesTo place ++ below ++ userEntries⟩
    cwd, home
    clock := { pending := [← now] }
    commit := ← commitOf directory.toString }

def placePath (p : Place) : String := String.ofList (Scan.placeText p)

/-- What changed from one tree to another, written to the files. -/
def writeChanges (before after : Tree) : IO Unit := do
  for place in after.directories do
    unless before.directories.contains place do IO.FS.createDirAll (placePath place)
  for (place, bytes) in after.files do
    unless before.find? place == some (.file bytes) do
      IO.FS.writeBinFile (placePath place) ⟨bytes.toArray⟩
  for (place, _) in before.files do
    if (after.find? place).isNone then IO.FS.removeFile (placePath place)
  for place in before.directories.mergeSort fun a b => b.length ≤ a.length do
    if (after.find? place).isNone then IO.FS.removeDir (placePath place)

def commandNames : List Text := Request.mainForms.map (·.name) ++
  Request.groups.flatMap fun (group, forms) => forms.map fun form => group ++ ' ' :: form.name

def usage : String :=
  "Usage: dg [--verbose] COMMAND [OPTIONS]\n\nCommands:\n" ++
    String.join (commandNames.map fun name => "  " ++ String.ofList name ++ "\n")

def line (t : Text) : String := String.ofList t ++ "\n"

end ModuleGraph.Main

open ModuleGraph.Main in
def main (args : List String) : IO UInt32 := do
  let request := Request.ofArguments (args.map String.toList)
  if request matches .help | .wrongUsage then IO.print usage
  let session ← readSession
  let (outcome, after) := request.perform.perform session
  writeChanges session.tree after.tree
  for notice in after.notices do
    if request.level.weight ≤ notice.level.weight then
      IO.eprint (line (notice.level.name ++ ' ' :: notice.message))
  match outcome with
  | .ok o =>
    for row in o.rows do IO.print (line (Screen.plainRow row))
    for row in o.errors do IO.eprint (line (Screen.plainRow row))
    IO.print (String.ofList o.printed)
  | .error fault => IO.eprint (line ((fault.message).getD "unexpected value"))
  return UInt32.ofNat (Outcome.exitCode outcome)
