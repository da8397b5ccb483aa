import ModuleGraph.Files.Change
import ModuleGraph.Report.Statistics
import ModuleGraph.Screen
import ModuleGraph.Session
import ModuleGraph.Value.JsonWriter

/-! Report documents: the moment, a summary and the details, written as JSON. A document is written
to a temporary file first and takes the place of an older one in a single step, so that no half of
it is ever left behind. -/

namespace ModuleGraph

/-- A report as it is written. -/
structure Document where
  timestamp : Text
  summary : Entries Value
  details : List Value
  deriving Repr

namespace Document

/-- The status of a report with or without findings. -/
def status (findings : Bool) : Text := if findings then "issues_found" else "clean"

def value (d : Document) : Value :=
  .table [("timestamp", .text d.timestamp), ("summary", .table d.summary),
    ("details", .array d.details)]

/-- A document with the moment that the clock shows. -/
def stamped (summary : Entries Value) (details : List Value) : Run Document := do
  return ⟨(← Run.now).iso, summary, details⟩

/-- The directory with some names after `lead` made, and the missing directories above it. The names
come last first. -/
def makeParents (cwd lead : Text) (existOk : Bool) : List Text → Run Unit
  | [] => Run.change fun t => t.makeOne cwd (Path.write lead []) existOk
  | name :: above =>
    let make := Run.change fun t =>
      t.makeOne cwd (Path.write lead (name :: above).reverse) existOk
    tryCatch make fun
      | .file .notFound => do
        makeParents cwd lead true above
        make
      | fault => throw fault

/-- The name of a temporary file for a path. -/
def temporaryName (path candidate : Text) : Text := '.' :: Path.lastName path ++ '.' :: candidate

/-- Where a temporary file for a path is put: beside it, as its path is written. -/
def temporaryPath (cwd path candidate : Text) : Text :=
  Path.join (Path.absolute cwd (Path.parent path)) (temporaryName path candidate)

/-- A new temporary file, under the first of the candidate names that is free. -/
def makeTemporary (cwd path : Text) : List Text → Run Text
  | [] => throw (.file .exists)
  | candidate :: rest => do
    let temporary := temporaryPath cwd path candidate
    match (← get).tree.createFile cwd temporary with
    | .ok t =>
      Run.setTree t
      return temporary
    | .error .exists => makeTemporary cwd path rest
    | .error e => throw (.file e)

/-- The bytes of a text up to where it breaks off or has no encoding, and the fault there. -/
def encodeChunks : List Json.Chunk → Bytes × Option Fault
  | [] => ([], none)
  | .error fault :: _ => ([], some fault)
  | .ok text :: rest =>
    if Utf8.isClean text then
      let (bytes, fault) := encodeChunks rest
      (Utf8.encodeKeeping text ++ bytes, fault)
    else ([], some .notEncodable)

/-- A text written to a file, as far as it goes. -/
def writeChunks (cwd path : Text) (chunks : List Json.Chunk) : Run Unit := do
  let (bytes, fault) := encodeChunks chunks
  Run.change fun t => t.append cwd path bytes
  match fault with
  | none => return
  | some fault => throw fault

/-- A file removed, if it is there. -/
def discard (cwd path : Text) : Run Unit := do
  if (← get).tree.present cwd path then
    Run.change fun t => t.unlink cwd path

/-- A text written to a temporary file, which then takes the place of what stands at the path. If
any of this fails the temporary file is removed. -/
def writeBeside (draw : Tree → List Text) (cwd path : Text) (chunks : List Json.Chunk) :
    Run Unit := do
  let temporary ← makeTemporary cwd path (draw (← get).tree)
  tryCatch
    (do
      writeChunks cwd temporary chunks
      Run.change fun t => t.moveFile cwd temporary path)
    fun fault => do
      discard cwd temporary
      throw fault

/-- What the file system refuses is told with the path of the document. -/
def refusal (path : Text) : Fault → Fault
  | .file e => .reportNotWritten path e
  | fault => fault

/-- A text written to a file, the directories above it made first. `draw` gives the names that are
tried for the temporary file. -/
def store (draw : Tree → List Text) (path : Text) (chunks : List Json.Chunk) : Run Unit := do
  let cwd := (← get).cwd
  let above := Path.parent path
  tryCatch
    (do
      makeParents cwd (Path.root above) true (Path.names above).reverse
      writeBeside draw cwd path chunks)
    fun fault => throw (refusal path fault)

/-- Numbers, more of them than there are entries. -/
def numbers (t : Tree) : List Text := (List.range (t.entries.length + 1)).map Text.ofNat

/-- A value written to a file as JSON. -/
def write (path : Text) (v : Value) : Run Unit := store numbers path (Json.indentedChunks v)

/-- The tree after a value was written to a file. -/
def writeValue (t : Tree) (cwd path : Text) (v : Value) : Except Fault Tree :=
  let (outcome, after) := (write path v).perform { tree := t, cwd }
  outcome.map fun _ => after.tree

def texts (ts : List Text) : Value := .array (ts.map .text)

/-- A file and line as it is shown. -/
def location (file : Text) (line : Int) : Text := file ++ ':' :: Text.ofInt line

/-- A number with one decimal and the sign of per cent. -/
def percent (x : Binary64) : Text := x.fixed1 ++ ['%']

end Document

namespace Statistics

/-- The numbers of all sources by their written names. -/
def summaryEntries (s : ImportSummary) : Entries Value :=
  let total := s.counts.total
  [("total_files", .ofNat s.files),
    ("total_imports", .ofNat total),
    ("total_exports", .ofNat s.exports),
    ("relative_imports", .ofNat s.counts.relative),
    ("aliased_imports", .ofNat s.counts.aliased),
    ("external_imports", .ofNat s.counts.external),
    ("relative_percentage", .float (percentage s.counts.relative total)),
    ("aliased_percentage", .float (percentage s.counts.aliased total)),
    ("external_percentage", .float (percentage s.counts.external total)),
    ("by_kind", .table (s.kinds.map fun (k, n) => (k.name, .ofNat n)))]

def fileEntries (f : FileStatistics) : Entries Value := [
  ("file", .text f.file),
  ("total_imports", .ofNat f.imports),
  ("relative_imports", .ofNat f.counts.relative),
  ("aliased_imports", .ofNat f.counts.aliased),
  ("external_imports", .ofNat f.counts.external),
  ("exports", .ofNat f.exports)]

def directoryValue (d : DirectoryStatistics) : Value := .table [
  ("directory", .text d.directory),
  ("files", .ofNat d.files),
  ("imports", .ofNat d.imports),
  ("relative_percentage", .float (percentage d.relative d.imports)),
  ("aliased_percentage", .float (percentage d.aliased d.imports))]

def topFileValue (f : Text × Nat) : Value :=
  .table [("file", .text f.1), ("imports", .ofNat f.2)]

def packageValue (p : Text × Int) : Value := .table [("package", .text p.1), ("imports", .int p.2)]

def deepValue (d : DeepImport) : Value := .table [
  ("file", .text d.file), ("import", .text d.specifier), ("line", .int d.line),
  ("depth", .ofNat d.depth)]

def mixedValue (m : MixedFile) : Value := .table [
  ("file", .text m.file), ("relative_imports", .ofNat m.relative),
  ("aliased_imports", .ofNat m.aliased)]

/-- The conspicuous imports and files. -/
def patternsValue (deep : List DeepImport) (mixed : List MixedFile) : Value := .table [
  ("deep_relative_paths", .array (deep.map deepValue)),
  ("inconsistent_patterns", .array (mixed.map mixedValue))]

end Statistics
end ModuleGraph
