import ModuleGraph.Files.Change
import ModuleGraph.Session
import ModuleGraph.Settings.Check
import ModuleGraph.Value.TomlReader
import ModuleGraph.Value.TomlWriter

/-! Settings in files. The settings of a project stand in a section of its configuration file, or
else of the user's. Where no aliases are configured they are taken from the compiler options of
the project. -/

namespace ModuleGraph
namespace Settings

/-- The section that holds the settings. -/
def sectionName : Text := "depgraph"

def projectFile : Text := "depgraph.toml"

def userDirectory (home : Text) : Text := Path.child home ".depgraph"

def userFile (home : Text) : Text := Path.child (userDirectory home) "config.toml"

/-- The configuration file of the project at `root`, or else the user's, if there is one. -/
def storedAt (t : Tree) (cwd home root : Text) : Option Text :=
  [Path.child root projectFile, userFile home].find? (t.isFile cwd)

/-- Everything in a configuration file. -/
def readFile (t : Tree) (cwd path : Text) : Except Fault (Entries Value) :=
  match t.read cwd path with
  | .error e => .error (.configUnreadable path e.reason)
  | .ok bytes =>
    match Utf8.decode? bytes with
    | none => .error .notUtf8
    | some text =>
      match Toml.read text with
      | none => .error (.configUnreadable path "not a configuration")
      | some entries => .ok entries

/-- The names that a section has that is no table, where they can be told. -/
def strayNames : Value → Option (List Text)
  | .text t => some (t.map ([·]))
  | .array items => items.mapM fun
    | .text t => some t
    | _ => none
  | _ => none

/-- The notice about a section that is no table. -/
def strayNotices (v : Value) : List Notice :=
  match strayNames v with
  | some names => checkNotices (Entries.ofList (names.map (·, Value.null)))
  | none => []

/-- The fault of a section that is no table. -/
def strayFault (v : Value) : Fault :=
  if (strayNames v).isSome then .noSuchOperation else .wrongType

/-- The settings of a section. -/
def ofSection (v : Value) (root : Text) : Run Settings := do
  match v with
  | .table values =>
    Run.note (checkNotices values)
    Run.of (ofValues values root)
  | v =>
    Run.note (strayNotices v)
    throw (strayFault v)

/-- The settings that are stored for the project at `root`. -/
def loadStored (root : Text) : Run Settings := do
  let session ← get
  match storedAt session.tree session.cwd session.home root with
  | none => ofSection (.table []) root
  | some path =>
    Run.note [.configLoaded path]
    let entries ← Run.of (readFile session.tree session.cwd path)
    ofSection ((Entries.get? sectionName entries).getD (.table [])) root

def compilerFile : Text := "tsconfig.json"

/-- The end of a pattern that stands for everything in a directory. -/
def wildcard : Text := "/*"

/-- An entry of a value that is a table; everything that counts as false is an empty table. -/
def optionalTable : Value → Except Fault (Entries Value)
  | .table entries => .ok entries
  | v => if v.isTruthy then .error .noSuchOperation else .ok []

/-- The first of the targets of a pattern. -/
def firstTarget : Value → Except Fault Text
  | .array (.text t :: _) => .ok t
  | .array (_ :: _) => .error .noSuchOperation
  | .text (c :: _) => .ok [c]
  | .table _ => .error .missingKey
  | _ => .error .wrongType

/-- The directory that a target stands for, seen from the base directory. -/
def targetDirectory (base : Value) (target : Text) : Except Fault Text :=
  match base with
  | .text base => .ok (Path.normalize (Path.join base (target.take (target.length - 2))))
  | _ => .error .wrongType

/-- The aliases with the one that a pattern stands for, if it stands for one. -/
def addPattern (base : Value) (aliases : Entries Text) (p : Text × Value) :
    Except Fault (Entries Text) :=
  if !p.1.endsWith wildcard || !p.2.isTruthy then .ok aliases
  else do
    let target ← firstTarget p.2
    if !target.endsWith wildcard then .ok aliases
    else .ok (Entries.put p.1.dropLast (← targetDirectory base target) aliases)

/-- The aliases in compiler options. -/
def compilerAliases (v : Value) : Except Fault (Entries Text) :=
  match v with
  | .table entries => do
    let options ← optionalTable ((Entries.get? "compilerOptions" entries).getD (.table []))
    let base := (Entries.get? "baseUrl" options).getD (.text Path.here)
    let paths ← optionalTable ((Entries.get? "paths" options).getD .null)
    paths.foldlM (addPattern base) []
  | _ => .error .noSuchOperation

/-- The aliases in the compiler options of the project at `root`; none if there are no options
that can be read. -/
def loadCompilerAliases (root : Text) : Run (Entries Text) := do
  let session ← get
  let path := Path.child root compilerFile
  if !session.tree.isFile session.cwd path then return []
  match session.tree.read session.cwd path with
  | .error e =>
    Run.note [.pathAliasesUnreadable path e.reason]
    return []
  | .ok bytes =>
    match Utf8.decode? bytes with
    | none => throw .notUtf8
    | some text =>
      match Json.read text with
      | none =>
        Run.note [.pathAliasesUnreadable path "not a JSON text"]
        return []
      | some v => Run.of (compilerAliases v)

/-- The settings of the project at `root`. -/
def load (root : Text) : Run Settings := do
  let s ← loadStored root
  if s.aliases.isEmpty then
    let aliases ← loadCompilerAliases root
    return { s with aliases }
  else return s

/-- The settings as they are stored: without the project root, and without aliases if there are
none. -/
def stored (s : Settings) : Entries Value :=
  let entries := Entries.erase "project_root" s.toEntries
  if s.aliases.isEmpty then Entries.erase "aliases" entries else entries

/-- The settings written to a file, in which everything else stays. The file is emptied first; it
stays empty if something cannot be written. -/
def save (s : Settings) (path : Text) : Run Unit := do
  let session ← get
  let t := session.tree
  let entries ← if t.isFile session.cwd path then Run.of (readFile t session.cwd path) else pure []
  let text := Toml.write? (Entries.put sectionName (.table s.stored) entries)
  match t.makeDirectories session.cwd (Path.parent path) true with
  | .error e => throw (.file e)
  | .ok t =>
    Run.setTree t
    match t.write session.cwd path (Utf8.encode (text.getD [])) with
    | .error e => throw (.file e)
    | .ok t => Run.setTree t
  if text.isNone then throw .pastEnd

end Settings
end ModuleGraph
