import ModuleGraph.Fault
import ModuleGraph.Value.JsonReader
import ModuleGraph.Value.JsonWriter

/-! The record that a backup keeps of itself: a JSON document with the files that were copied. -/

namespace ModuleGraph

/-- What is known of a backup. The files are named from the project's directory. -/
structure BackupRecord where
  id : Text
  timestamp : Text
  version : Text
  description : Text
  files : List Text
  commit : Value
  deriving Repr

namespace BackupRecord

def toEntries (r : BackupRecord) : Entries Value := [
  ("backup_id", .text r.id),
  ("timestamp", .text r.timestamp),
  ("version", .text r.version),
  ("description", .text r.description),
  ("files", .array (r.files.map .text)),
  ("git_commit", r.commit)]

/-- The names that a value gives when gone through. -/
def filesOf : Value → Except Fault (List Text)
  | .array items => .ok (items.map Value.shown)
  | .table entries => .ok (Entries.keys entries)
  | .text t => .ok (t.map ([·]))
  | _ => .error .wrongType

/-- An entry that may be missing. -/
def entryOr (key : Text) (default : Value) (entries : Entries Value) : Value :=
  (Entries.get? key entries).getD default

/-- An entry that has to be there, as it is shown. -/
def required (key : Text) (entries : Entries Value) : Except Fault Text :=
  match Entries.get? key entries with
  | some v => .ok v.shown
  | none => .error .missingKey

/-- The record that entries stand for; every text is taken as it is shown. -/
def ofEntries (entries : Entries Value) : Except Fault BackupRecord := do
  let id ← required "backup_id" entries
  let timestamp ← required "timestamp" entries
  let files ← filesOf (entryOr "files" (.array []) entries)
  .ok {
    id
    timestamp
    version := (entryOr "version" (.text []) entries).shown
    description := (entryOr "description" (.text []) entries).shown
    files
    commit := entryOr "git_commit" .null entries }

/-- The written form of a record. -/
def write (r : BackupRecord) : Text := Json.indentedAscii (.table r.toEntries)

/-- The record that bytes stand for, or why they stand for none. -/
def read (bytes : Bytes) : Except Fault BackupRecord :=
  match Utf8.decode? bytes with
  | none => .error .notUtf8
  | some t =>
    match Json.read t with
    | some (.table entries) => ofEntries entries
    | _ => .error .wrongType

end BackupRecord
end ModuleGraph
