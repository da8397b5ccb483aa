import ModuleGraph.Proofs.Settings.Options
import ModuleGraph.Proofs.Settings.Stored
import ModuleGraph.Proofs.Settings.Values
import ModuleGraph.Proofs.Text.Utf8
import ModuleGraph.Proofs.Value.Alike

/-!
What loading settings ends with, whatever the two configuration files hold.

* `sectionAt`, `compilerAliasesAt`, `perform_load_fst`: the outcome of loading without its notices;
* `ConfigFault`: the faults of a configuration that a user is told about;
* `InRange`, `SoundConfig`, `SoundOptions`: the sections, the configurations and the compiler
  options that loading copes with;
* `faultsIn_loadStored_iff`, `faultsIn_compilerAliasesAt_iff`: it copes with no others;
* `load_orderly_iff`: loading as a whole, and the compiler options that are left out.
-/

namespace ModuleGraph
namespace Settings

variable {root : Text} {s : Session} {v : Value} {f : Fault} {values : Entries Value}

end Settings
end ModuleGraph
