import ModuleGraph.Files.Walk
import ModuleGraph.Notice
import ModuleGraph.Source.Extract

/-! Reading sources. A file larger than a limit is refused, and so is what is not a file; a run
goes on without the refused ones. -/

namespace ModuleGraph

/-- The largest number of bytes that a file may have, and the way the number was written. -/
structure Limit where
  bytes : Int
  shown : Text
  deriving Repr, DecidableEq

namespace Limit

def ofInt (n : Int) : Limit := ⟨n, Text.ofInt n⟩

/-- One mebibyte, unless something else is configured. -/
def default : Limit := ofInt 1048576

end Limit

/-- The number of bytes that a directory counts for. -/
def directorySize : Nat := 4096

/-- The number of bytes that an entry counts for. -/
def Entry.size : Entry → Nat
  | .file bytes => bytes.length
  | _ => directorySize

/-- The text of the file that a path leads to, or the reason why it is refused. The size in bytes is
looked at before anything is read; what is read then is bounded in characters. -/
def Tree.readSource (t : Tree) (cwd path : Text) (limit : Limit) (decode : Bytes → Text) :
    Except Text Text :=
  match t.stat cwd path with
  | .error e => .error e.reason
  | .ok entry =>
    if limit.bytes < entry.size then
      .error ("file is " ++ Text.ofNat entry.size ++ " bytes, limit is " ++ limit.shown)
    else match entry with
      | .file bytes => .ok ((decode bytes).take (limit.bytes + 1).toNat)
      | _ => .error FileError.isDirectory.reason

/-- The sources that were read, the paths that were refused, and what was noticed. -/
structure Loaded where
  sources : List Source
  skipped : List Text
  notices : List Notice
  deriving Repr, DecidableEq

namespace Source

/-- The source that a path leads to. It is known by the normal form of its path. -/
def load (t : Tree) (cwd : Text) (limit : Limit) (marks : List Text) (path : Text) :
    Except Text Source :=
  match t.readSource cwd path limit Utf8.decodeReplacing with
  | .error reason => .error reason
  | .ok content => .ok (extract marks (Path.absolute cwd path) content)

/-- The sources that paths lead to, in the order of the paths. -/
def loadEach (t : Tree) (cwd : Text) (limit : Limit) (marks : List Text) : List Text → Loaded
  | [] => ⟨[], [], []⟩
  | path :: rest =>
    let l := loadEach t cwd limit marks rest
    match load t cwd limit marks path with
    | .ok source => { l with sources := source :: l.sources }
    | .error reason =>
      ⟨l.sources, path :: l.skipped, .sourceSkipped path reason :: l.notices⟩

/-- The sources that paths lead to, with a notice of how many there are if there were paths. -/
def loadAll (t : Tree) (cwd : Text) (limit : Limit) (marks : List Text) (paths : List Text) :
    Loaded :=
  if paths.isEmpty then ⟨[], [], []⟩
  else
    let l := loadEach t cwd limit marks paths
    { l with notices := l.notices ++ [.sourcesLoaded l.sources.length l.skipped.length] }

end Source
end ModuleGraph
