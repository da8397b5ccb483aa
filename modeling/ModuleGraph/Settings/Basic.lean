import ModuleGraph.Fault
import ModuleGraph.Files.Scan
import ModuleGraph.Resolver
import ModuleGraph.Source.Load
import ModuleGraph.Value.Shown

/-! The settings of a run. A setting that nothing checks before it is used is held as a plain
value; the functions that use such a setting say which faults a wrong value leads to. -/

namespace ModuleGraph

/-- The settings of a run, each with its default. -/
structure Settings where
  projectRoot : Text := ['.']
  sourceDirectory : Value := .text "src"
  suffixes : List Text := Resolver.defaultSuffixes
  resolveSuffixes : List Text := Resolver.defaultSuffixes
  exclude : List Text := ScanRules.defaultExclude
  aliases : Entries Text := []
  mark : Value := .text "@/"
  skipSame : Value := .bool true
  maxFileBytes : Value := .int 1048576
  readTimeout : Value := .float (.ofInt 10)
  maxWorkers : Value := .int 8
  top : Value := .int 10
  deepThreshold : Value := .int 3
  deriving Repr

namespace Settings

def listValue (ts : List Text) : Value := .array (ts.map .text)

def aliasesValue (aliases : Entries Text) : Value :=
  .table (aliases.map fun (mark, directory) => (mark, .text directory))

/-- The settings by their written names. -/
def toEntries (s : Settings) : Entries Value := [
  ("project_root", .text s.projectRoot),
  ("src_dir", s.sourceDirectory),
  ("extensions", listValue s.suffixes),
  ("resolve_extensions", listValue s.resolveSuffixes),
  ("exclude_dirs", listValue s.exclude),
  ("aliases", aliasesValue s.aliases),
  ("alias_prefix", s.mark),
  ("skip_same_directory", s.skipSame),
  ("max_file_bytes", s.maxFileBytes),
  ("read_timeout", s.readTimeout),
  ("max_workers", s.maxWorkers),
  ("top_n", s.top),
  ("deep_relative_threshold", s.deepThreshold)]

/-- The written names of all settings. -/
def names : List Text := Entries.keys ({} : Settings).toEntries

/-- The items of a value that stands for a list of texts. -/
def textItems : Value → Except Fault (List Text)
  | .array items => items.mapM fun
    | .text t => .ok t
    | _ => .error .wrongType
  | .table entries => .ok (Entries.keys entries)
  | .text t => .ok (t.map ([·]))
  | _ => .error .wrongType

/-- The directories of a table of aliases. -/
def aliasItems (v : Value) : Except Fault (Entries Text) :=
  match v with
  | .table entries => entries.mapM fun (mark, target) =>
    match target with
    | .text t => .ok (mark, t)
    | _ => .error .wrongType
  | v => if v.isTruthy then .error .noSuchOperation else .ok []

/-- The settings with one of them replaced; `none` if there is none of that name. -/
def replaced? (s : Settings) (name : Text) (v : Value) : Option (Except Fault Settings) :=
  if name = "project_root" then some (match v with
    | .text t => .ok { s with projectRoot := t }
    | _ => .error .wrongType)
  else if name = "src_dir" then some (.ok { s with sourceDirectory := v })
  else if name = "extensions" then some ((textItems v).map ({ s with suffixes := · }))
  else if name = "resolve_extensions" then
    some ((textItems v).map ({ s with resolveSuffixes := · }))
  else if name = "exclude_dirs" then some ((textItems v).map ({ s with exclude := · }))
  else if name = "aliases" then some ((aliasItems v).map ({ s with aliases := · }))
  else if name = "alias_prefix" then some (.ok { s with mark := v })
  else if name = "skip_same_directory" then some (.ok { s with skipSame := v })
  else if name = "max_file_bytes" then some (.ok { s with maxFileBytes := v })
  else if name = "read_timeout" then some (.ok { s with readTimeout := v })
  else if name = "max_workers" then some (.ok { s with maxWorkers := v })
  else if name = "top_n" then some (.ok { s with top := v })
  else if name = "deep_relative_threshold" then some (.ok { s with deepThreshold := v })
  else none

/-- The settings with one of them replaced; there has to be one of that name. -/
def replace (s : Settings) (name : Text) (v : Value) : Except Fault Settings :=
  (s.replaced? name v).getD (.error .wrongType)

/-- The settings with those replaced for which a value is given. -/
def override (s : Settings) (overrides : Entries Value) : Except Fault Settings :=
  overrides.foldlM (fun s (name, v) =>
    match v with
    | .null => .ok s
    | v => s.replace name v) s

/-- A directory of the project as an absolute path. -/
def absolute (s : Settings) (cwd : Text) : Value → Except Fault Text
  | .text p =>
    .ok (if Path.isAbsolute p then Path.normalize p
      else Path.normalize (Path.join (Path.absolute cwd s.projectRoot) p))
  | _ => .error .wrongType

/-- The directory that holds the sources. -/
def sourceRoot (s : Settings) (cwd : Text) : Except Fault Text := s.absolute cwd s.sourceDirectory

/-- Can a value stand as a key? -/
def isKey : Value → Bool
  | .array _ | .table _ => false
  | _ => true

/-- The marks with the directories they stand for. Without configured aliases the mark stands for
the source directory. -/
def aliasRoots (s : Settings) (cwd : Text) : Except Fault (List (Value × Text)) :=
  if s.aliases.isEmpty then
    if isKey s.mark then (s.sourceRoot cwd).map fun root => [(s.mark, root)]
    else .error .wrongType
  else s.aliases.mapM fun (mark, target) =>
    (s.absolute cwd (.text target)).map fun root => (.text mark, root)

/-- The aliases by their marks, each of which has to be a text. -/
def aliasEntries (s : Settings) (cwd : Text) : Except Fault (Entries Text) := do
  (← s.aliasRoots cwd).mapM fun
    | (.text mark, root) => .ok (mark, root)
    | _ => .error .wrongType

/-- The resolver for these settings. -/
def resolver (s : Settings) (cwd : Text) : Except Fault Resolver := do
  .ok (Resolver.ofEntries cwd (← s.aliasEntries cwd) s.resolveSuffixes)

/-- What a scan for sources leaves out and takes. -/
def scanRules (s : Settings) : ScanRules := ⟨s.exclude, s.suffixes⟩

/-- A setting that has to be a number. -/
def whole (v : Value) : Except Fault Int :=
  match v.whole? with
  | some n => .ok n
  | none => .error .wrongType

/-- The largest size of a source. -/
def limit (s : Settings) : Except Fault Limit := do
  .ok ⟨← whole s.maxFileBytes, s.maxFileBytes.shown⟩

/-- A setting as it is listed; a list has to be one of texts. -/
def listed : Value → Except Fault Text
  | .array items => do
    let texts ← items.mapM fun
      | .text t => .ok t
      | _ => .error .wrongType
    .ok (Text.join ", " texts)
  | v => .ok v.shown

/-- The directories of the aliases in one line. -/
def listedRoots (roots : List (Value × Text)) : Text :=
  Text.join ", " (roots.map fun (mark, root) => mark.shown ++ " -> " ++ root)

/-- The settings as rows of a list, then the directories of the aliases. -/
def describe (s : Settings) (cwd : Text) : Except Fault (List (Text × Text)) := do
  let rows ← s.toEntries.mapM fun (name, v) => do .ok (name, ← listed v)
  .ok (rows ++ [(("alias roots" : Text), listedRoots (← s.aliasRoots cwd))])

end Settings
end ModuleGraph
