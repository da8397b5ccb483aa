import ModuleGraph.Settings.Basic

/-! Settings from the values of a configuration. Lists, counts, the timeout and the aliases are
checked and brought into shape; unknown names are left out with a notice. -/

namespace ModuleGraph
namespace Settings

def listNames : List Text := ["extensions", "resolve_extensions", "exclude_dirs"]

def countNames : List Text := ["max_file_bytes", "max_workers", "top_n", "deep_relative_threshold"]

/-- A number of seconds: any number that is not zero or less. -/
def checkTimeout (v : Value) : Except Fault Value :=
  match v with
  | .float x =>
    if x.isPositive || x = .nan then .ok (.float x) else .error .timeoutNotPositive
  | v =>
    match v.whole? with
    | some n =>
      if n ≤ 0 then .error .timeoutNotPositive
      else if Binary64.ofInt n = .infinite false then .error .tooLarge
      else .ok (.float (.ofInt n))
    | none => .error .timeoutNotPositive

/-- The value of a setting, brought into shape. -/
def check (name : Text) (v : Value) : Except Fault Value :=
  if name ∈ listNames then
    match v with
    | .array items => .ok (listValue (items.map Value.shown))
    | _ => .error (.settingNotList name)
  else if name ∈ countNames then
    match v.whole? with
    | some n => if 1 ≤ n then .ok v else .error (.settingNotCount name)
    | none => .error (.settingNotCount name)
  else if name = "read_timeout" then checkTimeout v
  else if name = "aliases" then
    match v with
    | .table entries => .ok (aliasesValue (entries.map fun (mark, target) => (mark, target.shown)))
    | _ => .error .aliasesNotTable
  else .ok v

/-- The values that settings are made from. The project root is not configured. -/
def configurable (values : Entries Value) : Entries Value :=
  values.filter fun (name, _) => name ∈ names ∧ name ≠ "project_root"

/-- The names that mean nothing, in order. -/
def unknownNames (values : Entries Value) : List Text :=
  Text.sorted ((Entries.keys values).filter (· ∉ names))

/-- The notice of the names that mean nothing. -/
def checkNotices (values : Entries Value) : List Notice :=
  match unknownNames values with
  | [] => []
  | unknown => [.unknownKeys unknown]

/-- The settings that values stand for. -/
def ofValues (values : Entries Value) (projectRoot : Text) : Except Fault Settings :=
  (configurable values).foldlM (fun s (name, v) => do s.replace name (← check name v))
    { projectRoot }

end Settings
end ModuleGraph
