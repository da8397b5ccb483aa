import ModuleGraph.Text.Basic

/-! Specifiers: the texts by which a source names another module. Whether one is relative,
aliased or external is decided from its spelling alone. -/

namespace ModuleGraph

/-- How a specifier is meant: from the file that uses it, from an alias, or as a package. -/
inductive Category
  | relative
  | aliased
  | external
  deriving Repr, DecidableEq

def Category.all : List Category := [.relative, .aliased, .external]

def Category.name : Category → Text
  | .relative => "relative"
  | .aliased => "aliased"
  | .external => "external"

namespace Specifier

/-- A dot or two, alone or before a slash. -/
def isRelative (s : Text) : Bool :=
  s == ['.'] || s == ['.', '.'] || s.startsWith ['.', '/'] || s.startsWith ['.', '.', '/']

/-- The category of a specifier, given the marks with which aliased specifiers begin. -/
def classify (marks : List Text) (s : Text) : Category :=
  if isRelative s then .relative
  else if marks.any s.startsWith then .aliased
  else .external

/-- The package of an external specifier: its first step, or two when it has a scope. -/
def package (s : Text) : Text :=
  match s.splitOn '/' with
  | scope :: name :: _ => if s.head? == some '@' then scope ++ '/' :: name else scope
  | [name] => name
  | [] => []

/-- The number of steps upwards. -/
def depth (s : Text) : Nat := (s.splitOn '/').count ['.', '.']

end Specifier
end ModuleGraph
