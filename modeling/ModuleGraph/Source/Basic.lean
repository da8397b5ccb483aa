import ModuleGraph.Specifier

/-! Sources and what is extracted from them: imports and exports with the lines they stand on. -/

namespace ModuleGraph

/-- The statement form that an import has. -/
inductive ImportKind
  | static
  | dynamic
  | require
  deriving Repr, DecidableEq

def ImportKind.all : List ImportKind := [.static, .dynamic, .require]

def ImportKind.name : ImportKind → Text
  | .static => "static"
  | .dynamic => "dynamic"
  | .require => "require"

/-- What an export makes visible: a name of its own, a name of another module, or all names. -/
inductive ExportKind
  | named
  | reexport
  | namespaceAll
  deriving Repr, DecidableEq

def ExportKind.name : ExportKind → Text
  | .named => "named"
  | .reexport => "reexport"
  | .namespaceAll => "namespace_all"

/-- A reference to another module, with the local names that it binds. -/
structure Import where
  specifier : Text
  line : Int
  kind : ImportKind
  category : Category
  file : Option Text := none
  bindings : List Text := []
  resolved : Option Text := none
  deriving Repr, DecidableEq

/-- An exported name, and the specifier it comes from if it is not the module's own. -/
structure Export where
  name : Text
  kind : ExportKind
  line : Int
  source : Option Text := none
  file : Option Text := none
  deriving Repr, DecidableEq

/-- A source file with what was extracted from it. -/
structure Source where
  path : Text
  content : Text
  imports : List Import := []
  exports : List Export := []
  deriving Repr, DecidableEq

end ModuleGraph
