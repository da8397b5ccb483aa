import ModuleGraph.Path
import ModuleGraph.Specifier

/-! The aliased form of a relative specifier: the mark, then the way from the source root to the
place that the specifier means. Only places strictly below the root have one. -/

namespace ModuleGraph

/-- A source root with the mark that stands for it. Specifiers that stay in the directory of
their file are left alone when `skipSame` is set. -/
structure Aliasing where
  root : Text
  mark : Text
  skipSame : Bool
  deriving Repr, DecidableEq

namespace Aliasing

/-- Does the specifier stay in the directory of its file? -/
def staysHere (s : Text) : Bool := s == ['.'] || s.startsWith ['.', '/']

/-- The place that a relative specifier in `file` means. -/
def target (cwd file s : Text) : Text :=
  Path.normalize (Path.join (Path.directory (Path.absolute cwd file)) s)

/-- The aliased form of a relative specifier, if it is to be respelled. -/
def aliased (a : Aliasing) (cwd file s : Text) : Option Text :=
  if !Specifier.isRelative s || (a.skipSame && staysHere s) then none
  else
    let way := Path.relative cwd (target cwd file s) a.root
    if way == Path.here || Path.leavesStart way then none else some (a.mark ++ way)

end Aliasing
end ModuleGraph
