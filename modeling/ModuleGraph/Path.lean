import ModuleGraph.Text.Basic

/-! Paths as texts: joining, normal forms, directories, suffixes, the way from one directory to
another, and the form in which a path is displayed below a root.

A path is read as a list of steps between slashes. `normalize` carries out the steps `.` and `..`
without looking at any file; two leading slashes are kept, three or more count as one. -/

namespace ModuleGraph
namespace Path

def slash : Char := '/'

/-- The step that stays where it is. -/
def here : Text := ['.']

/-- The step to the directory above. -/
def up : Text := ['.', '.']

def isAbsolute (p : Text) : Bool := p.head? == some slash

/-- `b` seen from the directory `a`. -/
def join (a b : Text) : Text :=
  if isAbsolute b then b
  else if a.isEmpty || a.getLast? == some slash then a ++ b
  else a ++ slash :: b

/-- The slashes that a normal form keeps in front. -/
def root (p : Text) : Text :=
  match p with
  | '/' :: '/' :: '/' :: _ => ['/']
  | '/' :: '/' :: _ => ['/', '/']
  | '/' :: _ => ['/']
  | _ => []

/-- The names of a path, empty ones and `.` left out. -/
def names (p : Text) : List Text :=
  (p.splitOn slash).filter fun s => s != [] && s != here

/-- One more name after the names `stack`, the last of which comes first. The step upwards takes
the last name away; where there is none it is kept in a relative path and dropped in an absolute
one. -/
def pushName (absolute : Bool) (stack : List Text) (name : Text) : List Text :=
  if name = up then
    match stack with
    | [] => if absolute then [] else [up]
    | last :: rest => if last = up then up :: stack else rest
  else name :: stack

/-- The names left when all steps are carried out. -/
def resolved (p : Text) : List Text :=
  ((names p).foldl (pushName (isAbsolute p)) []).reverse

/-- Names after a root; the empty path is written as a dot. -/
def write (lead : Text) (ns : List Text) : Text :=
  let p := lead ++ Text.join [slash] ns
  if p.isEmpty then here else p

/-- The path with every step carried out. -/
def normalize (p : Text) : Text := write (root p) (resolved p)

/-- The path without empty steps and steps that stay; steps upwards are left alone. -/
def tidy (p : Text) : Text := write (root p) (names p)

/-- The normal form of a path seen from the directory `cwd`. -/
def absolute (cwd p : Text) : Text :=
  normalize (if isAbsolute p then p else join cwd p)

/-- Without slashes at the end. -/
def trimSlashes (p : Text) : Text := (p.reverse.dropWhile (· == slash)).reverse

/-- The path up to its last slash. -/
def directory (p : Text) : Text :=
  let head := (p.cutAfterLast slash).1
  if head.all (· == slash) then head else trimSlashes head

/-- The path after its last slash. -/
def name (p : Text) : Text := (p.cutAfterLast slash).2

/-- The path one step up, for a tidy path. -/
def parent (p : Text) : Text := write (root p) (names p).dropLast

/-- The last name of a tidy path. -/
def lastName (p : Text) : Text := (names p).getLast?.getD []

/-- `name` in the directory `p`, tidied. -/
def child (p name : Text) : Text := tidy (join p name)

/-- The last dot of a file name and what follows it; dots at the beginning do not count. -/
def suffix (name : Text) : Text :=
  let (head, tail) := name.cutAfterLast '.'
  if head.dropLast.all (· == '.') then [] else '.' :: tail

/-- What is left of two lists after their common beginning. -/
def afterCommon : List Text → List Text → List Text × List Text
  | a :: as, b :: bs => if a = b then afterCommon as bs else (a :: as, b :: bs)
  | as, bs => (as, bs)

/-- The names of an absolute path. -/
def absoluteNames (cwd p : Text) : List Text :=
  ((absolute cwd p).splitOn slash).filter (· != [])

/-- The way from the directory `start` to `p`: up to the common part, then down. -/
def relative (cwd p start : Text) : Text :=
  let (rest, target) := afterCommon (absoluteNames cwd start) (absoluteNames cwd p)
  write [] (List.replicate rest.length up ++ target)

/-- Does a way lead out of the directory where it starts? -/
def leavesStart (way : Text) : Bool :=
  way == up || way.startsWith (up ++ [slash]) || isAbsolute way

/-- A path below the root is shown without it. -/
def display (p : Text) (base : Option Text) : Text :=
  match base with
  | none => p
  | some base =>
    let head := trimSlashes (tidy base) ++ [slash]
    if p.startsWith head then p.drop head.length else p

end Path
end ModuleGraph
