import ModuleGraph.Files.Tree
import ModuleGraph.Path

/-! Following a path through a tree. Links are followed on the way, at most forty of them, and at
the end if that is asked for. The last step may lead to a place where nothing stands yet. -/

namespace ModuleGraph

/-- Why a file operation fails. -/
inductive FileError
  | notFound
  | notDirectory
  | isDirectory
  | exists
  | tooManyLinks
  | sameFile
  | isLink
  | encoding
  deriving Repr, DecidableEq

def FileError.reason : FileError → Text
  | .notFound => "No such file or directory"
  | .notDirectory => "Not a directory"
  | .isDirectory => "Is a directory"
  | .exists => "File exists"
  | .tooManyLinks => "Too many levels of symbolic links"
  | .sameFile => "Both are the same file"
  | .isLink => "Cannot call rmtree on a symbolic link"
  | .encoding => "Not encodable"

namespace Tree

/-- The place that some steps lead to from the directory `here`. `links` is the number of links
that may still be followed. -/
def walk (t : Tree) (followLast : Bool) (links : Nat) (here : Place) (steps : List Text) :
    Except FileError Place :=
  match steps with
  | [] => .ok here
  | step :: rest =>
    if step = [] ∨ step = Path.here then walk t followLast links here rest
    else if step = Path.up then walk t followLast links here.dropLast rest
    else
      let place := here ++ [step]
      match t.find? place with
      | none => if rest = [] then .ok place else .error .notFound
      | some (.file _) => if rest = [] then .ok place else .error .notDirectory
      | some .directory => walk t followLast links place rest
      | some (.link target) =>
        if rest = [] ∧ !followLast then .ok place
        else match links with
          | 0 => .error .tooManyLinks
          | links + 1 =>
            let start := if Path.isAbsolute target then [] else here
            walk t followLast links start (target.splitOn Path.slash ++ rest)
termination_by (links, steps.length)

/-- The number of links that may be followed on one path. -/
def maxLinks : Nat := 40

/-- The place of a path seen from `cwd`, a link at its end followed or not. -/
def locate (t : Tree) (followLast : Bool) (cwd path : Text) : Except FileError Place :=
  if path = [] then .error .notFound
  else t.walk followLast maxLinks [] ((Path.join cwd path).splitOn Path.slash)

/-- What a path leads to, links followed. -/
def stat (t : Tree) (cwd path : Text) : Except FileError Entry :=
  match t.locate true cwd path with
  | .error e => .error e
  | .ok place =>
    match t.find? place with
    | some e => .ok e
    | none => .error .notFound

/-- Does the path lead to a file? -/
def isFile (t : Tree) (cwd path : Text) : Bool :=
  match t.stat cwd path with
  | .ok (.file _) => true
  | _ => false

/-- Does the path lead to a directory? -/
def isDirectory (t : Tree) (cwd path : Text) : Bool :=
  match t.stat cwd path with
  | .ok .directory => true
  | _ => false

/-- Does the path lead anywhere? -/
def present (t : Tree) (cwd path : Text) : Bool :=
  match t.stat cwd path with
  | .ok _ => true
  | .error _ => false

/-- Is the end of the path a link? -/
def isLink (t : Tree) (cwd path : Text) : Bool :=
  match t.locate false cwd path with
  | .ok place =>
    match t.find? place with
    | some (.link _) => true
    | _ => false
  | .error _ => false

/-- The contents of the file that a path leads to. -/
def read (t : Tree) (cwd path : Text) : Except FileError Bytes :=
  match t.stat cwd path with
  | .ok (.file bytes) => .ok bytes
  | .ok .directory => .error .isDirectory
  | .ok (.link _) => .error .tooManyLinks
  | .error e => .error e

end Tree
end ModuleGraph
