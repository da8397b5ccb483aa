import ModuleGraph.Files.Walk

/-! Changing a tree: writing and copying files, making directories, removing files and whole
directories, and moving a new file into place. -/

namespace ModuleGraph
namespace Tree

/-- A file with new contents. Links are followed, and a missing file is made if its directory is
there. -/
def write (t : Tree) (cwd path : Text) (bytes : Bytes) : Except FileError Tree :=
  match t.locate true cwd path with
  | .error e => .error e
  | .ok place =>
    match t.find? place with
    | some .directory => .error .isDirectory
    | _ => .ok (t.set place (.file bytes))

/-- A new directory in a directory that is there. -/
def makeDirectory (t : Tree) (cwd path : Text) : Except FileError Tree :=
  match t.locate false cwd path with
  | .error e => .error e
  | .ok place =>
    match t.find? place with
    | some _ => .error .exists
    | none => .ok (t.set place .directory)

/-- A new directory; one that is there already will do if `existOk`. -/
def makeOne (t : Tree) (cwd path : Text) (existOk : Bool) : Except FileError Tree :=
  match t.makeDirectory cwd path with
  | .error .notFound => .error .notFound
  | .error e => if existOk && t.isDirectory cwd path then .ok t else .error e
  | .ok t => .ok t

/-- A new directory with the missing directories above it. The names of its path come last first,
after `lead`. -/
def makeWithParents (cwd lead : Text) (existOk : Bool) (t : Tree) :
    List Text → Except FileError Tree
  | [] => t.makeOne cwd (Path.write lead []) existOk
  | name :: above =>
    let path := Path.write lead (name :: above).reverse
    match t.makeOne cwd path existOk with
    | .error .notFound =>
      match makeWithParents cwd lead true t above with
      | .error e => .error e
      | .ok t => t.makeOne cwd path existOk
    | outcome => outcome

/-- A directory with the missing directories above it. -/
def makeDirectories (t : Tree) (cwd path : Text) (existOk : Bool) : Except FileError Tree :=
  makeWithParents cwd (Path.root path) existOk t (Path.names path).reverse

/-- Do two paths lead to one entry? -/
def sameEntry (t : Tree) (cwd a b : Text) : Bool :=
  match t.locate true cwd a, t.locate true cwd b with
  | .ok p, .ok q => decide (p = q) && (t.find? p).isSome
  | _, _ => false

/-- The contents of one file written to another. Into a directory a file is copied under its own
name. -/
def copy (t : Tree) (cwd source target : Text) : Except FileError Tree :=
  let target := if t.isDirectory cwd target then Path.join target (Path.name source) else target
  if t.sameEntry cwd source target then .error .sameFile
  else match t.read cwd source with
    | .error e => .error e
    | .ok bytes => t.write cwd target bytes

/-- The tree without a directory and all that is in it. A link to a directory is refused. -/
def removeDirectory (t : Tree) (cwd path : Text) : Except FileError Tree :=
  match t.locate false cwd path with
  | .error e => .error e
  | .ok place =>
    match t.find? place with
    | some .directory => .ok (t.remove place)
    | some (.link _) => .error .isLink
    | some (.file _) => .error .notDirectory
    | none => .error .notFound

/-- A new empty file at a path where nothing stands, not even a link. -/
def createFile (t : Tree) (cwd path : Text) : Except FileError Tree :=
  match t.locate false cwd path with
  | .error e => .error e
  | .ok place =>
    match t.find? place with
    | some _ => .error .exists
    | none => .ok (t.set place (.file []))

/-- More bytes at the end of a file. -/
def append (t : Tree) (cwd path : Text) (bytes : Bytes) : Except FileError Tree :=
  match t.locate false cwd path with
  | .error e => .error e
  | .ok place =>
    match t.find? place with
    | some (.file old) => .ok (t.set place (.file (old ++ bytes)))
    | some .directory => .error .isDirectory
    | some (.link _) => .error .tooManyLinks
    | none => .error .notFound

/-- The tree without a file or a link. -/
def unlink (t : Tree) (cwd path : Text) : Except FileError Tree :=
  match t.locate false cwd path with
  | .error e => .error e
  | .ok place =>
    match t.find? place with
    | some .directory => .error .isDirectory
    | some _ => .ok (t.erase place)
    | none => .error .notFound

/-- A file with these contents put at a path; a link there is replaced and not followed. -/
def replaceFile (t : Tree) (cwd path : Text) (bytes : Bytes) : Except FileError Tree :=
  match t.locate false cwd path with
  | .error e => .error e
  | .ok place =>
    match t.find? place with
    | some .directory => .error .isDirectory
    | _ => .ok (t.set place (.file bytes))

/-- A file moved to a path in one step. A file that is moved to where it stands stays there. -/
def moveFile (t : Tree) (cwd source target : Text) : Except FileError Tree :=
  match t.locate false cwd source with
  | .error e => .error e
  | .ok place =>
    match t.find? place with
    | some (.file bytes) =>
      match t.locate false cwd target with
      | .error e => .error e
      | .ok there =>
        if there = place then .ok t else (t.replaceFile cwd target bytes).map (·.erase place)
    | some .directory => .error .isDirectory
    | some (.link _) => .error .tooManyLinks
    | none => .error .notFound

end Tree
end ModuleGraph
