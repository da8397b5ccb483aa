import ModuleGraph.Fault
import ModuleGraph.Notice

/-! Listing the source files of a directory, depth first and by name. Directories that are
excluded or begin with a dot are left out. A linked directory is left out if what it leads to is
below the root, for it is listed there under its own name; every other directory is listed once,
so that loops of links end. -/

namespace ModuleGraph

/-- What a scan leaves out and what it takes: names of directories, suffixes of files. -/
structure ScanRules where
  exclude : List Text
  suffixes : List Text
  deriving Repr, DecidableEq

namespace ScanRules

/-- Directories that hold no sources of a project. -/
def defaultExclude : List Text := [
  ".backup", ".git", ".next", ".turbo", ".vercel", "__pycache__", "build", "coverage", "dist",
  "node_modules", "out"]

/-- A suffix may be given with or without its dot. -/
def dotted (suffix : Text) : Text := if suffix.head? == some '.' then suffix else '.' :: suffix

/-- Is a directory of this name left out? -/
def excludes (r : ScanRules) (name : Text) : Bool :=
  name.head? == some '.' || r.exclude.contains name

/-- Is a file of this name taken? -/
def takes (r : ScanRules) (name : Text) : Bool :=
  (r.suffixes.map dotted).contains (Path.suffix name)

end ScanRules

/-- The paths that a scan found, and what it noticed. -/
structure Scanned where
  paths : List Text
  notices : List Notice
  deriving Repr, DecidableEq

namespace Scan

/-- The directories of a tree that have not been visited. -/
def unvisited (t : Tree) (visited : List Place) : List Place :=
  t.directories.filter fun p => decide (p ∉ visited)

theorem unvisited_cons (t : Tree) (visited : List Place) (p : Place) :
    unvisited t (p :: visited) = (unvisited t visited).filter fun q => decide (q ≠ p) := by
  simp only [unvisited, List.filter_filter]
  apply List.filter_congr
  intro q _
  simp [List.mem_cons, not_or]

/-- A visit to a new directory leaves fewer to visit. -/
theorem unvisited_lt {t : Tree} {visited : List Place} {p : Place}
    (hp : p ∈ t.directories) (hv : p ∉ visited) :
    (unvisited t (p :: visited)).length < (unvisited t visited).length := by
  rw [unvisited_cons]
  refine List.length_filter_lt_length_iff_exists.mpr ⟨p, ?_, ?_⟩
  · simp [unvisited, hp, hv]
  · simp

/-- A path written from the names of a place. -/
def placeText (p : Place) : Text := Path.write [Path.slash] p

/-- The paths of the entries of a directory, by name. -/
def entriesOf (t : Tree) (path : Text) (place : Place) : List Text :=
  (t.names place).map (Path.join path)

/-- The files among the pending paths and below them. The pending paths are absolute. -/
def scanFrom (t : Tree) (rules : ScanRules) (root : Place) (visited : List Place)
    (pending : List Text) : Scanned :=
  match pending with
  | [] => ⟨[], []⟩
  | path :: rest =>
    match t.stat [] path with
    | .error .notFound => scanFrom t rules root visited rest
    | .error e =>
      let s := scanFrom t rules root visited rest
      ⟨s.paths, .entryUnreadable path e :: s.notices⟩
    | .ok .directory =>
      if rules.excludes (Path.name path) then scanFrom t rules root visited rest
      else match t.locate true [] path with
        | .error _ => scanFrom t rules root visited rest
        | .ok real =>
          if t.isLink [] path && root.isPrefixOf real then
            let s := scanFrom t rules root visited rest
            ⟨s.paths, .linkSkipped path (placeText real) :: s.notices⟩
          else if _h : real ∈ t.directories ∧ real ∉ visited then
            scanFrom t rules root (real :: visited) (entriesOf t path real ++ rest)
          else
            let s := scanFrom t rules root visited rest
            ⟨s.paths, .alreadyVisited path :: s.notices⟩
    | .ok _ =>
      let s := scanFrom t rules root visited rest
      if rules.takes (Path.name path) then ⟨path :: s.paths, s.notices⟩ else s
termination_by ((unvisited t visited).length, pending.length)
decreasing_by
  all_goals simp_wf
  all_goals first
    | exact Prod.Lex.right _ (Nat.lt_succ_self _)
    | exact Prod.Lex.left _ _ (unvisited_lt _h.1 _h.2)

end Scan

/-- The source files below a directory. -/
def Tree.scan (t : Tree) (cwd root : Text) (rules : ScanRules) : Except Fault Scanned :=
  let root := Path.absolute cwd root
  if t.isDirectory cwd root then
    match t.locate true cwd root with
    | .ok place => .ok (Scan.scanFrom t rules place [place] (Scan.entriesOf t root place))
    | .error _ => .error (.noSourceDirectory root)
  else .error (.noSourceDirectory root)

end ModuleGraph
