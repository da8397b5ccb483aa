import ModuleGraph.Path
import ModuleGraph.Specifier
import ModuleGraph.Value.Basic

/-! Resolution of specifiers to files. A path is tried as written, then with each suffix, then as
a directory with an index file. Which paths are files is a parameter: nothing here reads a file.

The longest mark that an aliased specifier begins with decides the directory. -/

namespace ModuleGraph

/-- The mark with which specifiers begin, and the directory that the mark stands for. -/
structure Alias where
  mark : Text
  directory : Text
  deriving Repr, DecidableEq

/-- Why a specifier leads nowhere. -/
inductive Unresolvable
  | noAlias (specifier : Text)
  | noFile (base : Text)
  deriving Repr, DecidableEq

def Unresolvable.message : Unresolvable → Text
  | .noAlias specifier => "no alias matches '" ++ specifier ++ "'"
  | .noFile base => "no file matches " ++ base

/-- Where a specifier leads: to a file, outside the sources, or nowhere for a reason. -/
structure Resolution where
  category : Category
  path : Option Text := none
  reason : Option Unresolvable := none
  deriving Repr, DecidableEq

def Resolution.isResolved (r : Resolution) : Bool := r.reason.isNone

/-- Aliases with longer marks first, and the suffixes to try. Relative paths are seen from `cwd`. -/
structure Resolver where
  cwd : Text
  aliases : List Alias
  suffixes : List Text
  deriving Repr, DecidableEq

namespace Resolver

/-- The suffixes tried unless others are configured, in this order. -/
def defaultSuffixes : List Text :=
  [['.', 't', 's'], ['.', 't', 's', 'x'], ['.', 'j', 's'], ['.', 'j', 's', 'x']]

/-- Longer marks first; marks of one length keep their order. -/
def byLength (aliases : List Alias) : List Alias :=
  aliases.mergeSort fun a b => b.mark.length ≤ a.mark.length

/-- A resolver for marks with their directories. -/
def ofEntries (cwd : Text) (aliases : Entries Text) (suffixes : List Text) : Resolver where
  cwd
  aliases := byLength (aliases.map fun (mark, dir) => ⟨mark, Path.absolute cwd dir⟩)
  suffixes

def marks (r : Resolver) : List Text := r.aliases.map (·.mark)

def classify (r : Resolver) (specifier : Text) : Category :=
  Specifier.classify r.marks specifier

/-- The path that a relative or aliased specifier stands for, before any suffix is tried. -/
def basePath (r : Resolver) (specifier file : Text) : Option Text :=
  if Specifier.isRelative specifier then
    some (Path.absolute r.cwd (Path.join (Path.directory file) specifier))
  else
    (r.aliases.find? fun a => specifier.startsWith a.mark).map fun a =>
      match specifier.drop a.mark.length with
      | [] => a.directory
      | rest => Path.absolute r.cwd (Path.join a.directory rest)

def indexName : Text := "/index"

/-- The paths to try for a base path, in order. -/
def candidates (r : Resolver) (base : Text) : List Text :=
  base :: r.suffixes.map (base ++ ·) ++ r.suffixes.map (base ++ indexName ++ ·)

/-- Where a specifier in `file` leads, given which paths are files. -/
def resolve (r : Resolver) (isFile : Text → Bool) (specifier file : Text) : Resolution :=
  let category := r.classify specifier
  if category = .external then { category }
  else match r.basePath specifier file with
    | none => { category, reason := some (.noAlias specifier) }
    | some base =>
      match (r.candidates base).find? isFile with
      | some path => { category, path := some path }
      | none => { category, reason := some (.noFile base) }

end Resolver
end ModuleGraph
