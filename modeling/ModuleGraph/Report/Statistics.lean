import ModuleGraph.Graph.Ranking
import ModuleGraph.Number.Shortest
import ModuleGraph.Path
import ModuleGraph.Source.Basic

/-! Statistics of sources: how many imports of which category and kind there are, in all, by file
and by directory, and which imports and files are conspicuous. -/

namespace ModuleGraph

/-- The number of imports of each category. -/
structure CategoryCounts where
  relative : Nat
  aliased : Nat
  external : Nat
  deriving Repr, DecidableEq

namespace CategoryCounts

def ofImports (imports : List Import) : CategoryCounts where
  relative := imports.countP (·.category = .relative)
  aliased := imports.countP (·.category = .aliased)
  external := imports.countP (·.category = .external)

def total (c : CategoryCounts) : Nat := c.relative + c.aliased + c.external

end CategoryCounts

/-- The numbers of all sources together. -/
structure ImportSummary where
  files : Nat
  exports : Nat
  counts : CategoryCounts
  kinds : List (ImportKind × Nat)
  deriving Repr, DecidableEq

/-- The numbers of one source. -/
structure FileStatistics where
  file : Text
  imports : Nat
  counts : CategoryCounts
  exports : Nat
  deriving Repr, DecidableEq

/-- The numbers of the sources in one directory. -/
structure DirectoryStatistics where
  directory : Text
  files : Nat
  imports : Nat
  relative : Nat
  aliased : Nat
  deriving Repr, DecidableEq

/-- An import that climbs many directories. -/
structure DeepImport where
  file : Text
  specifier : Text
  line : Int
  depth : Nat
  deriving Repr, DecidableEq

/-- A file with relative and with aliased imports. -/
structure MixedFile where
  file : Text
  relative : Nat
  aliased : Nat
  deriving Repr, DecidableEq

namespace Statistics

-- sums start with the zero of the core library, whatever other ones are in scope
attribute [local instance (high)] Zero.ofOfNat0

def allImports (sources : List Source) : List Import := sources.flatMap (·.imports)

def categories (sources : List Source) : CategoryCounts := .ofImports (allImports sources)

def summary (sources : List Source) : ImportSummary where
  files := sources.length
  exports := (sources.map (·.exports.length)).sum
  counts := categories sources
  kinds := ImportKind.all.map fun k => (k, (allImports sources).countP (·.kind = k))

def ofFile (root : Option Text) (s : Source) : FileStatistics where
  file := Path.display s.path root
  imports := s.imports.length
  counts := .ofImports s.imports
  exports := s.exports.length

/-- The directory of a source as it is shown; the root itself is shown as a dot. -/
def directoryOf (root : Option Text) (s : Source) : Text :=
  let directory := Path.display (Path.directory s.path) root
  match root with
  | some (c :: base) => if directory = Path.tidy (c :: base) then Path.here else directory
  | _ => directory

/-- One more source of a directory. -/
def addTo (d : DirectoryStatistics) (s : Source) : DirectoryStatistics :=
  let counts := CategoryCounts.ofImports s.imports
  { d with
    files := d.files + 1
    imports := d.imports + s.imports.length
    relative := d.relative + counts.relative
    aliased := d.aliased + counts.aliased }

/-- The numbers of one directory, from the sources in it. -/
def ofDirectory (root : Option Text) (sources : List Source) (directory : Text) :
    DirectoryStatistics :=
  (sources.filter fun s => directoryOf root s = directory).foldl addTo ⟨directory, 0, 0, 0, 0⟩

/-- Higher counts first, and by name where the counts are equal. -/
def rankedBefore (a b : Nat × Text) : Bool := b.1 < a.1 || (a.1 == b.1 && Text.le a.2 b.2)

/-- The first `n` directories by the number of imports. -/
def directories (root : Option Text) (n : Int) (sources : List Source) :
    List DirectoryStatistics :=
  let names := Entries.keys (Tally.ofKeys (sources.map (directoryOf root)))
  firstItems n ((names.map (ofDirectory root sources)).mergeSort fun a b =>
    rankedBefore (a.imports, a.directory) (b.imports, b.directory))

/-- The first `n` files by the number of imports, those without imports left out. -/
def topFiles (root : Option Text) (n : Int) (sources : List Source) : List (Text × Nat) :=
  let ranked := sources.mergeSort fun a b =>
    rankedBefore (a.imports.length, a.path) (b.imports.length, b.path)
  ((firstItems n ranked).filter fun s => !s.imports.isEmpty).map fun s =>
    (Path.display s.path root, s.imports.length)

/-- The relative imports that climb at least `threshold` directories. -/
def deepImports (root : Option Text) (threshold : Int) (sources : List Source) :
    List DeepImport :=
  sources.flatMap fun s => s.imports.filterMap fun i =>
    let depth := Specifier.depth i.specifier
    if i.category = .relative ∧ threshold ≤ depth then
      some ⟨Path.display s.path root, i.specifier, i.line, depth⟩
    else none

/-- The files with relative and with aliased imports. -/
def mixedFiles (root : Option Text) (sources : List Source) : List MixedFile :=
  sources.filterMap fun s =>
    let c := CategoryCounts.ofImports s.imports
    if c.relative ≠ 0 ∧ c.aliased ≠ 0 then
      some ⟨Path.display s.path root, c.relative, c.aliased⟩
    else none

end Statistics
end ModuleGraph
