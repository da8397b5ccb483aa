import ModuleGraph.Source.Basic
import ModuleGraph.Source.Statement
import ModuleGraph.Text.Lines

/-! The imports and exports of a source, in the order in which they stand there. -/

namespace ModuleGraph

/-- Items in the order of their offsets; items of one offset keep their places. -/
def inOrder {α : Type} (items : List (Nat × α)) : List α :=
  (items.mergeSort fun a b => a.1 ≤ b.1).map (·.2)

/-- The import that a find stands for. -/
def Import.ofFound (marks : List Text) (index : LineIndex) (kind : ImportKind)
    (f : Statement.Found) : Nat × Import :=
  let specifier := f.quoted.text.trim
  let offset := f.quoted.inside.offset
  (offset, {
    specifier
    line := index.lineOf offset
    kind
    category := Specifier.classify marks specifier
    bindings := (f.binding.map Binding.names).getD [] })

/-- All imports of one kind. -/
def Source.importsOf (marks : List Text) (index : LineIndex) (content : Text)
    (kind : ImportKind) : List (Nat × Import) :=
  let recognise := match kind with
    | .static => Statement.staticImport
    | .dynamic => Statement.dynamicImport
    | .require => Statement.requireImport
  (Cursor.findAll recognise (·.stop.offset) content).map (Import.ofFound marks index kind)

/-- The imports of a text, in the order of their specifiers. -/
def Source.findImports (marks : List Text) (content : Text) : List Import :=
  let index := LineIndex.ofText content
  inOrder (ImportKind.all.flatMap (importsOf marks index content))

/-- The exported declarations of a text. -/
def Export.declared (index : LineIndex) (content : Text) : List (Nat × Export) :=
  (Cursor.findAll Statement.exportDeclaration (·.stop.offset) content).map fun n =>
    (n.place.offset, { name := n.name, kind := .named, line := index.lineOf n.place.offset })

/-- The default exports of a text. -/
def Export.defaults (index : LineIndex) (content : Text) : List (Nat × Export) :=
  (Cursor.findAll Statement.exportDefault (·.2.offset) content).map fun (c, _) =>
    (c.offset, { name := Statement.defaultWord, kind := .named, line := index.lineOf c.offset })

/-- The names in the export lists of a text. A list with an origin stands on the line of it. -/
def Export.listed (index : LineIndex) (content : Text) : List (Nat × Export) :=
  (Cursor.findAll Statement.exportList (·.stop.offset) content).flatMap fun l =>
    let offset := match l.origin with
      | some q => q.inside.offset
      | none => l.place.offset
    (Binding.exportNames l.names).map fun name =>
      (l.place.offset, {
        name
        kind := if l.origin.isSome then .reexport else .named
        line := index.lineOf offset
        source := l.origin.map (·.text) })

/-- The exports of all names of another module. -/
def Export.starred (index : LineIndex) (content : Text) : List (Nat × Export) :=
  (Cursor.findAll Statement.exportStar (·.origin.stop.offset) content).map fun s =>
    (s.place.offset, {
      name := s.name.getD ['*']
      kind := if s.name.isSome then .reexport else .namespaceAll
      line := index.lineOf s.origin.inside.offset
      source := some s.origin.text })

/-- The exports of a text, in the order in which they stand there. -/
def Source.findExports (content : Text) : List Export :=
  let index := LineIndex.ofText content
  inOrder (Export.declared index content ++ Export.defaults index content ++
    Export.listed index content ++ Export.starred index content)

/-- A source with its imports and exports, each bound to the path. -/
def Source.extract (marks : List Text) (path content : Text) : Source where
  path
  content
  imports := (findImports marks content).map fun i => { i with file := some path }
  exports := (findExports content).map fun e => { e with file := some path }

end ModuleGraph
