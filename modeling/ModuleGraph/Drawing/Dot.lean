import ModuleGraph.Drawing.Selection

/-! Graphs as DOT texts. Names are quoted, with a backslash before quotes and backslashes; the
edges of cycles are red. -/

namespace ModuleGraph
namespace Dot

/-- One character of a quoted name. -/
def quoteChar (c : Char) : Text := if c = '"' || c = '\\' then ['\\', c] else [c]

/-- A name in quotes. -/
def quoted (t : Text) : Text := '"' :: t.flatMap quoteChar ++ ['"']

def nodeLine (root node : Text) : Text :=
  "  " ++ quoted node ++ " [label=" ++ quoted (Path.display node (some root)) ++ "];"

/-- The line of an edge, `red` if it lies on a cycle. -/
def edgeLine (red : List (Text × Text)) (e : Text × Text) : Text :=
  let style : Text := if red.contains e then " [color=\"red\", penwidth=2]" else []
  "  " ++ quoted e.1 ++ " -> " ++ quoted e.2 ++ style ++ [';']

def opening : List Text := [
  "digraph Dependencies \x7b", "  rankdir=LR;", "  node [shape=box, fontname=\"monospace\"];"]

/-- The drawing of an analysed source tree around the nodes that hold `focus`. -/
def ofAnalysis (a : Analysis) (focus : Text) : Text :=
  let s := Selection.ofGraph a.dependencies.graph focus
  let red := Cycle.allEdges a.cycles
  Text.unlines (opening ++ s.nodes.map (nodeLine a.root) ++ s.edges.map (edgeLine red) ++
    [['\x7d'], []])

end Dot
end ModuleGraph
