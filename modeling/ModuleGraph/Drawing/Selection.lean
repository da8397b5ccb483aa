import ModuleGraph.Analysis.Basic

/-! The part of a graph that is drawn: all of it, or the nodes whose names hold a given text with
their neighbours and the edges between them. -/

namespace ModuleGraph

/-- What is drawn of a graph. -/
structure Selection where
  nodes : List Text
  edges : List (Text × Text)
  deriving Repr, DecidableEq

namespace Selection

/-- Does an edge begin or end at one of the nodes? -/
def touches (nodes : List Text) (e : Text × Text) : Bool :=
  nodes.contains e.1 || nodes.contains e.2

/-- The part of a graph around the nodes that hold `focus`; the whole graph if no node does. -/
def ofGraph (g : Graph) (focus : Text) : Selection :=
  let inFocus := g.nodes.filter (Text.includes focus)
  if focus.isEmpty || inFocus.isEmpty then ⟨g.nodes, g.edges⟩
  else
    let edges := g.edges.filter (touches inFocus)
    let nodes := inFocus ++ edges.flatMap fun (a, b) => [a, b]
    ⟨Text.sorted nodes.eraseDups, edges⟩

end Selection
end ModuleGraph
