import ModuleGraph.Value.Basic

/-! Directed graphs whose nodes and edges keep the order in which they were first added. Adding an
edge adds its two ends, so every target is a node. -/

namespace ModuleGraph

/-- Nodes in order, each with its successors in order. -/
structure Graph where
  adjacency : Entries (List Text) := []
  deriving Repr, DecidableEq

namespace Graph

-- sums start with the zero of the core library, whatever other ones are in scope
attribute [local instance (high)] Zero.ofOfNat0

def empty : Graph := {}

def nodes (g : Graph) : List Text := Entries.keys g.adjacency

/-- The targets of the edges from a node; none for what is not a node. -/
def successors (g : Graph) (node : Text) : List Text :=
  (Entries.get? node g.adjacency).getD []

/-- A node without successors, unless the node is already there. -/
def addNode (g : Graph) (node : Text) : Graph :=
  if node ∈ g.nodes then g else ⟨g.adjacency ++ [(node, [])]⟩

/-- One more item at the end, unless it is already there. -/
def insertLast (x : Text) (xs : List Text) : List Text := if x ∈ xs then xs else xs ++ [x]

/-- An edge, with its ends as nodes. -/
def addEdge (g : Graph) (source target : Text) : Graph :=
  let g := (g.addNode source).addNode target
  ⟨Entries.put source (insertLast target (g.successors source)) g.adjacency⟩

/-- The edges, in the order of their sources and then of their targets. -/
def edges (g : Graph) : List (Text × Text) :=
  g.adjacency.flatMap fun (source, targets) => targets.map (source, ·)

def edgeCount (g : Graph) : Nat := (g.adjacency.map (·.2.length)).sum

def hasEdge (g : Graph) (source target : Text) : Bool := decide (target ∈ g.successors source)

/-- The graph with given successors, added entry by entry. -/
def ofEntries (entries : Entries (List Text)) : Graph :=
  entries.foldl (fun g (source, targets) =>
    targets.foldl (fun g target => g.addEdge source target) (g.addNode source)) empty

end Graph
end ModuleGraph
