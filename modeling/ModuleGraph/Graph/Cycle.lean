import ModuleGraph.Graph.Basic
import ModuleGraph.Path

/-! Cycles found by a depth-first search. The search keeps a stack of nodes with the successors
that are still to be looked at; a node is white before, grey while and black after it is on the
stack. An edge into a grey node closes a cycle: the part of the stack from that node on, and the
node again. Of cycles that are the same up to rotation the first one is kept. -/

namespace ModuleGraph

/-- A closed walk: the first node is also the last. -/
structure Cycle where
  nodes : List Text
  deriving Repr, DecidableEq

namespace Cycle

/-- The number of edges, one less than the number of nodes. -/
def length (c : Cycle) : Int := c.nodes.length - 1

/-- The nodes, below a root without it, with arrows between them. -/
def describe (base : Option Text) (c : Cycle) : Text :=
  Text.join " → " (c.nodes.map fun n => Path.display n base)

/-- The edges of the walk. -/
def edges (c : Cycle) : List (Text × Text) := c.nodes.zip c.nodes.tail

/-- The least of some texts. -/
def least : List Text → Text
  | [] => []
  | [t] => t
  | t :: rest => let m := least rest; if m < t then m else t

/-- The walk without its last node, turned so that the least node comes first. -/
def ring (nodes : List Text) : List Text :=
  let open' := nodes.dropLast
  let pivot := open'.idxOf (least open')
  open'.drop pivot ++ open'.take pivot

end Cycle

/-- How far the search is with a node. -/
inductive Colour
  | white
  | grey
  | black
  deriving Repr, DecidableEq

/-- A node on the stack with the number of its successors that have been looked at. -/
structure Frame where
  node : Text
  targets : List Text
  index : Nat
  deriving Repr, DecidableEq

/-- The state of the search. The stack has its top in front; the path lists the same nodes from
the bottom, and `position` says where a node stands in it. -/
structure Search where
  colour : Entries Colour
  stack : List Frame := []
  path : List Text := []
  position : Entries Nat := []
  cycles : List Cycle := []
  rings : List (List Text) := []
  deriving Repr, DecidableEq

namespace Search

/-- Every node is white. -/
def start (g : Graph) : Search := { colour := g.nodes.map (·, .white) }

def colourOf (s : Search) (node : Text) : Colour := (Entries.get? node s.colour).getD .white

/-- A node comes onto the stack. -/
def enter (g : Graph) (node : Text) (s : Search) : Search :=
  { s with
    colour := Entries.put node .grey s.colour
    position := Entries.put node s.path.length s.position
    path := s.path ++ [node]
    stack := ⟨node, g.successors node, 0⟩ :: s.stack }

/-- The top of the stack is done. -/
def leave (node : Text) (below : List Frame) (s : Search) : Search :=
  { s with
    colour := Entries.put node .black s.colour
    position := Entries.erase node s.position
    path := s.path.dropLast
    stack := below }

/-- An edge into the grey node `target` closes a cycle. -/
def close (target : Text) (s : Search) : Search :=
  let nodes := s.path.drop ((Entries.get? target s.position).getD 0) ++ [target]
  let ring := Cycle.ring nodes
  if ring ∈ s.rings then s
  else { s with cycles := s.cycles ++ [⟨nodes⟩], rings := ring :: s.rings }

/-- One round of the search: look at the next successor of the top, or take the top away. -/
def step (g : Graph) (s : Search) : Search :=
  match s.stack with
  | [] => s
  | top :: below =>
    match top.targets[top.index]? with
    | none => s.leave top.node below
    | some target =>
      let s := { s with stack := { top with index := top.index + 1 } :: below }
      match s.colourOf target with
      | .grey => s.close target
      | .white => s.enter g target
      | .black => s

/-- Rounds until the stack is empty. As many as there are nodes and edges suffice. -/
def run (g : Graph) : (rounds : Nat) → Search → Search
  | 0, s => s
  | rounds + 1, s => if s.stack.isEmpty then s else run g rounds (s.step g)

/-- The search from one root; nothing happens if the root has been reached before. -/
def visitRoot (g : Graph) (s : Search) (root : Text) : Search :=
  if s.colourOf root = .white then
    run g (g.nodes.length + g.edgeCount) (({ s with path := [], position := [] }).enter g root)
  else s

/-- The search from every node. -/
def complete (g : Graph) : Search := g.nodes.foldl (visitRoot g) (start g)

end Search

/-- The cycles of a graph in the order in which the search finds them. -/
def Graph.cycles (g : Graph) : List Cycle := (Search.complete g).cycles

/-- All edges that lie on one of the cycles, in no particular order. -/
def Cycle.allEdges (cycles : List Cycle) : List (Text × Text) :=
  (cycles.flatMap Cycle.edges).eraseDups

end ModuleGraph
