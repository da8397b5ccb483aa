import ModuleGraph.Graph.Basic

/-! Rankings: the items with the highest counts first, items of one count in their order. -/

namespace ModuleGraph

/-- How often each key occurs, keys in the order of their first occurrence. -/
abbrev Tally := Entries Int

namespace Tally

/-- One more occurrence. -/
def count (key : Text) (t : Tally) : Tally := Entries.put key ((Entries.get? key t).getD 0 + 1) t

/-- The occurrences of each item of a list. -/
def ofKeys (keys : List Text) : Tally := keys.foldl (fun t key => t.count key) []

/-- Higher counts first; equal counts keep their order. -/
def descending (t : Tally) : Tally := t.mergeSort fun a b => b.2 ≤ a.2

/-- The `n` highest counts; none for a negative `n`. -/
def highest (n : Int) (t : Tally) : Tally := (descending t).take n.toNat

end Tally

/-- The first `n` items; a negative `n` leaves out that many at the end. -/
def firstItems {α : Type} (n : Int) (items : List α) : List α :=
  match n with
  | .ofNat n => items.take n
  | .negSucc m => items.take (items.length - (m + 1))

namespace Graph

/-- The number of successors of each node. -/
def outDegrees (g : Graph) : Tally := g.adjacency.map fun (node, targets) => (node, targets.length)

/-- The first `n` nodes by the number of successors, those without any left out. -/
def mostDependencies (n : Int) (g : Graph) : Tally :=
  (firstItems n (Tally.descending g.outDegrees)).filter (·.2 != 0)

/-- The number of edges into each node that has one. -/
def inDegrees (g : Graph) : Tally := Tally.ofKeys (g.edges.map (·.2))

/-- The first `n` nodes by the number of edges into them. -/
def mostReferenced (n : Int) (g : Graph) : Tally := g.inDegrees.highest n

end Graph
end ModuleGraph
