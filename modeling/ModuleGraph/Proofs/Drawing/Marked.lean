import ModuleGraph.Proofs.Drawing.Dot
import ModuleGraph.Proofs.Drawing.Page
import ModuleGraph.Proofs.Graph.Cycles

/-!
The edges that are drawn as edges of cycles.

* `exists_walk_iff`: an edge is on a closed walk exactly if its target leads back to its source;
* `exists_onOne`: every closed walk has an edge on a cycle that was found;
* `marks_data`: the marks that the script of a page works on;
* `marked_edges`: both drawings mark the edges on the cycles that were found, which lie on closed
  walks and without which no closed walk is left;
* `not_marked_all`: an edge may be on closed walks only that are not among those cycles.
-/

namespace ModuleGraph

namespace Graph

variable {g : Graph} {e : Text × Text} {w : Cycle}

/-- An edge is on a closed walk exactly if its target leads back to its source. -/
theorem exists_walk_iff (he : g.Edge e.1 e.2) :
    (∃ w : Cycle, w.IsWalk g ∧ e ∈ w.edges) ↔ Relation.ReflTransGen g.Edge e.2 e.1 := by
  obtain ⟨a, b⟩ := e
  constructor
  · rintro ⟨w, hw, he⟩
    obtain ⟨ha, hb⟩ := Cycle.mem_nodes_of_mem_edges he
    exact hw.reaches hb ha
  · exact exists_isWalk he

/-- An edge of a cycle that was found is an edge on a closed walk. -/
theorem walk_of_onOne (h : g.WellFormed) (he : Cycle.OnOne g.cycles e) :
    g.Edge e.1 e.2 ∧ ∃ w : Cycle, w.IsWalk g ∧ e ∈ w.edges := by
  obtain ⟨c, hc, he⟩ := he
  have hw := (isSimple_of_mem_cycles h hc).toIsWalk
  exact ⟨Cycle.mem_edges_edge hw.isChain he, c, hw, he⟩

/-- Every closed walk has an edge on a cycle that was found. -/
theorem exists_onOne (h : g.WellFormed) (hw : w.IsWalk g) :
    ∃ e ∈ w.edges, Cycle.OnOne g.cycles e := by
  obtain ⟨c, hc, e, he, hce⟩ := exists_closingEdge h hw
  exact ⟨e, he, c, hc, Cycle.closingEdge_mem hce⟩

end Graph

namespace Page

/-- The ends of an edge, as they are shown, and its mark. -/
def mark? : Value → Option ((Text × Text) × Bool)
  | .table entries =>
    match Entries.get? "src" entries, Entries.get? "dst" entries, Entries.get? "cycle" entries with
    | some (.text source), some (.text target), some (.bool marked) =>
      some ((source, target), marked)
    | _, _, _ => none
  | _ => none

/-- The edges that a script works on, with their marks. -/
def marks : Value → Option (List ((Text × Text) × Bool))
  | .table entries =>
    match Entries.get? "edges" entries with
    | some (.array edges) => edges.mapM mark?
    | _ => none
  | _ => none

theorem mark?_edgeValue (root : Text) (red : List (Text × Text)) (e : Text × Text) :
    mark? (edgeValue root red e) =
      some ((Path.display e.1 (some root), Path.display e.2 (some root)), red.contains e) := rfl

theorem marks_data (a : Analysis) (s : Selection) :
    marks (data a s) = some (s.edges.map fun e =>
      ((Path.display e.1 (some a.root), Path.display e.2 (some a.root)),
        decide (Cycle.OnOne a.cycles e))) := by
  have hentry : marks (data a s) =
      (s.edges.map (edgeValue a.root (Cycle.allEdges a.cycles))).mapM mark? := rfl
  rw [hentry]
  induction s.edges with
  | nil => rfl
  | cons e es ih =>
    rw [List.map_cons, List.mapM_cons, ih, mark?_edgeValue, Cycle.contains_allEdges]
    rfl

end Page

namespace Analysis

open ModuleGraph.Graph

/-- The drawing of a graph and its page mark the same edges: those on the cycles that the search
found. These are edges on closed walks, whose targets lead back to their sources. Every closed
walk has such an edge, so the graph has no closed walk without them, and the component of a closed
walk has all edges of some cycle marked. -/
theorem marked_edges {a : Analysis} (h : a.dependencies.graph.Built)
    (hcycles : a.cycles = a.dependencies.graph.cycles) (focus : Text) :
    let g := a.dependencies.graph
    let s := Selection.ofGraph g focus
    let marked := fun e : Text × Text => ∃ c ∈ g.cycles, e ∈ c.edges
    (Dot.read (Dot.ofAnalysis a focus)).map Dot.Drawing.edges =
      some (s.edges.map fun e => (e, decide (marked e))) ∧
    (∃ before embedded,
      Page.ofAnalysis a focus = before ++ "const graph = " ++ embedded ++ Page.afterData ∧
      (Json.read embedded).bind Page.marks = some (s.edges.map fun e =>
        ((Path.display e.1 (some a.root), Path.display e.2 (some a.root)), decide (marked e)))) ∧
    (∀ e, marked e → g.Edge e.1 e.2 ∧ (∃ w : Cycle, w.IsWalk g ∧ e ∈ w.edges) ∧
      Relation.ReflTransGen g.Edge e.2 e.1) ∧
    (∀ w : Cycle, w.IsWalk g → ∃ e ∈ w.edges, marked e) ∧
    ∀ w : Cycle, w.IsWalk g → ∃ c : Cycle, c.IsSimple g ∧ (∀ e ∈ c.edges, marked e) ∧
      ∀ m ∈ w.nodes, ∀ n ∈ c.nodes, g.SameComponent m n := by
  intro g s marked
  have hg := h.wellFormed
  refine ⟨?_, ?_, ?_, fun w hw => exists_onOne hg hw, ?_⟩
  · rw [Dot.read_text, Option.map_some, Dot.Drawing.ofSelection, hcycles]
    rfl
  · obtain ⟨before, embedded, hpage, -, hread⟩ := Page.exists_embedded a focus
    refine ⟨before, embedded, hpage, ?_⟩
    rw [hread, Option.bind_some, Page.marks_data, hcycles]
    rfl
  · intro e he
    obtain ⟨hedge, hwalk⟩ := walk_of_onOne hg he
    exact ⟨hedge, hwalk, (exists_walk_iff hedge).mp hwalk⟩
  · intro w hw
    obtain ⟨first, rest, hn⟩ := Cycle.eq_cons_concat hw.two_le_length hw.closed
    have hfirst : first ∈ w.nodes := hn ▸ List.mem_cons_self
    have hsame : ∀ m ∈ w.nodes, g.SameComponent first m := fun m hm =>
      ⟨hw.reaches hfirst hm, hw.reaches hm hfirst⟩
    obtain ⟨c, hc, hcomponent⟩ := exists_cycle_of_component hg hw hsame
    refine ⟨c, isSimple_of_mem_cycles hg hc, fun e he => ⟨c, hc, he⟩, fun m hm n hn => ?_⟩
    obtain ⟨hto, hfrom⟩ := hcomponent n hn
    exact ⟨(hsame m hm).2.trans hto, hfrom.trans (hsame m hm).1⟩

/-- Three modules with two closed walks through the first one, of which the search finds the
shorter first: when it comes to the third module, the second one is done with. -/
def crossing : Analysis :=
  let graph := (((Graph.empty.addEdge "a" "b").addEdge "a" "c").addEdge "b" "a").addEdge "c" "b"
  { root := "/p", sources := [], dependencies := { graph }, cycles := graph.cycles, skipped := [] }

theorem built_crossing : crossing.dependencies.graph.Built :=
  (((Built.empty.addEdge _ _).addEdge _ _).addEdge _ _).addEdge _ _

theorem read_crossing : (Dot.read (Dot.ofAnalysis crossing [])).map Dot.Drawing.edges =
    some ([(("a", "b"), true), (("a", "c"), false), (("b", "a"), true), (("c", "b"), false)] :
      List ((Text × Text) × Bool)) := by
  rw [Dot.read_text]
  decide

/-- Two of its edges are marked, one in each direction. -/
theorem marked_edges_crossing :
    crossing.dependencies.graph.Built ∧ crossing.cycles = crossing.dependencies.graph.cycles ∧
    (∃ c ∈ crossing.dependencies.graph.cycles, (("b", "a") : Text × Text) ∈ c.edges) ∧
    Relation.ReflTransGen crossing.dependencies.graph.Edge "a" "b" := by
  have hmarked : ∃ c ∈ crossing.dependencies.graph.cycles,
      (("b", "a") : Text × Text) ∈ c.edges := by
    decide
  obtain ⟨-, -, hback, -⟩ := marked_edges built_crossing rfl []
  exact ⟨built_crossing, rfl, hmarked, (hback _ hmarked).2.2⟩

/-- An edge whose target leads back to its source is not always marked. -/
theorem not_marked_all : ¬ ∀ (a : Analysis) (focus : Text) (edges : List ((Text × Text) × Bool)),
    a.dependencies.graph.Built → a.cycles = a.dependencies.graph.cycles →
    (Dot.read (Dot.ofAnalysis a focus)).map Dot.Drawing.edges = some edges →
    ∀ e red, (e, red) ∈ edges →
      (red = true ↔ Relation.ReflTransGen a.dependencies.graph.Edge e.2 e.1) := by
  intro h
  have hcb : crossing.dependencies.graph.Edge "c" "b" := rfl
  have hba : crossing.dependencies.graph.Edge "b" "a" := rfl
  have hback : Relation.ReflTransGen crossing.dependencies.graph.Edge "c" "a" :=
    (Relation.ReflTransGen.single hcb).tail hba
  have hred := (h crossing [] _ built_crossing rfl read_crossing ("a", "c") false
    (by simp)).mpr hback
  cases hred

end Analysis
end ModuleGraph
