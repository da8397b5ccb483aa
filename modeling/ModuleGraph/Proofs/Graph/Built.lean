import ModuleGraph.Graph.Basic
import Mathlib.Logic.Relation

/-!
Graphs that arise from the empty one by adding nodes and edges.

* `nodes_addEdge`, `successors_addEdge`: what one addition changes;
* `Built.wellFormed`: every such graph lists its nodes and the targets of each node once, and has
  every target among its nodes.
-/

namespace ModuleGraph
namespace Graph

/-- Graphs that some sequence of additions makes out of the empty one. -/
inductive Built : Graph → Prop
  | empty : Built empty
  | addNode {g : Graph} (node : Text) : Built g → Built (g.addNode node)
  | addEdge {g : Graph} (source target : Text) : Built g → Built (g.addEdge source target)

/-- There is an edge from `a` to `b`. -/
def Edge (g : Graph) (a b : Text) : Prop := g.hasEdge a b = true

/-- Nodes and targets stand there once, and targets are nodes. -/
structure WellFormed (g : Graph) : Prop where
  nodes_nodup : g.nodes.Nodup
  successors_nodup : ∀ node, (g.successors node).Nodup
  source_mem : ∀ {a b}, g.Edge a b → a ∈ g.nodes
  target_mem : ∀ {a b}, g.Edge a b → b ∈ g.nodes

theorem edge_iff {g : Graph} {a b : Text} : g.Edge a b ↔ b ∈ g.successors a := by
  simp [Edge, hasEdge]

theorem nodes_addNode (g : Graph) (node : Text) :
    (g.addNode node).nodes = insertLast node g.nodes := by
  unfold addNode insertLast
  split
  · rfl
  · simp [nodes, Entries.keys]

theorem successors_addNode (g : Graph) (node a : Text) :
    (g.addNode node).successors a = g.successors a := by
  unfold addNode
  split
  · rfl
  · rename_i h
    rw [successors, successors, Entries.get?_append]
    cases ha : Entries.get? a g.adjacency with
    | some targets => rfl
    | none => by_cases hn : node = a <;> simp [Entries.get?, hn]

theorem mem_insertLast {x y : Text} {xs : List Text} :
    y ∈ insertLast x xs ↔ y ∈ xs ∨ y = x := by
  unfold insertLast
  split
  · rename_i h
    constructor
    · exact Or.inl
    · rintro (hy | rfl)
      · exact hy
      · exact h
  · simp

theorem nodup_insertLast {x : Text} {xs : List Text} (h : xs.Nodup) : (insertLast x xs).Nodup := by
  unfold insertLast
  split
  · exact h
  · rename_i hx
    rw [List.nodup_append]
    refine ⟨h, by simp, ?_⟩
    intro a ha b hb e
    rw [List.mem_singleton] at hb
    exact hx (hb ▸ e ▸ ha)

theorem nodes_addEdge (g : Graph) (source target : Text) :
    (g.addEdge source target).nodes = insertLast target (insertLast source g.nodes) := by
  have hs : source ∈ Entries.keys ((g.addNode source).addNode target).adjacency := by
    show source ∈ ((g.addNode source).addNode target).nodes
    rw [nodes_addNode, nodes_addNode, mem_insertLast, mem_insertLast]
    exact Or.inl (Or.inr rfl)
  calc (g.addEdge source target).nodes
      = Entries.keys ((g.addNode source).addNode target).adjacency := by
        rw [nodes, addEdge, Entries.keys_put, if_pos hs]
    _ = ((g.addNode source).addNode target).nodes := rfl
    _ = insertLast target (insertLast source g.nodes) := by
        rw [nodes_addNode, nodes_addNode]

theorem successors_addEdge (g : Graph) (source target a : Text) :
    (g.addEdge source target).successors a =
      if a = source then insertLast target (g.successors source) else g.successors a := by
  have h : ∀ b, ((g.addNode source).addNode target).successors b = g.successors b := by
    intro b
    rw [successors_addNode, successors_addNode]
  by_cases ha : a = source
  · rw [if_pos ha, ← h source, successors, addEdge, Entries.get?_put, if_pos ha]
    rfl
  · rw [if_neg ha, ← h a, successors, addEdge, Entries.get?_put, if_neg ha]
    rfl

theorem edge_addEdge {g : Graph} {source target a b : Text} :
    (g.addEdge source target).Edge a b ↔ g.Edge a b ∨ (a = source ∧ b = target) := by
  rw [edge_iff, edge_iff, successors_addEdge]
  by_cases ha : a = source
  · subst ha
    simp [mem_insertLast]
  · simp [ha]

theorem wellFormed_empty : WellFormed empty where
  nodes_nodup := List.nodup_nil
  successors_nodup _ := List.nodup_nil
  source_mem h := absurd (edge_iff.mp h) (by simp [successors, empty, Entries.get?])
  target_mem h := absurd (edge_iff.mp h) (by simp [successors, empty, Entries.get?])

theorem WellFormed.addNode {g : Graph} (h : g.WellFormed) (node : Text) :
    (g.addNode node).WellFormed where
  nodes_nodup := by
    rw [nodes_addNode]
    exact nodup_insertLast h.nodes_nodup
  successors_nodup a := by
    rw [successors_addNode]
    exact h.successors_nodup a
  source_mem e := by
    rw [edge_iff, successors_addNode, ← edge_iff] at e
    rw [nodes_addNode, mem_insertLast]
    exact Or.inl (h.source_mem e)
  target_mem e := by
    rw [edge_iff, successors_addNode, ← edge_iff] at e
    rw [nodes_addNode, mem_insertLast]
    exact Or.inl (h.target_mem e)

theorem WellFormed.addEdge {g : Graph} (h : g.WellFormed) (source target : Text) :
    (g.addEdge source target).WellFormed where
  nodes_nodup := by
    rw [nodes_addEdge]
    exact nodup_insertLast (nodup_insertLast h.nodes_nodup)
  successors_nodup a := by
    rw [successors_addEdge]
    split
    · exact nodup_insertLast (h.successors_nodup source)
    · exact h.successors_nodup a
  source_mem e := by
    rw [nodes_addEdge, mem_insertLast, mem_insertLast]
    rcases edge_addEdge.mp e with e | ⟨rfl, rfl⟩
    · exact Or.inl (Or.inl (h.source_mem e))
    · exact Or.inl (Or.inr rfl)
  target_mem e := by
    rw [nodes_addEdge, mem_insertLast, mem_insertLast]
    rcases edge_addEdge.mp e with e | ⟨rfl, rfl⟩
    · exact Or.inl (Or.inl (h.target_mem e))
    · exact Or.inr rfl

/-- Every graph that is built by additions is well formed. -/
theorem Built.wellFormed {g : Graph} (h : g.Built) : g.WellFormed := by
  induction h with
  | empty => exact wellFormed_empty
  | addNode node _ ih => exact ih.addNode node
  | addEdge source target _ ih => exact ih.addEdge source target

end Graph
end ModuleGraph
