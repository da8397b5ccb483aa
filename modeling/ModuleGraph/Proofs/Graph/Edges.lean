import ModuleGraph.Proofs.Graph.Built
import ModuleGraph.Proofs.Value.Entries
import Mathlib.Algebra.GroupWithZero.Nat
import Mathlib.Data.List.Nodup

/-!
The list of the edges of a graph.

* `mem_edges_iff`, `nodup_edges`, `length_edges`: it holds each edge once, and as many as are
  counted;
* `filter_edges`, `outDegree_eq`: the edges from one node are those to its successors;
* `map_outDegree`, `sum_outDegree`: how many edges leave each node, and all nodes together.
-/

namespace ModuleGraph
namespace Graph

variable {g : Graph} {a b : Text} {e : Text × Text}

/-- The number of edges from a node. -/
def outDegree (g : Graph) (a : Text) : Nat := g.edges.countP fun e => decide (e.1 = a)

/-- The number of edges into a node. -/
def inDegree (g : Graph) (b : Text) : Nat := g.edges.countP fun e => decide (e.2 = b)

theorem Edge.mem_edges (h : g.Edge a b) : (a, b) ∈ g.edges := by
  have hb := edge_iff.mp h
  rw [successors] at hb
  cases hget : Entries.get? a g.adjacency with
  | none =>
    rw [hget] at hb
    cases hb
  | some targets =>
    rw [hget] at hb
    exact List.mem_flatMap.mpr ⟨_, Entries.mem_of_get? hget, List.mem_map_of_mem hb⟩

theorem length_edges (g : Graph) : g.edges.length = g.edgeCount := by
  rw [edges, List.length_flatMap, edgeCount]
  simp

section Distinct

variable (hnodes : g.nodes.Nodup)
include hnodes

/-- The targets of a node are those that stand in its entry. -/
theorem successors_eq_of_mem {x : Text × List Text} (hx : x ∈ g.adjacency) :
    g.successors x.1 = x.2 := by
  rw [successors, Entries.get?_of_mem hnodes hx, Option.getD_some]

/-- The listed edges are the edges. -/
theorem mem_edges_iff : e ∈ g.edges ↔ g.Edge e.1 e.2 := by
  obtain ⟨a, b⟩ := e
  constructor
  · intro he
    obtain ⟨x, hx, hb⟩ := List.mem_flatMap.mp he
    obtain ⟨m, hm, heq⟩ := List.mem_map.mp hb
    obtain ⟨rfl, rfl⟩ := Prod.mk.inj heq
    rwa [edge_iff, successors_eq_of_mem hnodes hx]
  · exact Edge.mem_edges

/-- No edge is listed twice if no target of a node is. -/
theorem nodup_edges (htargets : ∀ node, (g.successors node).Nodup) : g.edges.Nodup := by
  refine List.nodup_flatMap.mpr ⟨fun x hx => ?_, ?_⟩
  · have hx' : x.2.Nodup := successors_eq_of_mem hnodes hx ▸ htargets x.1
    exact hx'.map fun _ _ h => (Prod.mk.inj h).2
  · refine (List.pairwise_map.mp hnodes).imp fun {x y} hne e hx hy => hne ?_
    obtain ⟨_, -, rfl⟩ := List.mem_map.mp hx
    obtain ⟨_, -, heq⟩ := List.mem_map.mp hy
    exact (Prod.mk.inj heq).1.symm

/-- The edges from a node lead to its successors, in their order. -/
theorem filter_edges (a : Text) :
    g.edges.filter (fun e => decide (e.1 = a)) = (g.successors a).map (a, ·) := by
  obtain ⟨entries⟩ := g
  simp only [edges, successors]
  induction entries with
  | nil => rfl
  | cons x entries ih =>
    obtain ⟨n, targets⟩ := x
    obtain ⟨hn, hrest⟩ : n ∉ Entries.keys entries ∧ (Entries.keys entries).Nodup :=
      List.nodup_cons.mp hnodes
    rw [List.flatMap_cons, List.filter_append, ih hrest, Entries.get?]
    by_cases hna : n = a
    · subst hna
      rw [if_pos rfl, Entries.get?_eq_none_iff.mpr hn]
      simp [List.filter_map, Function.comp_def]
    · rw [if_neg hna]
      simp [List.filter_map, Function.comp_def, hna]

theorem outDegree_eq (a : Text) : g.outDegree a = (g.successors a).length := by
  rw [outDegree, List.countP_eq_length_filter, filter_edges hnodes, List.length_map]

/-- The nodes with the number of edges from each. -/
theorem map_outDegree :
    (g.nodes.map fun a => (a, g.outDegree a)) = g.adjacency.map fun x => (x.1, x.2.length) := by
  rw [nodes, Entries.keys, List.map_map]
  refine List.map_congr_left fun x hx => ?_
  rw [Function.comp_apply, outDegree_eq hnodes, successors_eq_of_mem hnodes hx]

/-- Every edge leaves one node. -/
theorem sum_outDegree : (g.nodes.map g.outDegree).sum = g.edgeCount := by
  have h := congrArg (List.map Prod.snd) (map_outDegree hnodes)
  rw [List.map_map, List.map_map] at h
  exact congrArg List.sum h

end Distinct

end Graph
end ModuleGraph
