import ModuleGraph.Proofs.Accounts
import ModuleGraph.Proofs.Graph.Cycles
import ModuleGraph.Proofs.Graph.Edges

/-!
What a graph has after some nodes and edges were added to the empty one.

* `Addition`, `ofAdditions`: the additions one after the other;
* `nodes_ofAdditions`, `successors_ofAdditions`, `edge_ofAdditions`: the names and the targets in
  the order in which they are first mentioned, each once;
* `ofEntries_eq`: a graph put together from entries is one that such additions make;
* `mem_nodes_ofEntries`, `successors_ofEntries`: from the entries of a graph comes one with the
  same nodes and the same successors;
* `graph_of_additions`: all of this, and that both graphs have cycles or neither.
-/

namespace ModuleGraph

/-- A node or an edge that is added to a graph. -/
inductive Addition
  | node (name : Text)
  | edge (source target : Text)
  deriving Repr, DecidableEq

namespace Addition

/-- The names that are to be nodes. -/
def mentioned : Addition → List Text
  | node name => [name]
  | edge source target => [source, target]

/-- The target of an edge from a node. -/
def targetFrom (a : Text) : Addition → Option Text
  | node _ => none
  | edge source target => if source = a then some target else none

/-- The additions that give a node its successors. -/
def ofEntry (entry : Text × List Text) : List Addition :=
  node entry.1 :: entry.2.map (edge entry.1)

end Addition

namespace Graph

variable {g : Graph} {a b : Text}

def add (g : Graph) : Addition → Graph
  | .node name => g.addNode name
  | .edge source target => g.addEdge source target

/-- The empty graph after some additions. -/
def ofAdditions (additions : List Addition) : Graph := additions.foldl add empty

theorem ofAdditions_concat (additions : List Addition) (x : Addition) :
    ofAdditions (additions ++ [x]) = (ofAdditions additions).add x := by
  rw [ofAdditions, List.foldl_append]
  rfl

theorem built_ofAdditions (additions : List Addition) : (ofAdditions additions).Built := by
  induction additions using List.reverseRecOn with
  | nil => exact .empty
  | append_singleton additions x ih =>
    rw [ofAdditions_concat]
    cases x with
    | node name => exact ih.addNode name
    | edge source target => exact ih.addEdge source target

/-- The nodes are the names in the order in which they are first mentioned. -/
theorem nodes_ofAdditions (additions : List Addition) :
    (ofAdditions additions).nodes = (additions.flatMap Addition.mentioned).eraseDups := by
  induction additions using List.reverseRecOn with
  | nil => rfl
  | append_singleton additions x ih =>
    rw [ofAdditions_concat, List.flatMap_append, List.flatMap_singleton]
    cases x with
    | node name =>
      rw [add, nodes_addNode, ih, Addition.mentioned, eraseDups_concat]
    | edge source target =>
      rw [add, nodes_addEdge, ih, Addition.mentioned, ← eraseDups_concat, ← eraseDups_concat,
        List.append_assoc]
      rfl

/-- The successors of a node are the targets in the order in which edges to them are first added. -/
theorem successors_ofAdditions (additions : List Addition) (a : Text) :
    (ofAdditions additions).successors a =
      (additions.filterMap (Addition.targetFrom a)).eraseDups := by
  induction additions using List.reverseRecOn with
  | nil => rfl
  | append_singleton additions x ih =>
    rw [ofAdditions_concat, List.filterMap_append]
    cases x with
    | node name =>
      rw [add, successors_addNode, ih, List.filterMap_cons_none rfl, List.filterMap_nil,
        List.append_nil]
    | edge source target =>
      rw [add, successors_addEdge]
      by_cases ha : a = source
      · subst ha
        rw [if_pos rfl, ih, ← eraseDups_concat]
        simp [Addition.targetFrom]
      · rw [if_neg ha, ih]
        simp [Addition.targetFrom, Ne.symm ha]

theorem edge_ofAdditions {additions : List Addition} :
    (ofAdditions additions).Edge a b ↔ Addition.edge a b ∈ additions := by
  rw [edge_iff, successors_ofAdditions, List.mem_eraseDups, List.mem_filterMap]
  constructor
  · rintro ⟨x, hx, htarget⟩
    cases x with
    | node name => cases htarget
    | edge source target =>
      rw [Addition.targetFrom] at htarget
      split at htarget
      · rename_i hsource
        rw [← hsource, ← Option.some.inj htarget]
        exact hx
      · cases htarget
  · exact fun h => ⟨_, h, if_pos rfl⟩

theorem ofEntries_eq (entries : Entries (List Text)) :
    ofEntries entries = ofAdditions (entries.flatMap Addition.ofEntry) := by
  rw [ofEntries, ofAdditions, List.foldl_flatMap]
  congr 1
  funext g entry
  rw [Addition.ofEntry, List.foldl_cons, List.foldl_map]
  rfl

/-- The additions for the entries of a graph mention its nodes only. -/
theorem mem_nodes_ofEntries (hg : g.WellFormed) :
    a ∈ (ofEntries g.adjacency).nodes ↔ a ∈ g.nodes := by
  rw [ofEntries_eq, nodes_ofAdditions, List.mem_eraseDups, List.mem_flatMap]
  constructor
  · rintro ⟨x, hx, ha⟩
    obtain ⟨entry, hentry, hx⟩ := List.mem_flatMap.mp hx
    have hnode : entry.1 ∈ g.nodes := List.mem_map_of_mem hentry
    rcases List.mem_cons.mp hx with rfl | hx
    · rwa [List.mem_singleton.mp ha]
    · obtain ⟨target, htarget, rfl⟩ := List.mem_map.mp hx
      rcases List.mem_cons.mp ha with rfl | ha
      · exact hnode
      · rw [List.mem_singleton.mp ha]
        refine hg.target_mem (a := entry.1) (edge_iff.mpr ?_)
        rwa [successors_eq_of_mem hg.nodes_nodup hentry]
  · intro ha
    obtain ⟨entry, hentry, rfl⟩ := List.mem_map.mp ha
    exact ⟨_, List.mem_flatMap.mpr ⟨entry, hentry, List.mem_cons_self⟩, List.mem_singleton_self _⟩

/-- The targets that the additions for some entries give a node. -/
theorem filterMap_targetFrom (entries : Entries (List Text)) (a : Text) :
    (entries.flatMap Addition.ofEntry).filterMap (Addition.targetFrom a) =
      ((Graph.mk entries).edges.filter fun e => decide (e.1 = a)).map (·.2) := by
  simp only [edges]
  induction entries with
  | nil => rfl
  | cons entry entries ih =>
    obtain ⟨source, targets⟩ := entry
    rw [List.flatMap_cons, List.filterMap_append, ih, List.flatMap_cons, List.filter_append,
      List.map_append]
    congr 1
    rw [Addition.ofEntry, List.filterMap_cons_none rfl, List.filterMap_map]
    by_cases hsource : source = a <;>
      simp [hsource, Addition.targetFrom, Function.comp_def, List.filter_map]

theorem successors_ofEntries (hg : g.WellFormed) (a : Text) :
    (ofEntries g.adjacency).successors a = g.successors a := by
  rw [ofEntries_eq, successors_ofAdditions, filterMap_targetFrom,
    filter_edges hg.nodes_nodup, List.map_map]
  show ((g.successors a).map id).eraseDups = g.successors a
  rw [List.map_id, eraseDups_of_nodup (hg.successors_nodup a)]

theorem wellFormed_ofEntries (entries : Entries (List Text)) : (ofEntries entries).WellFormed := by
  rw [ofEntries_eq]
  exact (built_ofAdditions _).wellFormed

/-- Two graphs with the same edges have cycles or neither has. -/
theorem cycles_eq_nil_congr {h : Graph} (hg : g.WellFormed) (hh : h.WellFormed)
    (hedge : ∀ a b, h.Edge a b ↔ g.Edge a b) : h.cycles = [] ↔ g.cycles = [] := by
  have hsame : h.Edge = g.Edge := funext₂ fun a b => propext (hedge a b)
  rw [cycles_eq_nil_iff hh, cycles_eq_nil_iff hg, acyclic_iff, acyclic_iff, hsame]

/-- After some additions to the empty graph the nodes are the names that were mentioned and the
successors of a node the targets of the edges added from it, each once and in the order in which
they came first. The ends of the edges are nodes, and the edges are those added, listed and counted
once. The graph put together again from its entries has the same nodes and the same successors, and
it has cycles exactly if the first one has. -/
theorem graph_of_additions (additions : List Addition) :
    let g := ofAdditions additions
    let again := ofEntries g.adjacency
    g.nodes = (additions.flatMap Addition.mentioned).eraseDups ∧
    (∀ a, g.successors a = (additions.filterMap (Addition.targetFrom a)).eraseDups) ∧
    (∀ a b, g.hasEdge a b = true ↔ Addition.edge a b ∈ additions) ∧
    (∀ e, e ∈ g.edges ↔ g.hasEdge e.1 e.2 = true) ∧
    (∀ e ∈ g.edges, e.1 ∈ g.nodes ∧ e.2 ∈ g.nodes) ∧
    g.edges.Nodup ∧ g.edgeCount = g.edges.length ∧
    again.nodes.Perm g.nodes ∧ (∀ a, again.successors a = g.successors a) ∧
    (again.cycles = [] ↔ g.cycles = []) := by
  intro g again
  have hg : g.WellFormed := (built_ofAdditions additions).wellFormed
  have hagain : again.WellFormed := wellFormed_ofEntries g.adjacency
  have hedges : ∀ e, e ∈ g.edges ↔ g.Edge e.1 e.2 := fun e => mem_edges_iff hg.nodes_nodup
  refine ⟨nodes_ofAdditions additions, successors_ofAdditions additions,
    fun a b => edge_ofAdditions, hedges, fun e he => ?_,
    nodup_edges hg.nodes_nodup hg.successors_nodup, (length_edges g).symm, ?_,
    successors_ofEntries hg, cycles_eq_nil_congr hg hagain fun a b => ?_⟩
  · have hedge := (hedges e).mp he
    exact ⟨hg.source_mem hedge, hg.target_mem hedge⟩
  · exact (List.perm_ext_iff_of_nodup hagain.nodes_nodup hg.nodes_nodup).mpr fun a =>
      mem_nodes_ofEntries hg
  · rw [edge_iff, edge_iff, successors_ofEntries hg]

/-- The graph put together again may list its nodes in another order. -/
example :
    let g := ofAdditions [.node "a", .node "b", .edge "a" "c", .edge "a" "c"]
    g.nodes = (["a", "b", "c"] : List Text) ∧
      (ofEntries g.adjacency).nodes = (["a", "c", "b"] : List Text) := by
  decide

end Graph
end ModuleGraph
