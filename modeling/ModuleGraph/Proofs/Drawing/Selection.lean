import ModuleGraph.Drawing.Selection
import ModuleGraph.Proofs.Graph.Once

/-!
What is drawn of a graph.

* `includes_iff`: the search in a name, by what it stands for;
* `ofGraph_unfocused`, `ofGraph_focused`: without a node that holds the text the whole graph is
  drawn, else the part around these nodes;
* `mem_edges_ofGraph`, `mem_nodes_ofGraph`: the edges that touch such a node, and those nodes with
  their neighbours;
* `ends_mem_nodes`: the ends of an edge that is drawn are drawn;
* `contains_allEdges`: an edge is looked up among the edges of all cycles.
-/

namespace ModuleGraph

namespace Text

theorem includes_iff {part t : Text} : includes part t = true ↔ part <:+: t := by
  induction t with
  | nil => simp [includes]
  | cons c t ih => simp [includes, List.infix_cons_iff, ih]

theorem mem_sorted {t : Text} {ts : List Text} : t ∈ sorted ts ↔ t ∈ ts := List.mem_mergeSort

end Text

namespace Graph

variable {g : Graph} {a b focus n : Text} {e : Text × Text}

/-- A node whose name holds a text. -/
structure Matches (g : Graph) (focus n : Text) : Prop where
  mem_nodes : n ∈ g.nodes
  holds : focus <:+: n

/-- The nodes whose names hold a text. -/
def inFocus (g : Graph) (focus : Text) : List Text := g.nodes.filter (Text.includes focus)

theorem mem_inFocus : n ∈ g.inFocus focus ↔ g.Matches focus n := by
  rw [inFocus, List.mem_filter, Text.includes_iff]
  exact ⟨fun h => ⟨h.1, h.2⟩, fun h => ⟨h.mem_nodes, h.holds⟩⟩

theorem inFocus_eq_nil : g.inFocus focus = [] ↔ ∀ n, ¬ g.Matches focus n := by
  rw [List.eq_nil_iff_forall_not_mem]
  simp only [mem_inFocus]

/-- Every name holds the empty text. -/
theorem matches_nil : g.Matches [] n ↔ n ∈ g.nodes :=
  ⟨fun h => h.mem_nodes, fun h => ⟨h, List.nil_infix⟩⟩

end Graph

namespace Selection

open ModuleGraph.Graph

variable {g : Graph} {focus n : Text} {e : Text × Text}

theorem touches_inFocus :
    touches (g.inFocus focus) e = true ↔ g.Matches focus e.1 ∨ g.Matches focus e.2 := by
  simp [touches, mem_inFocus]

theorem ofGraph_unfocused (h : focus = [] ∨ ∀ n, ¬ g.Matches focus n) :
    ofGraph g focus = ⟨g.nodes, g.edges⟩ := by
  have hcond : (focus.isEmpty || (g.inFocus focus).isEmpty) = true := by
    rcases h with rfl | h
    · rfl
    · simp [inFocus_eq_nil.mpr h]
  exact if_pos hcond

theorem ofGraph_focused (hne : focus ≠ []) (hn : g.Matches focus n) :
    ofGraph g focus =
      let edges := g.edges.filter (touches (g.inFocus focus))
      ⟨Text.sorted (g.inFocus focus ++ edges.flatMap fun (a, b) => [a, b]).eraseDups, edges⟩ := by
  have hmem := List.ne_nil_of_mem (mem_inFocus.mpr hn)
  have hcond : ¬ (focus.isEmpty || (g.inFocus focus).isEmpty) = true := by
    simp [hne, hmem]
  exact if_neg hcond

section

variable (hg : g.WellFormed)
include hg

theorem edge_of_mem_edges (h : e ∈ (ofGraph g focus).edges) : g.Edge e.1 e.2 := by
  apply (mem_edges_iff hg.nodes_nodup).mp
  by_cases hfocus : focus = [] ∨ ∀ n, ¬ g.Matches focus n
  · rwa [ofGraph_unfocused hfocus] at h
  · simp only [not_or, not_forall, not_not] at hfocus
    obtain ⟨hne, n, hn⟩ := hfocus
    rw [ofGraph_focused hne hn] at h
    exact (List.mem_filter.mp h).1

/-- The edges that are drawn around some nodes are those that touch one of them. -/
theorem mem_edges_ofGraph (hn : g.Matches focus n) :
    e ∈ (ofGraph g focus).edges ↔
      e ∈ g.edges ∧ (g.Matches focus e.1 ∨ g.Matches focus e.2) := by
  by_cases hne : focus = []
  · subst hne
    rw [ofGraph_unfocused (Or.inl rfl)]
    constructor
    · intro he
      exact ⟨he, Or.inl (matches_nil.mpr (hg.source_mem ((mem_edges_iff hg.nodes_nodup).mp he)))⟩
    · exact And.left
  · rw [ofGraph_focused hne hn]
    exact List.mem_filter.trans (and_congr_right fun _ => touches_inFocus)

/-- The nodes that are drawn around some nodes are these and their neighbours. -/
theorem mem_nodes_ofGraph {m : Text} (hm : g.Matches focus m) :
    n ∈ (ofGraph g focus).nodes ↔
      g.Matches focus n ∨ ∃ m, g.Matches focus m ∧ (g.Edge m n ∨ g.Edge n m) := by
  by_cases hne : focus = []
  · subst hne
    rw [ofGraph_unfocused (Or.inl rfl)]
    constructor
    · exact fun hn => Or.inl (matches_nil.mpr hn)
    · rintro (hn | ⟨m, -, he | he⟩)
      · exact hn.mem_nodes
      · exact hg.target_mem he
      · exact hg.source_mem he
  · have hends : n ∈ (g.edges.filter (touches (g.inFocus focus))).flatMap (fun (a, b) => [a, b]) ↔
        ∃ e : Text × Text, g.Edge e.1 e.2 ∧ (g.Matches focus e.1 ∨ g.Matches focus e.2) ∧
          (n = e.1 ∨ n = e.2) := by
      simp [List.mem_flatMap, List.mem_filter, mem_edges_iff hg.nodes_nodup, touches_inFocus,
        and_assoc]
    rw [ofGraph_focused hne hm]
    dsimp only
    rw [Text.mem_sorted, List.mem_eraseDups, List.mem_append, mem_inFocus, hends]
    constructor
    · rintro (hn | ⟨⟨a, b⟩, he, hmatch, rfl | rfl⟩)
      · exact Or.inl hn
      · exact hmatch.imp_right fun hb => ⟨b, hb, Or.inr he⟩
      · exact hmatch.symm.imp_right fun ha => ⟨a, ha, Or.inl he⟩
    · rintro (hn | ⟨m, hmatch, he | he⟩)
      · exact Or.inl hn
      · exact Or.inr ⟨(m, n), he, Or.inl hmatch, Or.inr rfl⟩
      · exact Or.inr ⟨(n, m), he, Or.inr hmatch, Or.inl rfl⟩

/-- The ends of the edges that are drawn are among the nodes that are drawn. -/
theorem ends_mem_nodes (h : e ∈ (ofGraph g focus).edges) :
    e.1 ∈ (ofGraph g focus).nodes ∧ e.2 ∈ (ofGraph g focus).nodes := by
  have he := edge_of_mem_edges hg h
  by_cases hfocus : ∃ n, g.Matches focus n
  · obtain ⟨n, hn⟩ := hfocus
    obtain ⟨-, hmatch⟩ := (mem_edges_ofGraph hg hn).mp h
    rw [mem_nodes_ofGraph hg hn, mem_nodes_ofGraph hg hn]
    rcases hmatch with hmatch | hmatch
    · exact ⟨Or.inl hmatch, Or.inr ⟨e.1, hmatch, Or.inl he⟩⟩
    · exact ⟨Or.inr ⟨e.2, hmatch, Or.inr he⟩, Or.inl hmatch⟩
  · rw [ofGraph_unfocused (Or.inr (not_exists.mp hfocus))]
    exact ⟨hg.source_mem he, hg.target_mem he⟩

end

end Selection

namespace Cycle

variable {cycles : List Cycle} {e : Text × Text}

/-- The edge lies on one of the cycles. -/
def OnOne (cycles : List Cycle) (e : Text × Text) : Prop := ∃ c ∈ cycles, e ∈ c.edges

instance (cycles : List Cycle) (e : Text × Text) : Decidable (OnOne cycles e) :=
  inferInstanceAs (Decidable (∃ c ∈ cycles, e ∈ c.edges))

theorem mem_allEdges : e ∈ allEdges cycles ↔ OnOne cycles e := by
  rw [allEdges, List.mem_eraseDups, List.mem_flatMap, OnOne]

theorem contains_allEdges : (allEdges cycles).contains e = decide (OnOne cycles e) := by
  rw [List.contains_eq_mem, decide_eq_decide]
  exact mem_allEdges

end Cycle
end ModuleGraph
