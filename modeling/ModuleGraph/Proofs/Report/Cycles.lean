import ModuleGraph.Proofs.Accounts
import ModuleGraph.Proofs.Dependencies
import ModuleGraph.Proofs.Graph.Edges
import ModuleGraph.Proofs.Path.Display
import ModuleGraph.Report.Cycles

/-!
The graph in the report on cycles.

* `Dependencies.isNormal_of_mem_nodes`, `Dependencies.isNormal_of_mem_successors`: modules are paths
  in normal form;
* `graph_recovered`: every module has an entry of its own in the report, and the graph can be read
  off the report again.
-/

namespace ModuleGraph

/-- The targets of a node are those that stand in its entry. -/
theorem Graph.WellFormed.successors_eq {g : Graph} (h : g.WellFormed) {e : Text × List Text}
    (he : e ∈ g.adjacency) : g.successors e.1 = e.2 := successors_eq_of_mem h.nodes_nodup he

namespace Dependencies

variable {l : Lookup} {sources : List Source} {n m : Text}

/-- The modules of a graph are paths in normal form. -/
theorem isNormal_of_mem_nodes (hcwd : Path.isAbsolute l.resolver.cwd = true)
    (hn : n ∈ (ofSources l sources).graph.nodes) : Path.IsNormal n := by
  rw [(accounts_ofSources l sources).nodes, List.mem_eraseDups, List.mem_append] at hn
  rcases hn with hn | hn
  · obtain ⟨source, -, rfl⟩ := List.mem_map.mp hn
    exact Path.isNormal_absolute hcwd source.path
  · obtain ⟨x, -, hnode⟩ := List.mem_filterMap.mp hn
    obtain ⟨target, -, rfl⟩ := Option.map_eq_some_iff.mp hnode
    exact Path.isNormal_absolute hcwd target

/-- So are their targets. -/
theorem isNormal_of_mem_successors (hcwd : Path.isAbsolute l.resolver.cwd = true)
    (hm : m ∈ (ofSources l sources).graph.successors n) : Path.IsNormal m :=
  isNormal_of_mem_nodes hcwd
    ((built_ofSources l sources).wellFormed.target_mem (Graph.edge_iff.mpr hm))

end Dependencies

namespace CycleReport

variable {l : Lookup} {sources : List Source} {root : Text}

section Shown

variable (hcwd : Path.isAbsolute l.resolver.cwd = true)
include hcwd

theorem nodup_shown : ((Dependencies.ofSources l sources).graph.nodes.map (shown root)).Nodup := by
  refine List.Nodup.map_on ?_ (Dependencies.built_ofSources l sources).wellFormed.nodes_nodup
  intro a ha b hb h
  exact Path.display_injective (Dependencies.isNormal_of_mem_nodes hcwd ha)
    (Dependencies.isNormal_of_mem_nodes hcwd hb) h

/-- Every module keeps its own entry when it is shown. -/
theorem shownGraph_eq :
    shownGraph root (Dependencies.ofSources l sources).graph =
      (Dependencies.ofSources l sources).graph.adjacency.map fun (node, targets) =>
        (shown root node, targets.map (shown root)) := by
  refine Entries.ofList_of_nodup ?_
  have hkeys : ((Dependencies.ofSources l sources).graph.nodes.map (shown root)).Nodup :=
    nodup_shown hcwd
  rw [Graph.nodes, Entries.keys, List.map_map] at hkeys
  rw [Entries.keys, List.map_map]
  exact hkeys

end Shown

/-- Two paths in normal form that are shown alike are the same. So the report on an analysis has one
entry for each module, which lists the targets of the module in their order, and when every path in
it is read back the graph is there again. -/
theorem graph_recovered :
    (∀ (base : Option Text) (p q : Text), Path.IsNormal p → Path.IsNormal q →
      Path.display p base = Path.display q base → p = q) ∧
    ∀ (l : Lookup) (root : Text) (sources : List Source) (skipped : List Text) (top : Int),
      Path.isAbsolute l.resolver.cwd = true →
      let a := Analysis.ofSources l root sources skipped
      let g := a.dependencies.graph
      let report := ofAnalysis a top
      Entries.get? "dependency_graph" report.summaryEntries =
        some (.table (report.graph.map fun (node, targets) => (node, Document.texts targets))) ∧
      (Entries.keys report.graph).Nodup ∧
      report.graph.length = g.nodes.length ∧
      (∀ node ∈ g.nodes, Entries.get? (Path.display node (some root)) report.graph =
        some ((g.successors node).map fun target => Path.display target (some root))) ∧
      (report.graph.map fun (node, targets) =>
        (Path.whole node (some root), targets.map fun target => Path.whole target (some root))) =
          g.adjacency := by
  refine ⟨fun base p q hp hq h => Path.display_injective hp hq h,
    fun l root sources skipped top hcwd => ?_⟩
  intro a g report
  have hgraph : report.graph = g.adjacency.map fun (node, targets) =>
      (shown root node, targets.map (shown root)) := shownGraph_eq hcwd
  have hkeys : Entries.keys report.graph = g.nodes.map (shown root) := by
    rw [hgraph, Entries.keys, List.map_map, Graph.nodes, Entries.keys, List.map_map]
    rfl
  have hnodup : (Entries.keys report.graph).Nodup := by
    rw [hkeys]
    exact nodup_shown hcwd
  have hgood : g.WellFormed := (Dependencies.built_ofSources l sources).wellFormed
  refine ⟨rfl, hnodup, ?_, fun node hnode => ?_, ?_⟩
  · rw [hgraph, List.length_map, Graph.nodes, Entries.keys, List.length_map]
  · obtain ⟨e, he, rfl⟩ := List.mem_map.mp hnode
    refine Entries.get?_of_mem hnodup ?_
    rw [hgraph, hgood.successors_eq he]
    exact List.mem_map_of_mem he
  · rw [hgraph, List.map_map]
    refine (List.map_congr_left fun e he => ?_).trans (List.map_id _)
    have hnode : Path.IsNormal e.1 :=
      Dependencies.isNormal_of_mem_nodes hcwd (List.mem_map_of_mem he)
    have hback : (e.2.map (shown root)).map (fun target => Path.whole target (some root)) =
        e.2 := by
      rw [List.map_map, ← hgood.successors_eq he]
      refine (List.map_congr_left fun target htarget => ?_).trans (List.map_id _)
      exact Path.whole_display (Dependencies.isNormal_of_mem_successors hcwd htarget) (some root)
    exact Prod.ext (Path.whole_display hnode (some root)) hback

/-- Two sources whose paths differ by a slash in front, each with a reference to the file beside
it. -/
def doubledSources : List Source := [
  ⟨"/p/a.ts", [], [{ specifier := "./b", line := 1, kind := .static, category := .relative }], []⟩,
  ⟨"//p/a.ts", [], [{ specifier := "./b", line := 1, kind := .static, category := .relative }], []⟩]

def doubledLookup : Lookup where
  resolver := .ofEntries "/" [] Resolver.defaultSuffixes
  isFile p := p == ("/p/b.ts" : Text) || p == ("//p/b.ts" : Text)

theorem graph_recovered_doubled :
    let a := Analysis.ofSources doubledLookup "/" doubledSources []
    let report := ofAnalysis a 5
    Path.IsNormal "/p" ∧ Path.IsNormal "//p" ∧
      Path.display "/p" (some "/") ≠ Path.display "//p" (some "/") ∧
      Path.isAbsolute doubledLookup.resolver.cwd = true ∧
      Entries.keys report.graph = (["p/a.ts", "/p/a.ts", "p/b.ts", "/p/b.ts"] : List Text) ∧
      (Entries.keys report.graph).Nodup ∧
      (report.graph.map fun (node, targets) =>
        (Path.whole node (some "/"), targets.map fun target => Path.whole target (some "/"))) =
          a.dependencies.graph.adjacency := by
  have hone : Path.IsNormal "/p" := ⟨by decide, by decide⟩
  have htwo : Path.IsNormal "//p" := ⟨by decide, by decide⟩
  have hcwd : Path.isAbsolute doubledLookup.resolver.cwd = true := by decide
  obtain ⟨hinjective, hreport⟩ := graph_recovered
  obtain ⟨-, hkeys, -, -, hback⟩ := hreport doubledLookup "/" doubledSources [] 5 hcwd
  refine ⟨hone, htwo, fun h => ?_, hcwd, by decide +kernel, hkeys, hback⟩
  exact absurd (hinjective (some "/") "/p" "//p" hone htwo h) (by decide)

end CycleReport
end ModuleGraph
