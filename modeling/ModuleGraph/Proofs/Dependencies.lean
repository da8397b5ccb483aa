import ModuleGraph.Analysis.Basic
import ModuleGraph.Proofs.Graph.Built
import ModuleGraph.Proofs.Session

/-!
The graph of an analysis is built by additions of nodes and edges.
-/

namespace ModuleGraph
namespace Dependencies

theorem built_filesOnly (cwd : Text) (sources : List Source) :
    (filesOnly cwd sources).graph.Built := by
  have h : ∀ g : Graph, g.Built →
      (sources.foldl (fun g s => g.addNode (Path.absolute cwd s.path)) g).Built := by
    induction sources with
    | nil => exact fun _ hg => hg
    | cons s sources ih => exact fun g hg => ih _ (hg.addNode _)
  exact h _ .empty

theorem built_addReference {d : Dependencies} (h : d.graph.Built) (l : Lookup) (file : Text)
    (r : Reference) : (addReference l file d r).graph.Built := by
  unfold addReference
  dsimp only
  split
  · exact h
  · exact h.addEdge _ _
  · exact h

theorem built_addSource {d : Dependencies} (h : d.graph.Built) (l : Lookup) (s : Source) :
    (addSource l d s).graph.Built := by
  unfold addSource
  induction s.references generalizing d with
  | nil => exact h
  | cons r rs ih => exact ih (built_addReference h l s.path r)

/-- Whatever the sources are, their graph is built by additions. -/
theorem built_ofSources (l : Lookup) (sources : List Source) :
    (ofSources l sources).graph.Built := by
  have h : ∀ d : Dependencies, d.graph.Built → (sources.foldl (addSource l) d).graph.Built := by
    induction sources with
    | nil => exact fun _ hd => hd
    | cons s sources ih => exact fun d hd => ih _ (built_addSource hd l s)
  exact h _ (built_filesOnly l.resolver.cwd sources)

end Dependencies

namespace Analysis

end Analysis
end ModuleGraph
