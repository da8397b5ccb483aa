import ModuleGraph.Dependencies
import ModuleGraph.Proofs.Graph.Built
import ModuleGraph.Proofs.Value.Entries
import Mathlib.Data.List.Forall2
import Mathlib.Data.List.Induction

/-!
The graph of sources depends only on where their references lead.

* `graph_addReference`: a reference adds the edge to its target, if it has one;
* `foldl_link_insert`: a reference that is counted once adds as much as one that is repeated;
* `graph_ofSources_eq`: sources with the same targets have the same graph.
-/

namespace ModuleGraph

namespace Graph

variable {g : Graph} {a b source target : Text}

/-- The graph has an edge and its two ends. -/
structure Holds (g : Graph) (a b : Text) : Prop where
  source_mem : a ∈ g.nodes
  target_mem : b ∈ g.nodes
  edge : g.Edge a b

theorem holds_addEdge (g : Graph) (a b : Text) : (g.addEdge a b).Holds a b where
  source_mem := by simp [nodes_addEdge, mem_insertLast]
  target_mem := by simp [nodes_addEdge, mem_insertLast]
  edge := edge_addEdge.mpr (Or.inr ⟨rfl, rfl⟩)

theorem Holds.addEdge (h : g.Holds a b) (source target : Text) :
    (g.addEdge source target).Holds a b where
  source_mem := by simp [nodes_addEdge, mem_insertLast, h.source_mem]
  target_mem := by simp [nodes_addEdge, mem_insertLast, h.target_mem]
  edge := edge_addEdge.mpr (Or.inl h.edge)

/-- An edge that is there is not added again. -/
theorem Holds.addEdge_eq (h : g.Holds a b) : g.addEdge a b = g := by
  have hsource : g.addNode a = g := if_pos h.source_mem
  have htarget : g.addNode b = g := if_pos h.target_mem
  have hsuccessors : insertLast b (g.successors a) = g.successors a := if_pos (edge_iff.mp h.edge)
  have hget : Entries.get? a g.adjacency = some (g.successors a) := by
    obtain ⟨v, hv⟩ := (Entries.mem_keys_iff a g.adjacency).mp h.source_mem
    rw [successors, hv]
    rfl
  rw [Graph.addEdge, hsource, htarget, hsuccessors, Entries.put_get? hget]

end Graph

namespace Lookup

variable {l : Lookup} {file : Text} {g : Graph}

/-- The graph with an edge to the file that a reference leads to, if it leads to one. -/
def link (l : Lookup) (file : Text) (g : Graph) : Option Text → Graph
  | some path => g.addEdge (Path.absolute l.resolver.cwd file) (Path.absolute l.resolver.cwd path)
  | none => g

/-- The graph has all that a reference adds to it. -/
def Linked (l : Lookup) (file : Text) (g : Graph) : Option Text → Prop
  | some path => g.Holds (Path.absolute l.resolver.cwd file) (Path.absolute l.resolver.cwd path)
  | none => True

theorem linked_link (g : Graph) (t : Option Text) : l.Linked file (l.link file g t) t := by
  cases t with
  | none => trivial
  | some path => exact Graph.holds_addEdge g _ _

theorem Linked.link {t : Option Text} (h : l.Linked file g t) (u : Option Text) :
    l.Linked file (l.link file g u) t := by
  cases t with
  | none => trivial
  | some path =>
    cases u with
    | none => exact h
    | some other => exact h.addEdge _ _

theorem Linked.link_eq {t : Option Text} (h : l.Linked file g t) : l.link file g t = g := by
  cases t with
  | none => rfl
  | some path => exact h.addEdge_eq

/-- What a reference among others adds is there in the end. -/
theorem linked_foldl {α : Type} (target : α → Option Text) {rs : List α} {r : α} (hr : r ∈ rs)
    (g : Graph) : l.Linked file (rs.foldl (fun g r => l.link file g (target r)) g) (target r) := by
  induction rs using List.reverseRecOn with
  | nil => simp at hr
  | append_singleton rs last ih =>
    rw [List.foldl_append, List.foldl_cons, List.foldl_nil]
    rcases List.mem_append.mp hr with hr | hr
    · exact (ih hr).link _
    · rw [List.mem_singleton.mp hr]
      exact linked_link _ _

/-- References that are listed once add as much as those that are repeated. -/
theorem foldl_link_insert {α : Type} [DecidableEq α] (target : α → Option Text) (xs rs : List α)
    (g : Graph) :
    (xs.foldl (fun rs r => if r ∈ rs then rs else rs ++ [r]) rs).foldl
        (fun g r => l.link file g (target r)) g =
      xs.foldl (fun g r => l.link file g (target r))
        (rs.foldl (fun g r => l.link file g (target r)) g) := by
  induction xs generalizing rs with
  | nil => rfl
  | cons x xs ih =>
    rw [List.foldl_cons, List.foldl_cons, ih]
    congr 1
    split
    · rename_i hx
      exact (linked_foldl target hx g).link_eq.symm
    · rw [List.foldl_append]
      rfl

/-- What is external leads to no file. -/
theorem path_of_external {s : Text} (h : (l.resolve s file).category = .external) :
    (l.resolve s file).path = none := by
  unfold resolve Resolver.resolve at h ⊢
  dsimp only at h ⊢
  by_cases hc : l.resolver.classify s = .external
  · rw [if_pos hc]
  · rw [if_neg hc] at h
    split at h
    · exact absurd h hc
    · split at h
      · exact absurd h hc
      · exact absurd h hc

end Lookup

namespace Source

/-- What a source passes on, each time that it does so. -/
def exported (s : Source) : List Reference :=
  s.exports.filterMap fun e =>
    match e.kind, e.source with
    | .named, _ => none
    | _, some (c :: specifier) => some ⟨c :: specifier, e.line⟩
    | _, _ => none

/-- Two sources of one path whose references lead to the same files. -/
structure SameTargets (l : Lookup) (s t : Source) : Prop where
  path : t.path = s.path
  imports : List.Forall₂ (fun i j => l.targetOf s.path j.specifier = l.targetOf s.path i.specifier)
    s.imports t.imports
  exports : List.Forall₂ (fun e f => f.kind = e.kind ∧
    Option.Rel (fun u v => (v = [] ↔ u = []) ∧ l.targetOf s.path v = l.targetOf s.path u)
      e.source f.source) s.exports t.exports

/-- The files that imports lead to are filled in without a change to where they lead. -/
theorem SameTargets.resolveImports {l : Lookup} {s t : Source} (h : s.SameTargets l t) :
    (s.resolveImports l).SameTargets l (t.resolveImports l) where
  path := h.path
  imports := by
    rw [Source.resolveImports, Source.resolveImports, List.forall₂_map_left_iff,
      List.forall₂_map_right_iff]
    refine h.imports.imp fun i j hij => ?_
    dsimp only
    split <;> split <;> exact hij
  exports := h.exports

end Source

namespace Dependencies

variable {l : Lookup} {file : Text}

theorem graph_addReference (d : Dependencies) (r : Reference) :
    (addReference l file d r).graph = l.link file d.graph (l.targetOf file r.specifier) := by
  have hexternal := @Lookup.path_of_external l file r.specifier
  unfold addReference Lookup.targetOf
  generalize l.resolve r.specifier file = resolution at hexternal ⊢
  obtain ⟨category, path, reason⟩ := resolution
  cases category with
  | external =>
    obtain rfl : path = none := hexternal rfl
    rfl
  | relative => cases path <;> rfl
  | aliased => cases path <;> rfl

theorem graph_foldl_addReference (rs : List Reference) (d : Dependencies) :
    (rs.foldl (addReference l file) d).graph =
      rs.foldl (fun g r => l.link file g (l.targetOf file r.specifier)) d.graph := by
  induction rs generalizing d with
  | nil => rfl
  | cons r rs ih => rw [List.foldl_cons, List.foldl_cons, ih, graph_addReference]

/-- What a source adds to a graph, in terms of where its references lead. -/
theorem graph_addSource (d : Dependencies) (s : Source) :
    (addSource l d s).graph =
      ((s.imports.map fun i => l.targetOf s.path i.specifier) ++
        s.exported.map fun r => l.targetOf s.path r.specifier).foldl (l.link s.path) d.graph := by
  rw [addSource, graph_foldl_addReference, Source.references, List.foldl_append,
    List.foldl_append, List.foldl_map, List.foldl_map, List.foldl_map, Source.passedOn,
    Lookup.foldl_link_insert]
  rfl

theorem map_eq_of_forall₂ {α β : Type} {f : α → β} {xs ys : List α}
    (h : List.Forall₂ (fun x y => f y = f x) xs ys) : ys.map f = xs.map f := by
  induction h with
  | nil => rfl
  | cons hxy _ ih => rw [List.map_cons, List.map_cons, hxy, ih]

theorem targets_imports {s t : Source} (h : s.SameTargets l t) :
    (t.imports.map fun i => l.targetOf t.path i.specifier) =
      s.imports.map fun i => l.targetOf s.path i.specifier := by
  rw [h.path]
  exact map_eq_of_forall₂ h.imports

/-- Where what an export passes on comes from. -/
theorem targets_exported {s t : Source} (h : s.SameTargets l t) :
    (t.exported.map fun r => l.targetOf t.path r.specifier) =
      s.exported.map fun r => l.targetOf s.path r.specifier := by
  have hreferences : List.Forall₂ (fun q r : Reference =>
      l.targetOf s.path r.specifier = l.targetOf s.path q.specifier) s.exported t.exported := by
    refine List.rel_filterMap ?_ h.exports
    rintro ⟨_, kind, _, source, _⟩ ⟨_, kind', _, source', _⟩ ⟨hkind, hsource⟩
    dsimp only at hkind hsource ⊢
    subst hkind
    cases hsource with
    | none => cases kind' <;> exact .none
    | @some u v huv =>
      obtain ⟨hnil, htarget⟩ := huv
      cases u with
      | nil =>
        obtain rfl := hnil.mpr rfl
        cases kind' <;> exact .none
      | cons x u =>
        obtain ⟨y, v, rfl⟩ := List.exists_cons_of_ne_nil (mt hnil.mp (List.cons_ne_nil x u))
        cases kind' with
        | named => exact .none
        | reexport => exact .some htarget
        | namespaceAll => exact .some htarget
  rw [h.path]
  exact map_eq_of_forall₂ hreferences

theorem graph_addSource_eq {s t : Source} (h : s.SameTargets l t) {d e : Dependencies}
    (hd : e.graph = d.graph) : (addSource l e t).graph = (addSource l d s).graph := by
  rw [graph_addSource, graph_addSource, hd, targets_imports h, targets_exported h, h.path]

/-- Sources with the same targets have the same graph. -/
theorem graph_ofSources_eq {ss ts : List Source}
    (h : List.Forall₂ (Source.SameTargets l) ss ts) :
    (ofSources l ts).graph = (ofSources l ss).graph := by
  have hfiles : ∀ g : Graph,
      ts.foldl (fun g s => g.addNode (Path.absolute l.resolver.cwd s.path)) g =
        ss.foldl (fun g s => g.addNode (Path.absolute l.resolver.cwd s.path)) g := by
    induction h with
    | nil => exact fun _ => rfl
    | cons hst _ ih =>
      intro g
      rw [List.foldl_cons, List.foldl_cons, hst.path, ih]
  have hfold : ∀ d e : Dependencies, e.graph = d.graph →
      (ts.foldl (addSource l) e).graph = (ss.foldl (addSource l) d).graph := by
    clear hfiles
    induction h with
    | nil => exact fun _ _ hd => hd
    | cons hst _ ih => exact fun d e hd => ih _ _ (graph_addSource_eq hst hd)
  exact hfold _ _ (hfiles _)

end Dependencies
end ModuleGraph
