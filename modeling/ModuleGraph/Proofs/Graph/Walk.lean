import ModuleGraph.Graph.Cycle
import ModuleGraph.Proofs.Graph.Built
import Mathlib.Data.List.Chain

/-!
Closed walks along the edges of a graph.

* `IsWalk.reaches`: the nodes of a closed walk reach each other, so they lie in one strongly
  connected component;
* `IsWalk.exists_not_descending`: no number given to the nodes falls along every edge of a closed
  walk;
* `ring_perm`: a ring has the nodes of the open part of its walk;
* `acyclic_iff`: no closed walk means that no node leads back to itself.
-/

namespace ModuleGraph

theorem isChain_iff_forall_zip_tail {R : Text → Text → Prop} {nodes : List Text} :
    nodes.IsChain R ↔ ∀ e ∈ nodes.zip nodes.tail, R e.1 e.2 := by
  induction nodes with
  | nil => simp
  | cons a rest ih =>
    cases rest with
    | nil => simp
    | cons b rest => simp_all [List.isChain_cons_cons]

namespace Cycle

/-- A walk along the edges of a graph, of one edge at least, that ends where it starts. -/
structure IsWalk (g : Graph) (c : Cycle) : Prop where
  two_le_length : 2 ≤ c.nodes.length
  closed : c.nodes.head? = c.nodes.getLast?
  isChain : c.nodes.IsChain g.Edge

/-- A closed walk that meets no node twice but the one where it starts and ends. -/
structure IsSimple (g : Graph) (c : Cycle) : Prop extends c.IsWalk g where
  nodup : c.nodes.dropLast.Nodup

/-- The last edge of a cycle, from the second-to-last node to the last. -/
def closingEdge (c : Cycle) : Option (Text × Text) := c.edges.getLast?

/-- The walk from `a` along `rest` and back to `a`. -/
theorem eq_cons_concat {c : Cycle} (hl : 2 ≤ c.nodes.length)
    (hc : c.nodes.head? = c.nodes.getLast?) :
    ∃ a rest, c.nodes = a :: (rest ++ [a]) := by
  obtain ⟨nodes⟩ := c
  cases nodes with
  | nil => simp at hl
  | cons a rest =>
    rcases List.eq_nil_or_concat rest with rfl | ⟨front, b, rfl⟩
    · simp at hl
    · refine ⟨a, front, ?_⟩
      have hb : b = a := by simpa [List.getLast?_cons] using hc.symm
      rw [hb]
      simp

/-- A closed walk is known by its open part. -/
theorem eq_of_dropLast_eq {g : Graph} {c d : Cycle} (hc : c.IsWalk g) (hd : d.IsWalk g)
    (h : c.nodes.dropLast = d.nodes.dropLast) : c = ⟨d.nodes⟩ := by
  obtain ⟨a, front, ha⟩ := eq_cons_concat hc.two_le_length hc.closed
  obtain ⟨b, back, hb⟩ := eq_cons_concat hd.two_le_length hd.closed
  rw [ha, hb, ← List.cons_append, ← List.cons_append, List.dropLast_concat,
    List.dropLast_concat] at h
  obtain ⟨rfl, rfl⟩ := List.cons_eq_cons.mp h
  rw [hb, ← ha]

theorem mem_edges_edge {g : Graph} {c : Cycle} (h : c.nodes.IsChain g.Edge) {e : Text × Text}
    (he : e ∈ c.edges) : g.Edge e.1 e.2 := isChain_iff_forall_zip_tail.mp h e he

theorem mem_nodes_of_mem_edges {c : Cycle} {e : Text × Text} (he : e ∈ c.edges) :
    e.1 ∈ c.nodes ∧ e.2 ∈ c.nodes := by
  obtain ⟨h1, h2⟩ := List.of_mem_zip (show (e.1, e.2) ∈ c.nodes.zip c.nodes.tail from he)
  exact ⟨h1, List.mem_of_mem_tail h2⟩

theorem closingEdge_mem {c : Cycle} {e : Text × Text} (h : c.closingEdge = some e) :
    e ∈ c.edges := List.mem_of_getLast? h

theorem edges_concat (front : List Text) (a b : Text) :
    edges ⟨front ++ [a, b]⟩ = edges ⟨front ++ [a]⟩ ++ [(a, b)] := by
  induction front with
  | nil => rfl
  | cons x front ih =>
    cases front with
    | nil => rfl
    | cons y front => simpa [edges] using ih

theorem closingEdge_concat (front : List Text) (a b : Text) :
    closingEdge ⟨front ++ [a, b]⟩ = some (a, b) := by
  rw [closingEdge, edges_concat, List.getLast?_append]
  rfl

/-- Every node of a walk leads to those after it. -/
theorem IsWalk.pairwise {g : Graph} {c : Cycle} (h : c.IsWalk g) :
    c.nodes.Pairwise (Relation.TransGen g.Edge) :=
  (h.isChain.imp fun _ _ e => Relation.TransGen.single e).pairwise

/-- Any two nodes of a closed walk reach each other. -/
theorem IsWalk.reaches {g : Graph} {c : Cycle} (h : c.IsWalk g) {a b : Text} (ha : a ∈ c.nodes)
    (hb : b ∈ c.nodes) : Relation.ReflTransGen g.Edge a b := by
  obtain ⟨first, rest, hn⟩ := eq_cons_concat h.two_le_length h.closed
  have hp := h.pairwise
  rw [hn, List.pairwise_cons, List.pairwise_append] at hp
  obtain ⟨hfirst, _, _, hlast⟩ := hp
  have hto : Relation.ReflTransGen g.Edge a first := by
    rw [hn, List.mem_cons, List.mem_append, List.mem_singleton] at ha
    rcases ha with rfl | ha | rfl
    · exact .refl
    · exact (hlast a ha first (by simp)).to_reflTransGen
    · exact .refl
  have hfrom : Relation.ReflTransGen g.Edge first b := by
    rw [hn, List.mem_cons] at hb
    rcases hb with rfl | hb
    · exact .refl
    · exact (hfirst b hb).to_reflTransGen
  exact hto.trans hfrom

/-- No number given to the nodes falls along all edges of a closed walk. -/
theorem IsWalk.exists_not_descending {g : Graph} {c : Cycle} (h : c.IsWalk g) (rank : Text → Nat) :
    ∃ e ∈ c.edges, ¬ rank e.2 < rank e.1 := by
  by_contra hall
  have hd : ∀ e ∈ c.edges, rank e.2 < rank e.1 := by
    intro e he
    by_contra hlt
    exact hall ⟨e, he, hlt⟩
  have hchain : c.nodes.IsChain (fun a b => rank b < rank a) :=
    isChain_iff_forall_zip_tail.mpr hd
  have : Trans (fun a b => rank b < rank a) (fun a b => rank b < rank a)
      (fun a b => rank b < rank a) := ⟨fun h₁ h₂ => Nat.lt_trans h₂ h₁⟩
  have hp := hchain.pairwise
  obtain ⟨a, rest, hn⟩ := eq_cons_concat h.two_le_length h.closed
  rw [hn, List.pairwise_cons] at hp
  exact Nat.lt_irrefl _ (hp.1 a (by simp))

/-- Turning a ring only changes the order of its nodes. -/
theorem ring_perm (nodes : List Text) : (ring nodes).Perm nodes.dropLast := by
  unfold ring
  exact List.perm_append_comm.trans (.of_eq (List.take_append_drop _ _))

end Cycle

namespace Graph

/-- A graph without closed walks. -/
def Acyclic (g : Graph) : Prop := ∀ c : Cycle, ¬ c.IsWalk g

/-- An edge whose target leads back to its source is on a closed walk. -/
theorem exists_isWalk {g : Graph} {a b : Text} (he : g.Edge a b)
    (hback : Relation.ReflTransGen g.Edge b a) : ∃ w : Cycle, w.IsWalk g ∧ (a, b) ∈ w.edges := by
  obtain ⟨nodes, hchain, hlast⟩ := List.exists_isChain_cons_of_relationReflTransGen hback
  refine ⟨⟨a :: b :: nodes⟩, ⟨by simp, ?_, .cons_cons he hchain⟩, by simp [Cycle.edges]⟩
  rw [List.getLast?_cons_cons, List.getLast?_eq_some_getLast (List.cons_ne_nil b nodes), hlast]
  rfl

/-- A graph has no closed walk exactly if its edges lead from no node back to it. -/
theorem acyclic_iff {g : Graph} : g.Acyclic ↔ ∀ a, ¬ Relation.TransGen g.Edge a a := by
  constructor
  · intro h a hback
    obtain ⟨b, hab, hba⟩ := Relation.TransGen.head'_iff.mp hback
    obtain ⟨w, hw, -⟩ := exists_isWalk hab hba
    exact h w hw
  · intro h c hw
    obtain ⟨a, rest, hn⟩ := Cycle.eq_cons_concat hw.two_le_length hw.closed
    have hp := hw.pairwise
    rw [hn, List.pairwise_cons] at hp
    exact h a (hp.1 a (by simp))

/-- The graph without some of its edges. -/
def without (g : Graph) (removed : List (Text × Text)) : Graph :=
  ⟨g.adjacency.map fun (source, targets) =>
    (source, targets.filter fun target => (source, target) ∉ removed)⟩

end Graph
end ModuleGraph
