import ModuleGraph.Proofs.Graph.Cycles
import ModuleGraph.Proofs.Graph.Edges
import ModuleGraph.Proofs.Graph.Rings
import ModuleGraph.Proofs.Resolver

/-!
The search finds no ring twice, so it need not look whether it found one before.

* `stepWith`, `completeWith`: the search with another way to close a cycle; `closeAlways` closes
  it without a look at the rings found before;
* `Reached`: the states that the search goes through;
* `Once`: the edges that closed the cycles found have been looked at, and no two are the same;
* `Reached.ring_new`: so an edge into a grey node always closes a new ring;
* `cycles_once`: hence both searches are the same, no two cycles are rotations of each other or
  have one closing edge, and there are at most as many cycles as edges.
-/

namespace ModuleGraph
namespace Search

variable {g : Graph} {s : Search} {node target : Text} {top : Frame} {below : List Frame}

section With

variable (close : Text → Search → Search) (g : Graph)

/-- One round of a search that closes cycles by `close`. -/
def stepWith (s : Search) : Search :=
  match s.stack with
  | [] => s
  | top :: below =>
    match top.targets[top.index]? with
    | none => s.leave top.node below
    | some target =>
      let s := s.advance top below
      match s.colourOf target with
      | .grey => close target s
      | .white => s.enter g target
      | .black => s

/-- Rounds until the stack is empty. -/
def runWith : (rounds : Nat) → Search → Search
  | 0, s => s
  | rounds + 1, s => if s.stack.isEmpty then s else runWith rounds (stepWith close g s)

/-- The search from one root. -/
def visitRootWith (s : Search) (root : Text) : Search :=
  if s.colourOf root = .white then
    runWith close g (g.nodes.length + g.edgeCount)
      (({ s with path := [], position := [] } : Search).enter g root)
  else s

/-- The search from every node. -/
def completeWith : Search := g.nodes.foldl (visitRootWith close g) (start g)

end With

/-- An edge into the grey node `target` closes a cycle, whatever rings were found before. -/
def closeAlways (target : Text) (s : Search) : Search :=
  { s with
    cycles := s.cycles ++ [⟨s.closedNodes target⟩]
    rings := Cycle.ring (s.closedNodes target) :: s.rings }

theorem runWith_close (g : Graph) (rounds : Nat) (s : Search) :
    runWith close g rounds s = run g rounds s := by
  induction rounds generalizing s with
  | zero => rfl
  | succ rounds ih => rw [runWith, run, ih]; rfl

theorem completeWith_close (g : Graph) : completeWith close g = complete g := by
  have hroot : visitRootWith close g = visitRoot g := by
    funext s root
    rw [visitRootWith, visitRoot, runWith_close]
  rw [completeWith, complete, hroot]

/-- The states that the search goes through, root by root and round by round. -/
inductive Reached (g : Graph) : Search → Prop
  | start : Reached g (start g)
  | root {s : Search} {root : Text} (h : Reached g s) (hs : s.stack = [])
      (hw : s.colourOf root = .white) (hn : root ∈ g.nodes) :
      Reached g (({ s with path := [], position := [] } : Search).enter g root)
  | step {s : Search} (h : Reached g s) : Reached g (s.step g)

theorem Reached.inv (hg : g.WellFormed) (h : Reached g s) : Inv g none s := by
  induction h with
  | start => exact inv_start g
  | root _ hs hw hn ih => exact ih.enter_root hs hw hn
  | step _ ih => exact ih.step hg

theorem Reached.run (h : Reached g s) (rounds : Nat) : Reached g (Search.run g rounds s) :=
  run_of_step (P := Reached g) (fun _ => Reached.step) h rounds

/-- The closing edges of the cycles found have been looked at: the node that such an edge comes
from is done, or is on the stack with the other node among the successors looked at. And no two
cycles found have one closing edge. -/
structure Once (s : Search) : Prop where
  looked : ∀ e ∈ s.closing, s.colourOf e.1 = .black ∨
    ∃ f ∈ s.stack, f.node = e.1 ∧ e.2 ∈ f.targets.take f.index
  nodup : s.closing.Nodup

theorem Once.leave (h : Once s) (hs : s.stack = top :: below) :
    Once (s.leave top.node below) where
  looked e he := by
    rw [colourOf_leave]
    by_cases hn : e.1 = top.node
    · exact Or.inl (if_pos hn)
    · rw [if_neg hn]
      refine (h.looked e he).imp id ?_
      rintro ⟨f, hf, hfe, htake⟩
      rw [hs] at hf
      rcases List.mem_cons.mp hf with rfl | hf
      · exact absurd hfe.symm hn
      · exact ⟨f, hf, hfe, htake⟩
  nodup := h.nodup

theorem Once.advance (h : Once s) (hs : s.stack = top :: below) :
    Once (s.advance top below) where
  looked e he := by
    refine (h.looked e he).imp id ?_
    rintro ⟨f, hf, hfe, htake⟩
    rw [hs] at hf
    rcases List.mem_cons.mp hf with rfl | hf
    · refine ⟨{ f with index := f.index + 1 }, List.mem_cons_self, hfe, ?_⟩
      exact List.take_subset_take_left _ (Nat.le_succ _) htake
    · exact ⟨f, List.mem_cons_of_mem _ hf, hfe, htake⟩
  nodup := h.nodup

theorem Once.enter (h : Once s) (hw : s.colourOf node = .white) : Once (s.enter g node) where
  looked e he := by
    rcases h.looked e he with hb | ⟨f, hf, hfe, htake⟩
    · refine Or.inl ?_
      rw [colourOf_enter, if_neg, hb]
      intro hn
      rw [← hn, hb] at hw
      cases hw
    · exact Or.inr ⟨f, List.mem_cons_of_mem _ hf, hfe, htake⟩
  nodup := h.nodup

/-- The edge has been looked at: its source is done, or is on the stack with the target among the
successors looked at. -/
def Looked (s : Search) (a b : Text) : Prop :=
  s.colourOf a = .black ∨ ∃ f ∈ s.stack, f.node = a ∧ b ∈ f.targets.take f.index

/-- The edge that is looked at next was not looked at before: the top of the stack is grey, stands
there once, and has each of its successors once. -/
theorem Layout.not_looked (hl : Layout g s) (hg : g.WellFormed) (hs : s.stack = top :: below)
    (ht : top.targets[top.index]? = some target) : ¬ s.Looked top.node target := by
  rintro (hb | ⟨f, hf, hfe, htake⟩)
  · rw [hl.colourOf_top hs] at hb
    cases hb
  · rw [hs] at hf
    rcases List.mem_cons.mp hf with rfl | hf
    · have hnodup : f.targets.Nodup := by
        rw [hl.targets_eq f (hs ▸ List.mem_cons_self)]
        exact hg.successors_nodup _
      obtain ⟨hi, heq⟩ := List.getElem?_eq_some_iff.mp ht
      obtain ⟨j, hj, hje⟩ := List.mem_take_iff_getElem.mp htake
      have hji := (List.Nodup.getElem_inj_iff hnodup).mp (hje.trans heq.symm)
      omega
    · have hnodup := hl.path_nodup
      rw [path_eq_concat hl hs, List.nodup_append] at hnodup
      refine hnodup.2.2 f.node ?_ top.node (List.mem_singleton_self _) hfe
      exact List.mem_reverse.mpr (List.mem_map_of_mem hf)

/-- The edge that is looked at next has closed no cycle. -/
theorem Once.not_mem_closing (h : Once s) (hg : g.WellFormed) (hl : Layout g s)
    (hs : s.stack = top :: below) (ht : top.targets[top.index]? = some target) :
    (top.node, target) ∉ s.closing := fun he => hl.not_looked hg hs ht (h.looked _ he)

/-- An edge into a grey node closes a ring that was not found before: else its cycle would be among
those found, and it would have closed that cycle. -/
theorem Once.ring_not_mem (h : Once s) (hg : g.WellFormed) (hi : Inv g none s)
    (hs : s.stack = top :: below) (ht : top.targets[top.index]? = some target)
    (hc : s.colourOf target = .grey) : Cycle.ring (s.closedNodes target) ∉ s.rings := by
  intro hr
  obtain ⟨c, hclocked⟩ := hi.clocked
  have hedge := hi.layout.edge_of_getElem? hs ht
  have hmem := closedNodes_mem_of_ring_mem hi.layout hi.found hclocked hs hc hedge hr
  refine h.not_mem_closing hg hi.layout hs ht (List.mem_filterMap.mpr ⟨_, hmem, ?_⟩)
  exact (hi.layout.simple_close hs hc hedge).2

theorem close_eq_closeAlways (h : Cycle.ring (s.closedNodes target) ∉ s.rings) :
    s.close target = s.closeAlways target := if_neg h

/-- The edge that was just looked at closes one more cycle. -/
theorem Once.close (h : Once s) (hg : g.WellFormed) (hi : Inv g none s)
    (hs : s.stack = top :: below) (ht : top.targets[top.index]? = some target)
    (hc : s.colourOf target = .grey) : Once ((s.advance top below).close target) := by
  have hadvance := h.advance hs
  have hnew := h.ring_not_mem hg hi hs ht hc
  have hedge := hi.layout.edge_of_getElem? hs ht
  have hclosing : ((s.advance top below).closeAlways target).closing =
      s.closing ++ [(top.node, target)] := by
    show (s.cycles ++ [(⟨s.closedNodes target⟩ : Cycle)]).filterMap Cycle.closingEdge = _
    rw [List.filterMap_append, List.filterMap_cons, (hi.layout.simple_close hs hc hedge).2]
    rfl
  rw [close_eq_closeAlways (s := s.advance top below) hnew]
  refine { looked := fun e he => ?_, nodup := ?_ }
  · rw [hclosing] at he
    rcases List.mem_append.mp he with he | he
    · exact hadvance.looked e he
    · obtain rfl := List.mem_singleton.mp he
      refine Or.inr ⟨_, List.mem_cons_self, rfl, ?_⟩
      show target ∈ top.targets.take (top.index + 1)
      rw [List.take_add_one, ht]
      simp
  · rw [hclosing]
    refine List.nodup_append.mpr ⟨h.nodup, List.nodup_singleton _, ?_⟩
    intro e he e' he' heq
    rw [List.mem_singleton.mp he'] at heq
    exact h.not_mem_closing hg hi.layout hs ht (heq ▸ he)

/-- A round of the search keeps what is known about closing edges. -/
theorem Once.step (h : Once s) (hg : g.WellFormed) (hi : Inv g none s) : Once (s.step g) := by
  cases hs : s.stack with
  | nil => simpa [Search.step, hs] using h
  | cons top below =>
    rcases step_cases (g := g) hs with ⟨-, he⟩ | ⟨target, ht, hcase⟩
    · rw [he]
      exact h.leave hs
    · rcases hcase with ⟨hc, he⟩ | ⟨hc, he⟩ | ⟨hc, he⟩
      · rw [he]
        exact h.close hg hi hs ht hc
      · rw [he]
        exact (h.advance hs).enter hc
      · rw [he]
        exact h.advance hs

theorem Reached.once (hg : g.WellFormed) (h : Reached g s) : Once s := by
  induction h with
  | start => exact ⟨fun e he => absurd he List.not_mem_nil, List.nodup_nil⟩
  | @root s _ _ _ hw _ ih =>
    have hroot : Once { s with path := [], position := [] } := ⟨ih.looked, ih.nodup⟩
    exact hroot.enter hw
  | step h ih => exact ih.step hg (h.inv hg)

/-- In every state of the search an edge into a grey node closes a new ring. -/
theorem Reached.ring_new (hg : g.WellFormed) (h : Reached g s) (hs : s.stack = top :: below)
    (ht : top.targets[top.index]? = some target) (hc : s.colourOf target = .grey) :
    Cycle.ring (s.closedNodes target) ∉ s.rings :=
  (h.once hg).ring_not_mem hg (h.inv hg) hs ht hc

/-- A round is the same without a look at the rings found before. -/
theorem Reached.stepWith_eq (hg : g.WellFormed) (h : Reached g s) :
    stepWith closeAlways g s = s.step g := by
  cases hs : s.stack with
  | nil => simp [stepWith, Search.step, hs]
  | cons top below =>
    rcases step_cases (g := g) hs with ⟨ht, he⟩ | ⟨target, ht, hcase⟩
    · rw [he]
      simp only [stepWith, hs, ht]
    · rcases hcase with ⟨hc, he⟩ | ⟨hc, he⟩ | ⟨hc, he⟩
      · have hnew := h.ring_new hg hs ht hc
        rw [he, close_eq_closeAlways (s := s.advance top below) hnew]
        simp only [stepWith, hs, ht, colourOf_advance, hc]
      · rw [he]
        simp only [stepWith, hs, ht, colourOf_advance, hc]
      · rw [he]
        simp only [stepWith, hs, ht, colourOf_advance, hc]

theorem Reached.runWith_eq (hg : g.WellFormed) (h : Reached g s) (rounds : Nat) :
    runWith closeAlways g rounds s = Search.run g rounds s := by
  induction rounds generalizing s with
  | zero => rfl
  | succ rounds ih => rw [runWith, Search.run, h.stepWith_eq hg, ih h.step]

/-- Both searches go from one state between two roots to the same one. -/
theorem Reached.visitRoot (hg : g.WellFormed) (h : Reached g s) (hs : s.stack = [])
    (hn : node ∈ g.nodes) :
    visitRootWith closeAlways g s node = Search.visitRoot g s node ∧
      Reached g (Search.visitRoot g s node) := by
  rw [visitRootWith, Search.visitRoot]
  split
  · rename_i hw
    have hroot := h.root hs hw hn
    exact ⟨hroot.runWith_eq hg _, hroot.run _⟩
  · exact ⟨rfl, h⟩

theorem Reached.foldl_visitRoot (hg : g.WellFormed) {roots : List Text} (hr : roots ⊆ g.nodes)
    (h : Reached g s) (hs : s.stack = []) :
    roots.foldl (visitRootWith closeAlways g) s = roots.foldl (Search.visitRoot g) s ∧
      Reached g (roots.foldl (Search.visitRoot g) s) := by
  induction roots generalizing s with
  | nil => exact ⟨rfl, h⟩
  | cons root roots ih =>
    have hn := hr List.mem_cons_self
    obtain ⟨heq, hreached⟩ := h.visitRoot hg hs hn
    obtain ⟨-, hstack, -⟩ := (h.inv hg).visitRoot hg hs hn
    rw [List.foldl_cons, List.foldl_cons, heq]
    exact ih (fun n hn => hr (List.mem_cons_of_mem _ hn)) hreached hstack

/-- The whole search is the same without a look at the rings found before. -/
theorem completeWith_closeAlways (hg : g.WellFormed) :
    completeWith closeAlways g = complete g ∧ Reached g (complete g) :=
  Reached.start.foldl_visitRoot hg (List.Subset.refl _) rfl

end Search

namespace Graph

open Search

variable {g : Graph} {a b : Text}

/-- No two cycles have one closing edge. -/
theorem nodup_closingEdges (h : g.WellFormed) : g.closingEdges.Nodup :=
  ((completeWith_closeAlways h).2.once h).nodup

theorem isSome_closingEdge {c : Cycle} (h : 2 ≤ c.nodes.length) : c.closingEdge.isSome := by
  have hpos : 0 < c.edges.length := by
    rw [Cycle.edges, List.length_zip, List.length_tail]
    omega
  rw [Cycle.closingEdge, List.getLast?_eq_some_getLast (List.ne_nil_of_length_pos hpos)]
  rfl

theorem pairwise_closingEdge_ne (h : g.WellFormed) :
    g.cycles.Pairwise fun c d => c.closingEdge ≠ d.closingEdge := by
  have hnodup : (g.cycles.filterMap Cycle.closingEdge).Pairwise (· ≠ ·) := nodup_closingEdges h
  refine (List.pairwise_filterMap.mp hnodup).imp_of_mem fun {c d} hc _ hne heq => ?_
  have hsome := isSome_closingEdge (isSimple_of_mem_cycles h hc).two_le_length
  obtain ⟨e, he⟩ := Option.isSome_iff_exists.mp hsome
  exact hne e he e (heq ▸ he) rfl

/-- Two cycles of the search that are rotations of each other are the same, for both have their
nodes in the order in which they came onto the stack. -/
theorem eq_of_isRotated (h : g.WellFormed) {c d : Cycle} (hc : c ∈ g.cycles) (hd : d ∈ g.cycles)
    (hr : c.nodes.dropLast ~r d.nodes.dropLast) : c = d := by
  obtain ⟨stamps, hclocked⟩ := (complete_spec h).1.clocked
  have hopen : c.nodes.dropLast = d.nodes.dropLast :=
    hr.perm.eq_of_pairwise (fun a b _ _ h₁ h₂ => absurd h₁ (Nat.lt_asymm h₂))
      (hclocked.cycles_sorted c hc) (hclocked.cycles_sorted d hd)
  exact Cycle.eq_of_dropLast_eq (isSimple_of_mem_cycles h hc).toIsWalk
    (isSimple_of_mem_cycles h hd).toIsWalk hopen

theorem length_cycles_le (h : g.WellFormed) : g.cycles.length ≤ g.edgeCount := by
  have hlength : g.closingEdges.length = g.cycles.length :=
    List.filterMap_length_eq_length.mpr fun c hc =>
      isSome_closingEdge (isSimple_of_mem_cycles h hc).two_le_length
  have hsubset : g.closingEdges ⊆ g.edges := by
    rintro ⟨a, b⟩ he
    obtain ⟨c, hc, hce⟩ := mem_closingEdges.mp he
    have hchain := (isSimple_of_mem_cycles h hc).isChain
    exact Edge.mem_edges (Cycle.mem_edges_edge hchain (Cycle.closingEdge_mem hce))
  rw [← hlength, ← length_edges]
  exact (List.subperm_of_subset (nodup_closingEdges h) hsubset).length_le

/-- The search is the same state for state whether or not it looks for the rings that it found
before, since every edge into a grey node closes a new one; and a ring stands for the simple closed
walks that are rotations of each other. So no two cycles are rotations of each other, no two have
one closing edge, and there are at most as many as there are edges. -/
theorem cycles_once (h : g.Built) :
    completeWith closeAlways g = completeWith close g ∧
    (completeWith close g).cycles = g.cycles ∧
    (∀ s, Reached g s → ∀ top below target, s.stack = top :: below →
      top.targets[top.index]? = some target → s.colourOf target = .grey →
      Cycle.ring (s.closedNodes target) ∉ s.rings) ∧
    (∀ c d : Cycle, c.IsSimple g → d.IsSimple g →
      (Cycle.ring c.nodes = Cycle.ring d.nodes ↔ c.nodes.dropLast ~r d.nodes.dropLast)) ∧
    (g.cycles.Pairwise fun c d => ¬ c.nodes.dropLast ~r d.nodes.dropLast) ∧
    (g.cycles.Pairwise fun c d => c.closingEdge ≠ d.closingEdge) ∧
    g.cycles.length ≤ g.edgeCount := by
  have hg := h.wellFormed
  refine ⟨?_, ?_, ?_, ?_, ?_, pairwise_closingEdge_ne hg, length_cycles_le hg⟩
  · rw [completeWith_close]
    exact (completeWith_closeAlways hg).1
  · rw [completeWith_close]
    rfl
  · intro s hs top below target hstack ht hc
    exact hs.ring_new hg hstack ht hc
  · intro c d hc _
    exact Cycle.ring_eq_iff hc.nodup
  · refine (pairwise_closingEdge_ne hg).imp_of_mem fun hc hd hne hr => ?_
    exact hne (congrArg Cycle.closingEdge (eq_of_isRotated hg hc hd hr))

/-- A graph of three modules with two cycles through one edge. -/
theorem cycles_once_shared :
    let g := (((Graph.empty.addEdge "a" "b").addEdge "b" "a").addEdge "b" "c").addEdge "c" "a"
    completeWith closeAlways g = completeWith close g ∧
      (completeWith close g).cycles = [⟨["a", "b", "a"]⟩, ⟨["a", "b", "c", "a"]⟩] ∧
      g.cycles.length ≤ g.edgeCount :=
  have h := cycles_once
    ((((Built.empty.addEdge "a" "b").addEdge "b" "a").addEdge "b" "c").addEdge "c" "a")
  ⟨h.1, h.2.1.trans (by decide), h.2.2.2.2.2.2⟩

end Graph
end ModuleGraph
