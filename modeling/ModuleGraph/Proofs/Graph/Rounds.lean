import ModuleGraph.Proofs.Graph.Search
import Mathlib

/-!
How long the depth-first search takes and how it ends.

* `remaining_step`: a round takes away exactly one of the rounds that remain;
* `stack_run`: as many rounds as there are nodes and edges empty the stack;
* `complete_spec`: in the end the invariant holds and every node is black.
-/

namespace ModuleGraph
namespace Search

variable {g : Graph} {s : Search} {top : Frame} {below : List Frame}

/-- The rounds for a node that is not on the stack yet: one for each edge and one to leave. -/
def roundsFor (g : Graph) (node : Text) : Nat := (g.successors node).length + 1

/-- The rounds for a frame of the stack. -/
def Frame.rounds (f : Frame) : Nat := f.targets.length - f.index + 1

/-- The rounds for the nodes that are still white. -/
def whiteRounds (g : Graph) (s : Search) : Nat :=
  (g.nodes.map fun n => if s.colourOf n = .white then roundsFor g n else 0).sum

/-- The rounds until the stack is empty and every node is black. -/
def remaining (g : Graph) (s : Search) : Nat :=
  (s.stack.map Frame.rounds).sum + whiteRounds g s

/-- Sums that differ in one place. -/
theorem sum_map_eq_add {l : List Text} {a : Text} {f f' : Text → Nat} {k : Nat} (hl : l.Nodup)
    (ha : a ∈ l) (hk : f a = f' a + k) (h : ∀ b ∈ l, b ≠ a → f b = f' b) :
    (l.map f).sum = (l.map f').sum + k := by
  induction l with
  | nil => simp at ha
  | cons b l ih =>
    obtain ⟨hb, hl⟩ := List.nodup_cons.mp hl
    simp only [List.map_cons, List.sum_cons]
    by_cases hab : a = b
    · subst hab
      have hrest : l.map f = l.map f' := by
        refine List.map_congr_left fun c hc => h c (List.mem_cons_of_mem _ hc) ?_
        rintro rfl
        exact hb hc
      rw [hrest, hk]
      omega
    · have hal := (List.mem_cons.mp ha).resolve_left hab
      rw [ih hl hal fun c hc => h c (List.mem_cons_of_mem _ hc),
        h b List.mem_cons_self (Ne.symm hab)]
      omega

/-- The rounds of a node go from the white nodes to the stack when it comes onto it. -/
theorem remaining_enter {node : Text} (hg : g.WellFormed) (hw : s.colourOf node = .white)
    (hn : node ∈ g.nodes) : remaining g (s.enter g node) = remaining g s := by
  have hwhite : whiteRounds g s = whiteRounds g (s.enter g node) + roundsFor g node := by
    refine sum_map_eq_add hg.nodes_nodup hn ?_ fun b _ hb => ?_
    · simp [hw, colourOf_enter]
    · rw [colourOf_enter, if_neg hb]
  have hstack : (s.enter g node).stack = ⟨node, g.successors node, 0⟩ :: s.stack := rfl
  have hframe : Frame.rounds ⟨node, g.successors node, 0⟩ = roundsFor g node := by
    simp [Frame.rounds, roundsFor]
  simp only [remaining, hstack, List.map_cons, List.sum_cons, hframe, hwhite]
  omega

theorem remaining_leave (hg : Layout g s) (hs : s.stack = top :: below)
    (hi : top.targets.length ≤ top.index) :
    remaining g s = remaining g (s.leave top.node below) + 1 := by
  have hgrey := hg.colourOf_top hs
  have hwhite : whiteRounds g (s.leave top.node below) = whiteRounds g s := by
    refine congrArg List.sum (List.map_congr_left fun n _ => ?_)
    rw [colourOf_leave]
    by_cases hn : n = top.node
    · simp [hn, hgrey]
    · rw [if_neg hn]
  have hstack : (s.leave top.node below).stack = below := rfl
  have hframe : Frame.rounds top = 1 := by
    simp only [Frame.rounds]
    omega
  simp only [remaining, hstack, hs, List.map_cons, List.sum_cons, hframe, hwhite]
  omega

theorem remaining_advance (hs : s.stack = top :: below) (hi : top.index < top.targets.length) :
    remaining g s = remaining g (s.advance top below) + 1 := by
  have hstack : (s.advance top below).stack = { top with index := top.index + 1 } :: below := rfl
  have hframe : Frame.rounds top = Frame.rounds { top with index := top.index + 1 } + 1 := by
    simp only [Frame.rounds]
    omega
  have hwhite : whiteRounds g (s.advance top below) = whiteRounds g s := rfl
  simp only [remaining, hstack, hs, List.map_cons, List.sum_cons, hframe, hwhite]
  omega

theorem remaining_close (node : Text) : remaining g (s.close node) = remaining g s := by
  simp only [remaining, whiteRounds, (close_eq s node).2.1, colourOf_close]

/-- One round less remains after a round. -/
theorem remaining_step (hg : g.WellFormed) (h : Layout g s) (hs : s.stack = top :: below) :
    remaining g s = remaining g (s.step g) + 1 := by
  rcases step_cases (g := g) hs with ⟨ht, he⟩ | ⟨target, ht, hcase⟩
  · rw [he]
    exact remaining_leave h hs (List.getElem?_eq_none_iff.mp ht)
  · rw [remaining_advance hs (List.getElem?_eq_some_iff.mp ht).1]
    rcases hcase with ⟨hc, he⟩ | ⟨hc, he⟩ | ⟨hc, he⟩
    · rw [he, remaining_close]
    · rw [he]
      have hn := hg.target_mem (h.edge_of_getElem? hs ht)
      rw [remaining_enter hg (s := s.advance top below) hc hn]
    · rw [he]

/-- Enough rounds empty the stack. -/
theorem stack_run (hg : g.WellFormed) (h : Inv g none s) {rounds : Nat}
    (hr : remaining g s ≤ rounds) : (run g rounds s).stack = [] := by
  induction rounds generalizing s with
  | zero =>
    cases hs : s.stack with
    | nil => exact hs
    | cons top below =>
      rw [remaining_step hg h.layout hs] at hr
      omega
  | succ rounds ih =>
    rw [run]
    cases hs : s.stack with
    | nil => simp [hs]
    | cons top below =>
      rw [remaining_step hg h.layout hs] at hr
      exact ih (h.step hg) (by omega)

/-- A node that is not white never becomes white again. -/
theorem colourOf_step {n : Text} (h : s.colourOf n ≠ .white) : (s.step g).colourOf n ≠ .white := by
  cases hs : s.stack with
  | nil => simpa [step, hs] using h
  | cons top below =>
    rcases step_cases (g := g) hs with ⟨_, he⟩ | ⟨target, _, hcase⟩
    · rw [he, colourOf_leave]
      split
      · simp
      · exact h
    · rcases hcase with ⟨_, he⟩ | ⟨_, he⟩ | ⟨_, he⟩
      · rw [he, colourOf_close]
        exact h
      · rw [he, colourOf_enter]
        split
        · simp
        · exact h
      · rw [he]
        exact h

theorem colourOf_run {n : Text} (h : s.colourOf n ≠ .white) (rounds : Nat) :
    (run g rounds s).colourOf n ≠ .white :=
  run_of_step (P := fun s => s.colourOf n ≠ .white) (fun _ => colourOf_step) h rounds

/-- A round for each node and each edge. -/
theorem sum_roundsFor (hg : g.WellFormed) :
    (g.nodes.map (roundsFor g)).sum = g.nodes.length + g.edgeCount := by
  have hterms : g.nodes.map (roundsFor g) = g.adjacency.map fun e => e.2.length + 1 := by
    rw [Graph.nodes, Entries.keys, List.map_map]
    refine List.map_congr_left fun e he => ?_
    rw [Function.comp_apply, roundsFor, Graph.successors,
      Entries.get?_of_mem hg.nodes_nodup he]
    rfl
  have hsum : ∀ es : Entries (List Text),
      (es.map fun e => e.2.length + 1).sum = es.length + (es.map (·.2.length)).sum := by
    intro es
    induction es with
    | nil => rfl
    | cons e es ih =>
      simp only [List.map_cons, List.sum_cons, List.length_cons, ih]
      omega
  rw [hterms, hsum, Graph.edgeCount, Graph.nodes, Entries.keys, List.length_map]

theorem remaining_le (hg : g.WellFormed) (hs : s.stack = []) :
    remaining g s ≤ g.nodes.length + g.edgeCount := by
  rw [← sum_roundsFor hg, remaining, hs, List.map_nil, List.sum_nil, Nat.zero_add]
  refine List.sum_le_sum fun n _ => ?_
  split
  · exact Nat.le_refl _
  · exact Nat.zero_le _

theorem colourOf_start (g : Graph) (n : Text) : (start g).colourOf n = .white := by
  have h : ∀ nodes : List Text,
      (Entries.get? n (nodes.map fun m => (m, Colour.white))).getD .white = .white := by
    intro nodes
    induction nodes with
    | nil => rfl
    | cons m nodes ih =>
      by_cases hm : m = n
      · simp [Entries.get?, hm]
      · simpa [Entries.get?, hm] using ih
  exact h g.nodes

theorem inv_start (g : Graph) : Inv g none (start g) where
  layout :=
    { path_eq := rfl
      path_nodup := List.nodup_nil
      path_chain := List.isChain_nil
      path_mem := by simp [start]
      position_eq := by simp [start, Entries.get?]
      grey_iff := by
        intro n
        rw [colourOf_start]
        simp [start]
      targets_eq := by simp [start]
      index_le := by simp [start] }
  found := ⟨by simp [start], by simp [start]⟩
  progress := trivial
  clocked := ⟨⟨fun _ => 0, fun _ => 0, 0⟩,
    { entered_lt := fun n hn => absurd (colourOf_start g n) hn
      left_lt := fun n hn => by
        rw [colourOf_start] at hn
        cases hn
      path_sorted := List.Pairwise.nil
      cycles_sorted := by simp [start]
      cycles_seen := by simp [start]
      black_edge := fun a b ha _ => by
        rw [colourOf_start] at ha
        cases ha }⟩

/-- The search between two roots: the stack is empty and the path with it. -/
theorem Inv.path_eq_nil (h : Inv g none s) (hs : s.stack = []) : s.path = [] := by
  rw [h.layout.path_eq, hs]
  rfl

theorem Inv.enter_root (h : Inv g none s) (hs : s.stack = []) {root : Text}
    (hw : s.colourOf root = .white) (hn : root ∈ g.nodes) :
    Inv g none (({ s with path := [], position := [] } : Search).enter g root) := by
  have hp := h.path_eq_nil hs
  have hposition : ∀ n, Entries.get? n s.position = none := by
    intro n
    rw [h.layout.position_eq, hp]
    simp
  have hnone : Inv g (some root) { s with path := [], position := [] } :=
    { layout :=
        { path_eq := by simp [hs]
          path_nodup := List.nodup_nil
          path_chain := List.isChain_nil
          path_mem := by simp
          position_eq := by simp [Entries.get?]
          grey_iff := fun n => hp ▸ h.layout.grey_iff n
          targets_eq := h.layout.targets_eq
          index_le := h.layout.index_le }
      found := ⟨h.found.simple, h.found.mem_rings⟩
      progress := by simp [hs, Progress]
      clocked := by
        obtain ⟨c, hc⟩ := h.clocked
        exact ⟨c,
          { entered_lt := hc.entered_lt
            left_lt := hc.left_lt
            path_sorted := List.Pairwise.nil
            cycles_sorted := hc.cycles_sorted
            cycles_seen := hc.cycles_seen
            black_edge := hc.black_edge }⟩ }
  exact hnone.enter hw hn (by simp [hs])

/-- The search from one root ends, and the root has been reached then. -/
theorem Inv.visitRoot (hg : g.WellFormed) (h : Inv g none s) (hs : s.stack = []) {root : Text}
    (hn : root ∈ g.nodes) :
    Inv g none (visitRoot g s root) ∧ (visitRoot g s root).stack = [] ∧
      ∀ n, n = root ∨ s.colourOf n ≠ .white → (visitRoot g s root).colourOf n ≠ .white := by
  unfold Search.visitRoot
  split
  · rename_i hw
    have hroot := h.enter_root hs hw hn
    refine ⟨hroot.run hg _, stack_run hg hroot ?_, ?_⟩
    · rw [remaining_enter hg (s := { s with path := [], position := [] }) hw hn]
      exact remaining_le hg hs
    · intro n hnw
      refine colourOf_run ?_ _
      rw [colourOf_enter]
      split
      · simp
      · rename_i hne
        exact hnw.resolve_left hne
  · rename_i hw
    refine ⟨h, hs, ?_⟩
    rintro n (rfl | hnw)
    · exact hw
    · exact hnw

theorem foldl_visitRoot (hg : g.WellFormed) {roots : List Text} (hr : roots ⊆ g.nodes)
    (h : Inv g none s) (hs : s.stack = []) :
    Inv g none (roots.foldl (visitRoot g) s) ∧ (roots.foldl (visitRoot g) s).stack = [] ∧
      ∀ n, n ∈ roots ∨ s.colourOf n ≠ .white →
        (roots.foldl (visitRoot g) s).colourOf n ≠ .white := by
  induction roots generalizing s with
  | nil => exact ⟨h, hs, fun n hn => hn.resolve_left (by simp)⟩
  | cons root roots ih =>
    obtain ⟨hi, hstack, hseen⟩ := h.visitRoot hg hs (hr List.mem_cons_self)
    obtain ⟨hi', hstack', hseen'⟩ := ih (fun n hn => hr (List.mem_cons_of_mem _ hn)) hi hstack
    refine ⟨hi', hstack', fun n hn => hseen' n ?_⟩
    rcases hn with hn | hn
    · rcases List.mem_cons.mp hn with rfl | hn
      · exact Or.inr (hseen n (Or.inl rfl))
      · exact Or.inl hn
    · exact Or.inr (hseen n (Or.inr hn))

/-- At the end of the search every node is black. -/
theorem complete_spec (hg : g.WellFormed) :
    Inv g none (complete g) ∧ (complete g).stack = [] ∧
      ∀ n ∈ g.nodes, (complete g).colourOf n = .black := by
  obtain ⟨hi, hs, hseen⟩ := foldl_visitRoot hg (List.Subset.refl g.nodes) (inv_start g) rfl
  refine ⟨hi, hs, fun n hn => ?_⟩
  have hw : (complete g).colourOf n ≠ .white := hseen n (Or.inl hn)
  have hgrey : (complete g).colourOf n ≠ .grey := by
    intro hc
    have hm := (hi.layout.grey_iff n).mp hc
    rw [hi.path_eq_nil hs] at hm
    simp at hm
  cases hc : (complete g).colourOf n with
  | white => exact absurd hc hw
  | grey => exact absurd hc hgrey
  | black => rfl

end Search
end ModuleGraph
