import ModuleGraph.Proofs.Graph.Walk

/-!
The bookkeeping of the depth-first search: stack, path, positions and colours say the same.

* `Layout`: the invariant;
* `Layout.leave`, `Layout.advance`, `Layout.enter`: what a round does keeps it;
* `Layout.simple_close`: the cycle cut out of the path is a simple closed walk whose last edge
  leads from the top of the stack to the grey node.
-/

namespace ModuleGraph
namespace Search

variable {g : Graph} {s : Search} {node : Text} {top : Frame} {below : List Frame}

/-- The path lists the stack from the bottom, along edges and without repetition; positions are
places in the path; the grey nodes are those of the path. -/
structure Layout (g : Graph) (s : Search) : Prop where
  path_eq : s.path = (s.stack.map (·.node)).reverse
  path_nodup : s.path.Nodup
  path_chain : s.path.IsChain g.Edge
  path_mem : ∀ n ∈ s.path, n ∈ g.nodes
  position_eq : ∀ n, Entries.get? n s.position =
    if n ∈ s.path then some (s.path.idxOf n) else none
  grey_iff : ∀ n, s.colourOf n = .grey ↔ n ∈ s.path
  targets_eq : ∀ f ∈ s.stack, f.targets = g.successors f.node
  index_le : ∀ f ∈ s.stack, f.index ≤ f.targets.length

theorem colourOf_enter (g : Graph) (s : Search) (node n : Text) :
    (s.enter g node).colourOf n = if n = node then .grey else s.colourOf n := by
  rw [colourOf, enter, Entries.get?_put]
  split <;> rfl

theorem colourOf_leave (s : Search) (node n : Text) (below : List Frame) :
    (s.leave node below).colourOf n = if n = node then .black else s.colourOf n := by
  rw [colourOf, leave, Entries.get?_put]
  split <;> rfl

/-- The search with the next successor of the top looked at. -/
def advance (s : Search) (top : Frame) (below : List Frame) : Search :=
  { s with stack := { top with index := top.index + 1 } :: below }

theorem colourOf_advance (s : Search) (top : Frame) (below : List Frame) (n : Text) :
    (s.advance top below).colourOf n = s.colourOf n := rfl

theorem path_eq_concat (h : Layout g s) (hs : s.stack = top :: below) :
    s.path = (below.map (·.node)).reverse ++ [top.node] := by
  rw [h.path_eq, hs]
  simp

theorem Layout.top_mem_path (h : Layout g s) (hs : s.stack = top :: below) :
    top.node ∈ s.path := by
  rw [path_eq_concat h hs]
  simp

/-- The top of the stack is grey. -/
theorem Layout.colourOf_top (h : Layout g s) (hs : s.stack = top :: below) :
    s.colourOf top.node = .grey := (h.grey_iff _).mpr (h.top_mem_path hs)

theorem Layout.leave (h : Layout g s) (hs : s.stack = top :: below) :
    Layout g (s.leave top.node below) := by
  have hp := path_eq_concat h hs
  have hd : s.path.dropLast = (below.map (·.node)).reverse := by simp [hp]
  have hnot : top.node ∉ s.path.dropLast := by
    have hn := h.path_nodup
    rw [hp, List.nodup_append] at hn
    rw [hd]
    intro hm
    exact hn.2.2 _ hm _ (List.mem_singleton_self _) rfl
  have hmem : ∀ n, n ∈ s.path ↔ n ∈ s.path.dropLast ∨ n = top.node := by
    intro n
    rw [hd, hp, List.mem_append, List.mem_singleton]
  refine
    { path_eq := hd
      path_nodup := h.path_nodup.sublist (List.dropLast_sublist _)
      path_chain := h.path_chain.dropLast
      path_mem := fun n hn => h.path_mem n (List.dropLast_subset _ hn)
      position_eq := ?_
      grey_iff := ?_
      targets_eq := fun f hf => h.targets_eq f (hs ▸ List.mem_cons_of_mem _ hf)
      index_le := fun f hf => h.index_le f (hs ▸ List.mem_cons_of_mem _ hf) }
  · intro n
    show Entries.get? n (Entries.erase top.node s.position) =
      if n ∈ s.path.dropLast then some (s.path.dropLast.idxOf n) else none
    rw [Entries.get?_erase, h.position_eq]
    by_cases hn : n = top.node
    · rw [if_pos hn, if_neg (hn ▸ hnot)]
    · rw [if_neg hn]
      by_cases hm : n ∈ s.path.dropLast
      · rw [if_pos hm, if_pos ((hmem n).mpr (Or.inl hm))]
        rw [hd] at hm ⊢
        rw [hp, List.idxOf_append_of_mem hm]
      · rw [if_neg hm, if_neg (fun hm' => ((hmem n).mp hm').elim hm hn)]
  · intro n
    show (s.leave top.node below).colourOf n = .grey ↔ n ∈ s.path.dropLast
    rw [colourOf_leave]
    by_cases hn : n = top.node
    · rw [if_pos hn]
      refine ⟨fun hc => ?_, fun hm => absurd (hn ▸ hm) hnot⟩
      cases hc
    · rw [if_neg hn, h.grey_iff, hmem]
      exact ⟨fun hm => hm.resolve_right hn, Or.inl⟩

theorem Layout.advance (h : Layout g s) (hs : s.stack = top :: below)
    (hi : top.index < top.targets.length) : Layout g (s.advance top below) where
  path_eq := by
    rw [show (s.advance top below).path = s.path from rfl, h.path_eq, hs]
    rfl
  path_nodup := h.path_nodup
  path_chain := h.path_chain
  path_mem := h.path_mem
  position_eq := h.position_eq
  grey_iff := h.grey_iff
  targets_eq f hf := by
    rcases List.mem_cons.mp hf with rfl | hf
    · exact h.targets_eq top (hs ▸ List.mem_cons_self)
    · exact h.targets_eq f (hs ▸ List.mem_cons_of_mem _ hf)
  index_le f hf := by
    rcases List.mem_cons.mp hf with rfl | hf
    · exact hi
    · exact h.index_le f (hs ▸ List.mem_cons_of_mem _ hf)

theorem Layout.enter (h : Layout g s) (hw : s.colourOf node = .white) (hn : node ∈ g.nodes)
    (he : ∀ f ∈ s.stack.head?, g.Edge f.node node) : Layout g (s.enter g node) := by
  have hnot : node ∉ s.path := by
    intro hm
    rw [(h.grey_iff node).mpr hm] at hw
    cases hw
  have hmem : ∀ n, n ∈ s.path ++ [node] ↔ n ∈ s.path ∨ n = node := by
    intro n
    rw [List.mem_append, List.mem_singleton]
  refine
    { path_eq := by simp [Search.enter, h.path_eq]
      path_nodup := ?_
      path_chain := ?_
      path_mem := ?_
      position_eq := ?_
      grey_iff := ?_
      targets_eq := ?_
      index_le := ?_ }
  · show (s.path ++ [node]).Nodup
    rw [List.nodup_append]
    refine ⟨h.path_nodup, by simp, ?_⟩
    intro a ha b hb e
    rw [List.mem_singleton] at hb
    exact hnot (hb ▸ e ▸ ha)
  · show (s.path ++ [node]).IsChain g.Edge
    refine h.path_chain.append (List.isChain_singleton node) ?_
    intro a ha b hb
    obtain rfl : node = b := by simpa using hb
    rw [h.path_eq, List.getLast?_reverse, List.head?_map] at ha
    obtain ⟨f, hf, rfl⟩ := Option.map_eq_some_iff.mp ha
    exact he f hf
  · intro n hm
    rcases (hmem n).mp hm with hm | rfl
    · exact h.path_mem n hm
    · exact hn
  · intro n
    show Entries.get? n (Entries.put node s.path.length s.position) =
      if n ∈ s.path ++ [node] then some ((s.path ++ [node]).idxOf n) else none
    rw [Entries.get?_put, h.position_eq]
    by_cases hne : n = node
    · subst hne
      rw [if_pos rfl, if_pos ((hmem n).mpr (Or.inr rfl)), List.idxOf_append_of_notMem hnot]
      simp
    · rw [if_neg hne]
      by_cases hm : n ∈ s.path
      · rw [if_pos hm, if_pos ((hmem n).mpr (Or.inl hm)), List.idxOf_append_of_mem hm]
      · rw [if_neg hm, if_neg (fun hm' => ((hmem n).mp hm').elim hm hne)]
  · intro n
    show (s.enter g node).colourOf n = .grey ↔ n ∈ s.path ++ [node]
    rw [colourOf_enter, hmem]
    by_cases hne : n = node
    · simp [hne]
    · simp [hne, h.grey_iff]
  · intro f hf
    rcases List.mem_cons.mp hf with rfl | hf
    · rfl
    · exact h.targets_eq f hf
  · intro f hf
    rcases List.mem_cons.mp hf with rfl | hf
    · exact Nat.zero_le _
    · exact h.index_le f hf

/-- The nodes of the cycle that an edge into `target` closes. -/
def closedNodes (s : Search) (target : Text) : List Text :=
  s.path.drop ((Entries.get? target s.position).getD 0) ++ [target]

/-- The path from the grey node on. It ends with the top of the stack. -/
theorem Layout.closedNodes_eq (h : Layout g s) (hs : s.stack = top :: below)
    (ht : s.colourOf node = .grey) :
    ∃ front, s.closedNodes node = front ++ [top.node, node] ∧ (front ++ [top.node]) <:+ s.path ∧
      (front ++ [top.node]).head? = some node := by
  have hm : node ∈ s.path := (h.grey_iff node).mp ht
  have hi : s.path.idxOf node < s.path.length := List.idxOf_lt_length_of_mem hm
  have hd : s.closedNodes node = s.path.drop (s.path.idxOf node) ++ [node] := by
    rw [closedNodes, h.position_eq, if_pos hm]
    rfl
  have hp := path_eq_concat h hs
  have hle : s.path.idxOf node ≤ (below.map (·.node)).reverse.length := by
    rw [hp, List.length_append] at hi
    rw [hp]
    simpa using Nat.le_of_lt_succ hi
  have hf : s.path.drop (s.path.idxOf node) =
      (below.map (·.node)).reverse.drop (s.path.idxOf node) ++ [top.node] := by
    rw [← List.drop_append_of_le_length hle, ← hp]
  refine ⟨(below.map (·.node)).reverse.drop (s.path.idxOf node), ?_, ?_, ?_⟩
  · rw [hd, hf]
    simp
  · rw [← hf]
    exact List.drop_suffix _ _
  · rw [← hf, List.head?_drop, List.getElem?_eq_getElem hi, List.getElem_idxOf]

/-- The cycle that an edge from the top of the stack to a grey node closes. -/
theorem Layout.simple_close (h : Layout g s) (hs : s.stack = top :: below)
    (ht : s.colourOf node = .grey) (he : g.Edge top.node node) :
    Cycle.IsSimple g ⟨s.closedNodes node⟩ ∧
      Cycle.closingEdge ⟨s.closedNodes node⟩ = some (top.node, node) := by
  obtain ⟨front, heq, hsuffix, hhead⟩ := h.closedNodes_eq hs ht
  rw [heq]
  have hsplit : front ++ [top.node, node] = (front ++ [top.node]) ++ [node] := by simp
  refine ⟨{ two_le_length := by simp, closed := ?_, isChain := ?_, nodup := ?_ },
    Cycle.closingEdge_concat front top.node node⟩
  · rw [hsplit, List.head?_append, hhead]
    simp
  · show (front ++ [top.node, node]).IsChain g.Edge
    rw [hsplit]
    refine (h.path_chain.suffix hsuffix).append (List.isChain_singleton node) ?_
    intro a ha b hb
    obtain rfl : top.node = a := by simpa using ha
    obtain rfl : node = b := by simpa using hb
    exact he
  · rw [hsplit, List.dropLast_concat]
    exact h.path_nodup.sublist hsuffix.sublist

end Search
end ModuleGraph
